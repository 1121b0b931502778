import GaussJordan.Proofs.DiagonalRun
import GaussJordan.Proofs.ExactArithmetic
import GaussJordan.Proofs.RowExchanges
import GaussJordan.Proofs.SharedColumns

namespace GaussJordan

theorem lt_of_mem_diagonal {count : Nat} {answer : Nat × Nat} (h : answer ∈ diagonal count) :
    answer.2 < count := by
  obtain ⟨i, hi, rfl⟩ := List.mem_map.mp h
  exact List.mem_range.mp hi

theorem diagonal_prefix_iff {count : Nat} {answers : List (Nat × Nat)} :
    diagonal count <+: answers ↔ ∀ r, r < count → answers[r]? = some (r, r) := by
  simp [List.prefix_iff_getElem?, diagonal]

theorem foundBelow_diagonal (count : Nat) : foundBelow (diagonal count) = 0 := by
  rw [foundBelow_eq_zero_iff]
  intro i answer hi
  obtain ⟨hlt, rfl⟩ := List.getElem?_eq_some_iff.mp hi
  simp [diagonal]

variable {α : Type} [Scalar α] {tolerance : α}

namespace DenseMatrix

variable {m : DenseMatrix α}

/-- An inversion takes its pivots where the reduction of any matrix with the same first columns
takes them, as long as that is on the diagonal, and ends at the first one that is not. -/
theorem invert_follows_pivots {n : DenseMatrix α} {answers : List (Nat × Nat)} (hsq : m.IsSquare)
    (hn : 0 < m.rows) (hw : n.WellFormed) (h : m.augmentIdentity.AgreesUpTo m.rows n)
    (htakes : n.TakesPivots tolerance answers) :
    ((∃ inverse sheet, m.invert tolerance = .ok (.computed inverse sheet)) ↔
      ∀ r, r < m.rows → answers[r]? = some (r, r)) ∧
    ∀ i, (∃ sheet, m.invert tolerance = .ok (.singular i sheet)) ↔
      i < m.rows ∧ answers[i]? ≠ some (i, i) ∧ ∀ r, r < i → answers[r]? = some (r, r) := by
  obtain ⟨v', reach', hs⟩ := htakes
  have hends := @invert_ends_iff α _ tolerance m fun i => answers[i]? ≠ some (i, i)
  simp only [ne_eq, Decidable.not_not, ← diagonal_prefix_iff] at hends ⊢
  apply hends
  rcases invert_reach tolerance hsq hn with ⟨w, reach, hrun⟩ | ⟨i, w, hi, reach, hz, hrun⟩
  · obtain ⟨v, _, hv, _⟩ := reach.transfer (reductionSheet n) augmentIdentity_wellFormed
      hw h fun _ => lt_of_mem_diagonal
    exact .inl ⟨⟨_, _, hrun⟩, hv.prefix_of_settled reach' hs⟩
  · obtain ⟨v, _, hv, hagree, _⟩ := reach.transfer (reductionSheet n)
      augmentIdentity_wellFormed hw h fun _ ha => Nat.lt_trans (lt_of_mem_diagonal ha) hi
    refine .inr ⟨i, ⟨_, hrun⟩, hi, fun hget => ?_, hv.prefix_of_settled reach' hs⟩
    -- the search would have answered with a cell that counts as zero
    obtain ⟨hlt, hanswer⟩ := List.getElem?_eq_some_iff.mp hget
    obtain ⟨u, hu, _, hfound⟩ := reach'.exists_answered hlt
    obtain ⟨heq, rfl⟩ := hu.unique hv (by rw [List.length_take, length_diagonal]; omega)
    rw [heq, hanswer, nextLead_diagonal] at hfound
    have hp := (findPivot_eq_some_iff (hu.shape hw).1).mp hfound
    have hwr := (inversion_shape reach).2.1
    rw [← hagree.entry_eq i i (by omega) hi, hp.usable] at hz
    cases hz

/-- An inversion that succeeds records what the reduction of the matrix beside the identity
records, and returns the right half of what that ends with. -/
theorem reduce_of_invert_computed {inverse : DenseMatrix α} {sheet : Worksheet α}
    (hsq : m.IsSquare) (hn : 0 < m.rows)
    (h : m.invert tolerance = .ok (.computed inverse sheet)) :
    ∃ w, m.augmentIdentity.reduce tolerance = .ok w ∧
      sheet.log.operations = .augment :: w.log.operations ∧
      sheet.log.snapshots = m.augmentIdentity :: w.log.snapshots ∧
      w.log.size = m.rows * m.rows ∧ w.log.exchanges = 0 ∧
      w.state.columns m.rows (2 * m.rows) = .ok inverse := by
  have hwf : m.augmentIdentity.WellFormed := augmentIdentity_wellFormed
  obtain ⟨w, reach, rfl, rfl⟩ := reach_of_invert_computed hsq hn h
  have hagree : m.augmentIdentity.AgreesUpTo m.rows m.augmentIdentity :=
    .refl (Nat.le_add_left m.rows m.cols)
  obtain ⟨v, ops, hv, _, hall, hall'⟩ := reach.transfer (reductionSheet m.augmentIdentity)
    hwf hwf hagree fun _ => lt_of_mem_diagonal
  obtain ⟨_, hrows, hcols⟩ := hv.shape hwf
  have hs : Settled tolerance (diagonal m.rows) v := by
    left
    rw [hrows, length_diagonal]
    exact Nat.le_refl _
  have hstart : (reductionSheet m.augmentIdentity).state = (inversionSheet m).state := rfl
  obtain ⟨hstate, snapshots, hsnapshots, hsnapshots'⟩ :=
    Worksheet.performAll_alike hstart hall hall'
  obtain ⟨hexchanges, hsize⟩ := hv.reduction_counts hwf
  rw [foundBelow_diagonal] at hexchanges hsize
  rw [length_diagonal] at hsize
  refine ⟨_, reduce_of_reach hwf hv hs, ?_, ?_, hsize, hexchanges, ?_⟩
  · change w.log.operations = .augment :: v.log.operations
    rw [Worksheet.operations_of_performAll hall, Worksheet.operations_of_performAll hall']
    rfl
  · change w.log.snapshots = m.augmentIdentity :: v.log.snapshots
    rw [hsnapshots, hsnapshots']
    rfl
  · rw [← hstate]
    exact columns_right_half hsq hn hrows hcols

/-- Inversion and the reduction of the matrix beside the identity run in lockstep, whatever the
arithmetic: the inversion ends at the first pivot that the search finds elsewhere than on the
diagonal. If there is none, the two record the same. -/
theorem invert_lockstep (tolerance : α) (hsq : m.IsSquare) (hn : 0 < m.rows) :
    ∃ answers w, (∀ other, m.augmentIdentity.TakesPivots tolerance other ↔ other = answers) ∧
      m.augmentIdentity.reduce tolerance = .ok w ∧
      ((∃ inverse sheet, m.invert tolerance = .ok (.computed inverse sheet)) ↔
        ∀ r, r < m.rows → answers[r]? = some (r, r)) ∧
      (∀ i, (∃ sheet, m.invert tolerance = .ok (.singular i sheet)) ↔
        i < m.rows ∧ answers[i]? ≠ some (i, i) ∧ ∀ r, r < i → answers[r]? = some (r, r)) ∧
      ∀ inverse sheet, m.invert tolerance = .ok (.computed inverse sheet) →
        sheet.log.operations = .augment :: w.log.operations ∧
        sheet.log.snapshots = m.augmentIdentity :: w.log.snapshots ∧
        w.log.size = m.rows * m.rows ∧ w.log.exchanges = 0 ∧
        w.state.columns m.rows (2 * m.rows) = .ok inverse := by
  have hwf : m.augmentIdentity.WellFormed := augmentIdentity_wellFormed
  obtain ⟨answers, w, hreduce, reach, hs⟩ := reduce_reach tolerance hwf
  have htakes : m.augmentIdentity.TakesPivots tolerance answers := ⟨w, reach, hs⟩
  have hagree : m.augmentIdentity.AgreesUpTo m.rows m.augmentIdentity :=
    .refl (Nat.le_add_left m.rows m.cols)
  obtain ⟨hcomputed_iff, hsingular_iff⟩ := invert_follows_pivots hsq hn hwf hagree htakes
  refine ⟨answers, _, fun other => ⟨fun h => h.unique htakes, fun h => h ▸ htakes⟩, hreduce,
    hcomputed_iff, hsingular_iff, fun inverse sheet hcomputed => ?_⟩
  obtain ⟨w', hreduce', hrecords⟩ := reduce_of_invert_computed hsq hn hcomputed
  rw [hreduce] at hreduce'
  cases hreduce'
  exact hrecords

/-- The first matrix has an inverse. The inversion of the second one stops where its reduction
exchanges rows. -/
theorem invert_lockstep_three :
    (⟨3, 3, #[2, 1, 1, 4, 3, 3, 8, 7, 9]⟩ : DenseMatrix ℚ).IsSquare ∧
    (∃ inverse sheet w,
      (⟨3, 3, #[2, 1, 1, 4, 3, 3, 8, 7, 9]⟩ : DenseMatrix ℚ).invert (1 / 10 ^ 10) =
        .ok (.computed inverse sheet) ∧
      (⟨3, 3, #[2, 1, 1, 4, 3, 3, 8, 7, 9]⟩ : DenseMatrix ℚ).augmentIdentity.reduce
        (1 / 10 ^ 10) = .ok w ∧
      sheet.log.operations = .augment :: w.log.operations ∧ w.log.size = 9 ∧
      w.state.columns 3 6 = .ok inverse) ∧
    (⟨3, 3, #[1, 2, 0, 2, 4, 1, 0, 1, 1]⟩ : DenseMatrix ℚ).IsSquare ∧
    ∃ sheet answers,
      (⟨3, 3, #[1, 2, 0, 2, 4, 1, 0, 1, 1]⟩ : DenseMatrix ℚ).invert (1 / 10 ^ 10) =
        .ok (.singular 1 sheet) ∧
      (⟨3, 3, #[1, 2, 0, 2, 4, 1, 0, 1, 1]⟩ : DenseMatrix ℚ).augmentIdentity.TakesPivots
        (1 / 10 ^ 10) answers ∧
      answers[0]? = some (0, 0) ∧ answers[1]? ≠ some (1, 1) := by
  have hsq : (⟨3, 3, #[2, 1, 1, 4, 3, 3, 8, 7, 9]⟩ : DenseMatrix ℚ).IsSquare := rfl
  have hsq' : (⟨3, 3, #[1, 2, 0, 2, 4, 1, 0, 1, 1]⟩ : DenseMatrix ℚ).IsSquare := rfl
  have hcomputed : ∃ inverse sheet,
      (⟨3, 3, #[2, 1, 1, 4, 3, 3, 8, 7, 9]⟩ : DenseMatrix ℚ).invert (1 / 10 ^ 10) =
        .ok (.computed inverse sheet) := by decide +kernel
  have hsingular : ∃ sheet,
      (⟨3, 3, #[1, 2, 0, 2, 4, 1, 0, 1, 1]⟩ : DenseMatrix ℚ).invert (1 / 10 ^ 10) =
        .ok (.singular 1 sheet) := by decide +kernel
  refine ⟨hsq, ?_, hsq', ?_⟩
  · obtain ⟨inverse, sheet, hrun⟩ := hcomputed
    obtain ⟨_, w, _, hreduce, _, _, hrecords⟩ :=
      invert_lockstep (1 / 10 ^ 10) hsq (by decide)
    obtain ⟨hoperations, _, hsize, _, hinverse⟩ := hrecords inverse sheet hrun
    exact ⟨inverse, sheet, w, hrun, hreduce, hoperations, hsize, hinverse⟩
  · obtain ⟨answers, _, htakes, _, _, hstops, _⟩ :=
      invert_lockstep (1 / 10 ^ 10) hsq' (by decide)
    obtain ⟨_, hother, hbefore⟩ := (hstops 1).mp hsingular
    obtain ⟨sheet, hrun⟩ := hsingular
    exact ⟨sheet, answers, hrun, (htakes answers).mpr rfl, hbefore 0 Nat.zero_lt_one, hother⟩

end DenseMatrix

end GaussJordan
