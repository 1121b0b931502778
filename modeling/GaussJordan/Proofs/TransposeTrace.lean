import GaussJordan.Proofs.CopiedCells
import GaussJordan.Proofs.TraceShapes

namespace GaussJordan

namespace DenseMatrix

/-- The places of a shape, counted in row-major order. -/
theorem places_eq_map_range (rows cols : Nat) :
    places rows cols = (List.range (rows * cols)).map fun k => (k / cols, k % cols) := by
  induction rows with
  | zero => simp [places]
  | succ rows ih =>
    have hrow : ∀ j ∈ List.range cols, (rows, j) =
        ((rows * cols + j) / cols, (rows * cols + j) % cols) := by
      intro j hj
      have hlt := List.mem_range.mp hj
      rw [Nat.mul_comm, Nat.mul_add_div (by omega), Nat.div_eq_of_lt hlt, Nat.add_zero,
        Nat.mul_add_mod, Nat.mod_eq_of_lt hlt]
    rw [places, List.range_succ, List.flatMap_append, List.flatMap_singleton, ← places, ih,
      Nat.succ_mul, List.range_add, List.map_append, List.map_map, List.map_congr_left hrow]
    rfl

variable {α : Type} [Scalar α] {m : DenseMatrix α}

theorem transpose_transpose (hm : m.WellFormed) : m.transpose.transpose = m := by
  refine (eq_generate hm fun r c hr hc => ?_).symm
  exact (entry_generate (fun i j => m.entry j i) hc hr).symm

/-- What the transpose is written over, when the first so many of its cells in row-major order have
been written. -/
def copiedUpTo (m : DenseMatrix α) (count : Nat) : DenseMatrix α :=
  ⟨m.cols, m.rows, Array.ofFn fun p : Fin (m.cols * m.rows) =>
    if p < count then m.entry (p % m.rows) (p / m.rows) else 0⟩

theorem copiedUpTo_hasShape (m : DenseMatrix α) (count : Nat) :
    (m.copiedUpTo count).HasShape m.cols m.rows :=
  ⟨by simp [WellFormed, copiedUpTo], rfl, rfl⟩

theorem copiedUpTo_zero (m : DenseMatrix α) : m.copiedUpTo 0 = zeros m.cols m.rows := by
  simp [copiedUpTo, zeros, generate]

theorem copiedUpTo_all (m : DenseMatrix α) : m.copiedUpTo (m.cols * m.rows) = m.transpose := by
  simp [copiedUpTo, transpose, generate]

theorem getElem?_copiedUpTo (count : Nat) {p : Nat} (hp : p < m.cols * m.rows) :
    (m.copiedUpTo count).cells[p]? = if p < count then m.transpose.cells[p]? else some 0 := by
  simp only [copiedUpTo, transpose, generate, Array.getElem?_ofFn, dif_pos hp]
  split <;> rfl

theorem written_copiedUpTo (k : Nat) :
    (m.copiedUpTo k).written (k / m.rows) (k % m.rows) (m.entry (k % m.rows) (k / m.rows)) =
      m.copiedUpTo (k + 1) := by
  have hcells : ((m.copiedUpTo k).written (k / m.rows) (k % m.rows)
      (m.entry (k % m.rows) (k / m.rows))).cells =
      (m.copiedUpTo k).cells.setIfInBounds k (m.entry (k % m.rows) (k / m.rows)) :=
    congrArg (fun index => (m.copiedUpTo k).cells.setIfInBounds index _) (Nat.div_add_mod' k m.rows)
  refine ext_cells rfl rfl (hcells.trans (Array.ext (by simp [copiedUpTo]) fun p hp hp' => ?_))
  rw [Array.getElem_setIfInBounds (by simpa using hp)]
  simp only [copiedUpTo, Array.getElem_ofFn]
  split
  next heq => rw [← heq, if_pos (Nat.lt_succ_self k)]
  next hne =>
    congr 1
    exact propext (by omega)

/-- The step that writes the cell at a place counted in row-major order. -/
def copyStep (m : DenseMatrix α) (k : Nat) : Step α :=
  let op := m.copy (k / m.rows, k % m.rows)
  ⟨op, m.copiedUpTo (k + 1), op.describe .transposition⟩

end DenseMatrix

namespace Worksheet

variable {α : Type} [Scalar α] {m : DenseMatrix α} {w w' : Worksheet α}

theorem steps_of_copying {start left : Nat} (hroom : start + left ≤ m.cols * m.rows)
    (hstate : w.state = m.copiedUpTo start) (hstyle : w.log.style = .transposition)
    (h : w.performAll ((List.range' start left).map fun k => m.copy (k / m.rows, k % m.rows)) =
      .ok w') : w'.state = m.copiedUpTo (start + left) ∧
      w'.log.steps.toList = w.log.steps.toList ++ (List.range' start left).map m.copyStep := by
  induction left generalizing start w with
  | zero =>
    cases h
    simp [hstate]
  | succ left ih =>
    rw [List.range'_succ, List.map_cons] at h
    obtain ⟨v, hv, hrest⟩ := performAll_cons_ok h
    have hlt : start < m.cols * m.rows := by omega
    have hrows : 0 < m.rows := Nat.pos_of_lt_mul_left hlt
    have hwritten : v.state = m.copiedUpTo (start + 1) := by
      have happly := (perform_ok hv).1
      rw [hstate] at happly
      rw [← DenseMatrix.written_copiedUpTo]
      exact Except.ok.inj (happly.symm.trans (DenseMatrix.setCell_eq_written
        (m.copiedUpTo_hasShape start).wellFormed ((Nat.div_lt_iff_lt_mul hrows).mpr hlt)
        (Nat.mod_lt start hrows) _))
    obtain ⟨hstyle', hsteps⟩ := steps_of_perform hv
    obtain ⟨hlast, hmore⟩ := ih (by omega) hwritten (hstyle'.trans hstyle) hrest
    refine ⟨by rw [hlast, Nat.add_right_comm, Nat.add_assoc], ?_⟩
    rw [hmore, hsteps, hwritten, hstyle, List.append_assoc, List.range'_succ, List.map_cons]
    rfl

end Worksheet

namespace DenseMatrix

variable {α : Type} [Scalar α] {m : DenseMatrix α}

/-- Writing the transpose is recorded cell by cell. -/
theorem steps_of_transposeBySteps (hm : m.WellFormed) : ∃ w, m.transposeBySteps = .ok w ∧
    w.state = m.transpose ∧
    w.log.steps.toList = (List.range (m.rows * m.cols)).map m.copyStep := by
  obtain ⟨w, hrun, hall⟩ := transposeBySteps_spec hm
  rw [copying, places_eq_map_range, List.map_map, List.range_eq_range'] at hall
  obtain ⟨hstate, hsteps⟩ := Worksheet.steps_of_copying (w := m.transpositionSheet)
    (Nat.le_of_eq (Nat.zero_add _)) m.copiedUpTo_zero.symm rfl hall
  rw [Nat.zero_add, copiedUpTo_all] at hstate
  refine ⟨w, hrun, hstate, ?_⟩
  rw [hsteps, Nat.mul_comm, List.range_eq_range']
  rfl

/-- The transpose is written cell by cell, each cell once and in row-major order, over zeros, and
the transpose of the transpose is the matrix that was given. -/
theorem transposeBySteps_exact (hm : m.WellFormed) :
    ∃ w, m.transposeBySteps = .ok w ∧ w.state = m.transpose ∧ w.state.HasShape m.cols m.rows ∧
      (∀ i j, i < m.cols → j < m.rows → w.state.entry i j = m.entry j i) ∧
      w.log.size = m.rows * m.cols ∧
      (∀ (k : Nat) step, w.log.steps[k]? = some step →
        step.operation = .assign (k / m.rows) (k % m.rows) (m.entry (k % m.rows) (k / m.rows)) ∧
        step.snapshot.HasShape m.cols m.rows ∧
        ∀ p, p < m.rows * m.cols → step.snapshot.cells[p]? =
          if p ≤ k then m.transpose.cells[p]? else some 0) ∧
      ∃ back, w.state.transposeBySteps = .ok back ∧ back.state = m := by
  obtain ⟨w, hrun, hstate, hsteps⟩ := steps_of_transposeBySteps hm
  have hshape : m.transpose.HasShape m.cols m.rows := ⟨generate_wellFormed _ _ _, rfl, rfl⟩
  obtain ⟨back, hback, hgiven, _⟩ := steps_of_transposeBySteps hshape.wellFormed
  refine ⟨w, hrun, hstate, hstate ▸ hshape, fun i j hi hj => ?_, ?_, fun k step hk => ?_,
    back, hstate ▸ hback, hgiven.trans (transpose_transpose hm)⟩
  · rw [hstate]
    exact entry_generate (fun r c => m.entry c r) hi hj
  · rw [TraceLog.size, ← Array.length_toList, hsteps, List.length_map, List.length_range]
  · rw [← Array.getElem?_toList, hsteps, List.getElem?_map] at hk
    obtain ⟨k', hk', rfl⟩ := Option.map_eq_some_iff.mp hk
    obtain ⟨_, rfl⟩ : k < m.rows * m.cols ∧ k = k' := by
      simpa [List.getElem?_eq_some_iff] using hk'
    refine ⟨rfl, m.copiedUpTo_hasShape _, fun p hp => ?_⟩
    rw [copyStep, getElem?_copiedUpTo _ (by rwa [Nat.mul_comm])]
    simp only [Nat.lt_succ_iff]

/-- Negative zero is copied as it is; what has not been written yet is positive zero. -/
theorem transposeBySteps_exact_special :
    (⟨2, 3, #[0.0 / 0.0, -0.0, 1, 2, 1.0 / 0.0, 3]⟩ : DenseMatrix Float).WellFormed ∧
    ∃ w back,
      (⟨2, 3, #[0.0 / 0.0, -0.0, 1, 2, 1.0 / 0.0, 3]⟩ : DenseMatrix Float).transposeBySteps = .ok w ∧
      w.state = ⟨3, 2, #[0.0 / 0.0, 2, -0.0, 1.0 / 0.0, 1, 3]⟩ ∧ w.log.size = 6 ∧
      (∀ step, w.log.steps[2]? = some step → step.operation = .assign 1 0 (-0.0) ∧
        step.snapshot.cells[1]? = some 2 ∧ step.snapshot.cells[3]? = some 0.0) ∧
      w.state.transposeBySteps = .ok back ∧
      back.state = ⟨2, 3, #[0.0 / 0.0, -0.0, 1, 2, 1.0 / 0.0, 3]⟩ := by
  have hm : (⟨2, 3, #[0.0 / 0.0, -0.0, 1, 2, 1.0 / 0.0, 3]⟩ : DenseMatrix Float).WellFormed := rfl
  obtain ⟨w, hrun, hstate, _, _, hsize, hsteps, back, hback, hgiven⟩ := transposeBySteps_exact hm
  refine ⟨hm, w, back, hrun, hstate, hsize, fun step hstep => ?_, hback, hgiven⟩
  obtain ⟨hoperation, _, hcells⟩ := hsteps 2 step hstep
  exact ⟨hoperation, hcells 1 (by decide), hcells 3 (by decide)⟩

end DenseMatrix

end GaussJordan
