import GaussJordan.Inversion
import GaussJordan.Proofs.ReductionRun

namespace GaussJordan

namespace Inversion

variable {α : Type} {result : Except Fault (Inversion α)}

/-- The index of the diagonal cell that stopped an inversion. -/
def stoppedAt : Inversion α → Option Nat
  | .computed _ _ => none
  | .singular step _ => some step

theorem exists_computed_iff : (∃ inverse sheet, result = .ok (.computed inverse sheet)) ↔
    result.toOption.map stoppedAt = some none := by
  rcases result with fault | ⟨inverse, sheet⟩ | ⟨step, sheet⟩ <;>
    simp [Except.toOption, stoppedAt]

theorem exists_singular_iff {i : Nat} : (∃ sheet, result = .ok (.singular i sheet)) ↔
    result.toOption.map stoppedAt = some (some i) := by
  rcases result with fault | ⟨inverse, sheet⟩ | ⟨step, sheet⟩ <;>
    simp [Except.toOption, stoppedAt]

instance : Decidable (∃ inverse sheet, result = .ok (.computed inverse sheet)) :=
  decidable_of_iff _ exists_computed_iff.symm

instance {i : Nat} : Decidable (∃ sheet, result = .ok (.singular i sheet)) :=
  decidable_of_iff _ exists_singular_iff.symm

end Inversion

variable {α : Type} [Scalar α] {tolerance : α}

/-- The answers of a pivot search that only ever finds the next cell of the diagonal. -/
def diagonal (count : Nat) : List (Nat × Nat) := (List.range count).map fun i => (i, i)

@[simp] theorem length_diagonal (count : Nat) : (diagonal count).length = count := by
  simp [diagonal]

theorem diagonal_succ (count : Nat) : diagonal (count + 1) = diagonal count ++ [(count, count)] := by
  simp [diagonal, List.range_succ]

@[simp] theorem nextLead_diagonal (count : Nat) : nextLead (diagonal count) = count := by
  cases count with
  | zero => rfl
  | succ count => rw [diagonal_succ, nextLead_append]

theorem DenseMatrix.firstPivot_diagonal {m : DenseMatrix α} {i : Nat} (hr : i < m.rows)
    (hc : i < m.cols) (hz : isZero tolerance (m.entry i i) = false) :
    m.FirstPivot tolerance i i i i :=
  ⟨Nat.le_refl i, hr, Nat.le_refl i, hc, hz, fun _ _ _ => by omega, fun _ _ _ _ _ _ => by omega⟩

/-- Clearing the diagonal is a run in which the pivot search finds the diagonal cells, up to one
that counts as zero. -/
theorem PivotReach.clearDiagonal {first w : Worksheet α} {i left : Nat}
    (hfirst : first.state.WellFormed) (reach : PivotReach tolerance first (diagonal i) w)
    (hr : i + left ≤ w.state.rows) (hc : i + left ≤ w.state.cols) :
    (∃ w', w.clearDiagonal tolerance i left = .ok (none, w') ∧
      PivotReach tolerance first (diagonal (i + left)) w') ∨
    ∃ j w', w.clearDiagonal tolerance i left =
        .ok (some j, w'.announce (.zeroPivot j (w'.state.entry j j))) ∧ j < i + left ∧
      PivotReach tolerance first (diagonal j) w' ∧
      isZero tolerance (w'.state.entry j j) = true := by
  induction left generalizing i w with
  | zero => exact .inl ⟨w, rfl, reach⟩
  | succ left ih =>
    have hw := (reach.shape hfirst).1
    have hir : i < w.state.rows := by omega
    have hic : i < w.state.cols := by omega
    have hcell := DenseMatrix.cell_eq_entry hw hir hic
    cases hz : isZero tolerance (w.state.entry i i) with
    | true =>
      refine .inr ⟨i, w, ?_, by omega, reach, hz⟩
      simp only [Worksheet.clearDiagonal, hcell, bind_ok, hz]
      rfl
    | false =>
      obtain ⟨v, hv, _, hstate⟩ := Worksheet.clearColumn_spec hw hir hic
      have hnext : w.clearDiagonal tolerance i (left + 1) =
          v.clearDiagonal tolerance (i + 1) left := by
        simp [Worksheet.clearDiagonal, hcell, hz, hv]
      have hanswer : w.state.findPivot tolerance (diagonal i).length (nextLead (diagonal i)) =
          .ok (some (i, i)) := by
        rw [length_diagonal, nextLead_diagonal]
        exact (DenseMatrix.findPivot_eq_some_iff hw).mpr
          (DenseMatrix.firstPivot_diagonal hir hic hz)
      have htake : w.takePivot (diagonal i).length i i = .ok v := by
        simpa [Worksheet.takePivot] using hv
      have hreach := reach.next (by rwa [length_diagonal]) hanswer htake
      rw [← diagonal_succ] at hreach
      have hrows : v.state.rows = w.state.rows := by rw [hstate, DenseMatrix.cleared_rows]
      have hcols : v.state.cols = w.state.cols := by rw [hstate, DenseMatrix.cleared_cols]
      have hi : i + 1 + left = i + (left + 1) := by omega
      rw [hnext, ← hi]
      exact ih hreach (by omega) (by omega)

/-- The matrix beside an identity block, with that recorded. -/
def inversionSheet (m : DenseMatrix α) : Worksheet α :=
  let w := Worksheet.start .inversion m
  let event := .step .inversion .augment ((Operation.augment : Operation α).describe .inversion)
  ({ state := m.augmentIdentity
     log := w.log.record .augment m.augmentIdentity
     journal := w.journal.push event } : Worksheet α).announce (.inverting m.rows)

namespace DenseMatrix

variable {m : DenseMatrix α}

theorem augmentIdentity_wellFormed : m.augmentIdentity.WellFormed := generate_wellFormed _ _ _

theorem inversion_shape {answers : List (Nat × Nat)} {w : Worksheet α}
    (reach : PivotReach tolerance (inversionSheet m) answers w) :
    w.state.WellFormed ∧ w.state.rows = m.rows ∧ w.state.cols = m.cols + m.rows :=
  reach.shape augmentIdentity_wellFormed

theorem columns_of_le {first last : Nat} (hc : 0 < m.cols) (hfirst : first ≤ last)
    (hlast : last ≤ m.cols) : m.columns first last =
      .ok (generate m.rows (last - first) fun r c => m.entry r (first + c)) := by
  rw [columns, if_neg (by omega), if_neg (by omega)]

/-- After an inversion, the right half is what the identity has become. -/
theorem columns_right_half (hsq : m.IsSquare) (hn : 0 < m.rows) {w : Worksheet α}
    (hrows : w.state.rows = m.rows) (hcols : w.state.cols = m.cols + m.rows) :
    w.state.columns m.rows (2 * m.rows) =
      .ok (generate m.rows m.rows fun r c => w.state.entry r (m.rows + c)) := by
  have hsize : m.rows = m.cols := hsq
  rw [columns_of_le (by omega) (by omega) (by omega), hrows, Nat.two_mul, Nat.add_sub_cancel]

theorem invert_of_cleared (hsq : m.IsSquare) (hn : 0 < m.rows) {w : Worksheet α}
    (h : (inversionSheet m).clearDiagonal tolerance 0 m.rows = .ok (none, w))
    (hrows : w.state.rows = m.rows) (hcols : w.state.cols = m.cols + m.rows) :
    m.invert tolerance = .ok (.computed
      (generate m.rows m.rows fun r c => w.state.entry r (m.rows + c))
      (w.announce (.inverted m.rows w.log.size))) := by
  rw [invert, if_neg (fun h => h hsq)]
  change (inversionSheet m).clearDiagonal tolerance 0 m.rows >>= _ = _
  rw [h, bind_ok]
  change w.state.columns m.rows (2 * m.rows) >>= _ = _
  rw [columns_right_half hsq hn hrows hcols, bind_ok]
  rfl

theorem invert_of_stopped (hsq : m.IsSquare) {i : Nat} {w : Worksheet α}
    (h : (inversionSheet m).clearDiagonal tolerance 0 m.rows = .ok (some i, w)) :
    m.invert tolerance = .ok (.singular i w) := by
  rw [invert, if_neg (fun h => h hsq)]
  change (inversionSheet m).clearDiagonal tolerance 0 m.rows >>= _ = _
  rw [h, bind_ok]
  rfl

/-- An inversion either takes all pivots on the diagonal and returns the right half, or stops at
the first diagonal cell that counts as zero. -/
theorem invert_reach (tolerance : α) (hsq : m.IsSquare) (hn : 0 < m.rows) :
    (∃ w, PivotReach tolerance (inversionSheet m) (diagonal m.rows) w ∧
      m.invert tolerance = .ok (.computed
        (generate m.rows m.rows fun r c => w.state.entry r (m.rows + c))
        (w.announce (.inverted m.rows w.log.size)))) ∨
    ∃ i w, i < m.rows ∧ PivotReach tolerance (inversionSheet m) (diagonal i) w ∧
      isZero tolerance (w.state.entry i i) = true ∧
      m.invert tolerance = .ok (.singular i (w.announce (.zeroPivot i (w.state.entry i i)))) := by
  have hstart : PivotReach tolerance (inversionSheet m) (diagonal 0) (inversionSheet m) := .start
  have hwidth : 0 + m.rows ≤ (inversionSheet m).state.cols := by
    change 0 + m.rows ≤ m.cols + m.rows
    omega
  rcases hstart.clearDiagonal augmentIdentity_wellFormed (Nat.le_of_eq (Nat.zero_add m.rows))
    hwidth with ⟨w, hclear, reach⟩ | ⟨i, w, hclear, hi, reach, hz⟩
  · rw [Nat.zero_add] at reach
    obtain ⟨_, hrows, hcols⟩ := inversion_shape reach
    exact .inl ⟨w, reach, invert_of_cleared hsq hn hclear hrows hcols⟩
  · exact .inr ⟨i, w, by omega, reach, hz, invert_of_stopped hsq hclear⟩

/-- An inversion that returns an inverse has taken all pivots on the diagonal. -/
theorem reach_of_invert_computed {inverse : DenseMatrix α} {sheet : Worksheet α}
    (hsq : m.IsSquare) (hn : 0 < m.rows)
    (h : m.invert tolerance = .ok (.computed inverse sheet)) :
    ∃ w, PivotReach tolerance (inversionSheet m) (diagonal m.rows) w ∧
      inverse = generate m.rows m.rows (fun r c => w.state.entry r (m.rows + c)) ∧
      sheet = w.announce (.inverted m.rows w.log.size) := by
  rcases invert_reach tolerance hsq hn with ⟨w, reach, hrun⟩ | ⟨_, _, _, _, _, hrun⟩
  · rw [hrun] at h
    cases h
    exact ⟨w, reach, rfl, rfl⟩
  · rw [hrun] at h
    cases h

/-- What stops an inversion, if it is known for the way the inversion has ended, tells how every
inversion ends: at the first index with that property, or with an inverse. -/
theorem invert_ends_iff (stops : Nat → Prop)
    (h : ((∃ inverse sheet, m.invert tolerance = .ok (.computed inverse sheet)) ∧
        ∀ i, i < m.rows → ¬stops i) ∨
      ∃ i, (∃ sheet, m.invert tolerance = .ok (.singular i sheet)) ∧ i < m.rows ∧ stops i ∧
        ∀ j, j < i → ¬stops j) :
    ((∃ inverse sheet, m.invert tolerance = .ok (.computed inverse sheet)) ↔
      ∀ i, i < m.rows → ¬stops i) ∧
    ∀ i, (∃ sheet, m.invert tolerance = .ok (.singular i sheet)) ↔
      i < m.rows ∧ stops i ∧ ∀ j, j < i → ¬stops j := by
  rcases h with ⟨⟨inverse, sheet, hrun⟩, hnone⟩ | ⟨k, ⟨sheet, hrun⟩, hk, hstop, hbefore⟩
  · refine ⟨iff_of_true ⟨inverse, sheet, hrun⟩ hnone, fun i => iff_of_false ?_ ?_⟩
    · rintro ⟨_, hsingular⟩
      rw [hrun] at hsingular
      cases hsingular
    · exact fun hfirst => hnone i hfirst.1 hfirst.2.1
  · refine ⟨iff_of_false ?_ fun hnone => hnone k hk hstop, fun i => ⟨?_, ?_⟩⟩
    · rintro ⟨_, _, hcomputed⟩
      rw [hrun] at hcomputed
      cases hcomputed
    · rintro ⟨_, hsingular⟩
      rw [hrun] at hsingular
      cases hsingular
      exact ⟨hk, hstop, hbefore⟩
    · rintro ⟨_, hstop', hbefore'⟩
      have hki : k = i := by
        rcases Nat.lt_trichotomy k i with hlt | heq | hgt
        · exact absurd hstop (hbefore' k hlt)
        · exact heq
        · exact absurd hstop' (hbefore i hgt)
      rw [← hki]
      exact ⟨sheet, hrun⟩

end DenseMatrix

end GaussJordan
