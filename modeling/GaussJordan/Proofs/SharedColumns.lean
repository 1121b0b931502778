import GaussJordan.Proofs.ReductionRun

namespace GaussJordan

variable {α : Type} [Scalar α] {tolerance : α}

namespace DenseMatrix

/-- Matrices of one height whose first columns are the same. -/
structure AgreesUpTo (count : Nat) (m n : DenseMatrix α) : Prop where
  rows_eq : n.rows = m.rows
  le_cols : count ≤ m.cols
  le_cols' : count ≤ n.cols
  entry_eq : ∀ r c, r < m.rows → c < count → n.entry r c = m.entry r c

variable {m n : DenseMatrix α} {count row lead found col : Nat}

theorem AgreesUpTo.refl (h : count ≤ m.cols) : m.AgreesUpTo count m :=
  ⟨rfl, h, h, fun _ _ _ _ => rfl⟩

/-- The search does not look at columns right of the pivot. -/
theorem AgreesUpTo.firstPivot (h : m.AgreesUpTo count n)
    (hp : m.FirstPivot tolerance row lead found col) (hcol : col < count) :
    n.FirstPivot tolerance row lead found col where
  row_le := hp.row_le
  lt_rows := by
    rw [h.rows_eq]
    exact hp.lt_rows
  lead_le := hp.lead_le
  lt_cols := Nat.lt_of_lt_of_le hcol h.le_cols'
  usable := by
    rw [h.entry_eq found col hp.lt_rows hcol]
    exact hp.usable
  above i hi hlt := by
    rw [h.entry_eq i col (Nat.lt_trans hlt hp.lt_rows) hcol]
    exact hp.above i hi hlt
  skipped i c hi hr hc hlt := by
    rw [h.rows_eq] at hr
    rw [h.entry_eq i c hr (Nat.lt_trans hlt hcol)]
    exact hp.skipped i c hi hr hc hlt

theorem AgreesUpTo.exchanged (h : m.AgreesUpTo count n) (hrow : row < m.rows)
    (hfound : found < m.rows) : (m.exchanged row found).AgreesUpTo count (n.exchanged row found) where
  rows_eq := h.rows_eq
  le_cols := h.le_cols
  le_cols' := h.le_cols'
  entry_eq r c hr hc := by
    have hcm := Nat.lt_of_lt_of_le hc h.le_cols
    have hcn := Nat.lt_of_lt_of_le hc h.le_cols'
    rw [exchanged_rows] at hr
    rw [entry_exchanged hr hcm, entry_exchanged (by rwa [h.rows_eq]) hcn]
    apply h.entry_eq _ _ _ hc
    split
    · exact hfound
    · split
      · exact hrow
      · exact hr

/-- All factors are cells of the pivot column. -/
theorem AgreesUpTo.pivoting_eq (h : m.AgreesUpTo count n) (hrow : row < m.rows)
    (hfound : found < m.rows) (hcol : col < count) :
    n.pivoting row found col = m.pivoting row found col := by
  have hexchanged := h.exchanged hrow hfound
  have hfactors : ∀ k ∈ otherRows m.rows row, (n.exchanged row found).entry k col =
      (m.exchanged row found).entry k col := fun k hk =>
    hexchanged.entry_eq k col (mem_otherRows.mp hk).1 hcol
  rw [pivoting, pivoting, clearing, clearing, hexchanged.entry_eq row col hrow hcol,
    exchanged_rows, exchanged_rows, h.rows_eq]
  congr 2
  exact List.map_congr_left fun k hk => congrArg _ (hfactors k hk)

theorem AgreesUpTo.pivoted (h : m.AgreesUpTo count n) (hrow : row < m.rows)
    (hfound : found < m.rows) (hcol : col < count) :
    (m.pivoted row found col).AgreesUpTo count (n.pivoted row found col) where
  rows_eq := h.rows_eq
  le_cols := h.le_cols
  le_cols' := h.le_cols'
  entry_eq r c hr hc := by
    have hcm := Nat.lt_of_lt_of_le hc h.le_cols
    have hcn := Nat.lt_of_lt_of_le hc h.le_cols'
    have hsource : (if r = found then row else r) < m.rows := by
      split
      · exact hrow
      · exact hr
    rw [pivoted_rows] at hr
    rw [entry_pivoted hr hcm hrow (Nat.lt_of_lt_of_le hcol h.le_cols),
      entry_pivoted (by rwa [h.rows_eq]) hcn (by rwa [h.rows_eq])
        (Nat.lt_of_lt_of_le hcol h.le_cols'),
      h.entry_eq found c hfound hc, h.entry_eq found col hfound hcol, h.entry_eq _ c hsource hc,
      h.entry_eq _ col hsource hcol]

end DenseMatrix

/-- A run that stays in the first columns performs the same operations on every matrix with these
columns. -/
theorem PivotReach.transfer {first w : Worksheet α} {answers : List (Nat × Nat)} {count : Nat}
    (other : Worksheet α) (hfirst : first.state.WellFormed) (hother : other.state.WellFormed)
    (h : first.state.AgreesUpTo count other.state) (reach : PivotReach tolerance first answers w)
    (hwithin : ∀ answer ∈ answers, answer.2 < count) :
    ∃ v ops, PivotReach tolerance other answers v ∧ w.state.AgreesUpTo count v.state ∧
      first.performAll ops = .ok w ∧ other.performAll ops = .ok v := by
  induction reach with
  | start => exact ⟨other, [], .start, h, rfl, rfl⟩
  | @next answers w w' found col previous room answer taken ih =>
    obtain ⟨v, ops, hreach, hagree, hall, hall'⟩ :=
      ih fun a ha => hwithin a (List.mem_append_left _ ha)
    have hcol : col < count := hwithin (found, col) (by simp)
    have hw := (previous.shape hfirst).1
    have hv := (hreach.shape hother).1
    have hp := (DenseMatrix.findPivot_eq_some_iff hw).mp answer
    have hp' := hagree.firstPivot hp hcol
    have room' : answers.length < v.state.rows := by rwa [hagree.rows_eq]
    obtain ⟨u, hu, hsteps, hstate⟩ := Worksheet.takePivot_spec hw room hp.lt_rows hp.lt_cols
    obtain ⟨v', hv', hsteps', hstate'⟩ := Worksheet.takePivot_spec hv room' hp'.lt_rows hp'.lt_cols
    rw [taken] at hu
    cases hu
    rw [hagree.pivoting_eq room hp.lt_rows hcol] at hsteps'
    refine ⟨v', _, hreach.next room' ((DenseMatrix.findPivot_eq_some_iff hv).mpr hp') hv', ?_,
      Worksheet.performAll_append_ok hall hsteps, Worksheet.performAll_append_ok hall' hsteps'⟩
    rw [hstate, hstate']
    exact hagree.pivoted room hp.lt_rows hcol

end GaussJordan
