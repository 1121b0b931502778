import GaussJordan.Proofs.PivotSearch

namespace GaussJordan

namespace DenseMatrix

variable {α : Type} [Scalar α] {tolerance : α} {m : DenseMatrix α} {row lead : Nat}

/-- The search for a pivot as one loop with a cursor for the row, `i`, and one for the column. Past
the last row it starts again at `row`, one column further on; past the last column it ends. -/
def restartingSearch (tolerance : α) (m : DenseMatrix α) (row i lead : Nat) :
    Except Fault (Option (Nat × Nat)) :=
  if lead < m.cols then
    if i < m.rows then do
      let x ← m.cell i lead
      if isZero tolerance x then m.restartingSearch tolerance row (i + 1) lead
      else return some (i, lead)
    else m.restartingSearch tolerance row row (lead + 1)
  else return none
termination_by (m.cols - lead, m.rows - i)

/-- Until it starts again, the loop searches one column. -/
theorem restartingSearch_eq_pivotRow (hlead : lead < m.cols) {i left : Nat}
    (hleft : left = m.rows - i) :
    m.restartingSearch tolerance row i lead = (do
      match ← m.pivotRow tolerance lead i left with
      | some found => return some (found, lead)
      | none => m.restartingSearch tolerance row row (lead + 1)) := by
  induction left generalizing i with
  | zero =>
    rw [restartingSearch, if_pos hlead, if_neg (by omega)]
    rfl
  | succ left ih =>
    rw [restartingSearch, if_pos hlead, if_pos (by omega), pivotRow]
    cases m.cell i lead with
    | error fault => rfl
    | ok x =>
      cases hzero : isZero tolerance x with
      | true => simpa [bind_ok, hzero] using ih (by omega)
      | false => simp [bind_ok, hzero]

/-- The columns are searched one after the other. -/
theorem restartingSearch_eq_pivotFrom {left : Nat} (hleft : left = m.cols - lead) :
    m.restartingSearch tolerance row row lead = m.pivotFrom tolerance row lead left := by
  induction left generalizing lead with
  | zero =>
    rw [restartingSearch, if_neg (by omega)]
    rfl
  | succ left ih =>
    rw [restartingSearch_eq_pivotRow (by omega) rfl, ih (by omega)]
    rfl

/-- The pivot is the first cell that does not count as zero when the columns are read one after the
other and each from top to bottom, there is none if every cell counts as zero, and the loop that
starts again in each column comes to the same. -/
theorem findPivot_columnwise (tolerance : α) (hm : m.WellFormed) (row lead : Nat) :
    (∃ answer, m.findPivot tolerance row lead = .ok answer) ∧
    (∀ found col, m.findPivot tolerance row lead = .ok (some (found, col)) ↔
      m.FirstPivot tolerance row lead found col) ∧
    (m.findPivot tolerance row lead = .ok none ↔ m.NoPivot tolerance row lead) ∧
    m.restartingSearch tolerance row row lead = m.findPivot tolerance row lead := by
  refine ⟨?_, fun found col => findPivot_eq_some_iff hm, findPivot_eq_none_iff hm,
    restartingSearch_eq_pivotFrom rfl⟩
  rcases findPivot_spec tolerance hm row lead with ⟨hnone, _⟩ | ⟨found, col, hsome, _⟩
  · exact ⟨_, hnone⟩
  · exact ⟨_, hsome⟩

/-- The least cell is negligible unless the tolerance is no number, and below the last row there is
no cell. -/
theorem findPivot_columnwise_negligible :
    (⟨3, 3, #[0, 0, 1, 0, 1e-12, 0, 0, 3, 0]⟩ : DenseMatrix Float).WellFormed ∧
    (⟨3, 3, #[0, 0, 1, 0, 1e-12, 0, 0, 3, 0]⟩ : DenseMatrix Float).FirstPivot 1e-10 0 0 2 1 ∧
    (⟨3, 3, #[0, 0, 1, 0, 1e-12, 0, 0, 3, 0]⟩ : DenseMatrix Float).FirstPivot (0.0 / 0.0)
      1 1 1 1 ∧
    (⟨3, 3, #[0, 0, 1, 0, 1e-12, 0, 0, 3, 0]⟩ : DenseMatrix Float).NoPivot 1e-10 3 0 ∧
    (⟨3, 3, #[0, 0, 1, 0, 1e-12, 0, 0, 3, 0]⟩ : DenseMatrix Float).restartingSearch 1e-10 1 1 2 =
      .ok none := by
  have hm : (⟨3, 3, #[0, 0, 1, 0, 1e-12, 0, 0, 3, 0]⟩ : DenseMatrix Float).WellFormed := rfl
  obtain ⟨_, hfirst, _⟩ := findPivot_columnwise 1e-10 hm 0 0
  obtain ⟨_, hunordered, _⟩ := findPivot_columnwise (0.0 / 0.0) hm 1 1
  obtain ⟨_, _, hbelow, _⟩ := findPivot_columnwise 1e-10 hm 3 0
  obtain ⟨_, _, _, hrestarting⟩ := findPivot_columnwise 1e-10 hm 1 2
  have hfound : (⟨3, 3, #[0, 0, 1, 0, 1e-12, 0, 0, 3, 0]⟩ : DenseMatrix Float).findPivot 1e-10 0 0 =
      .ok (some (2, 1)) := rfl
  exact ⟨hm, (hfirst 2 1).mp hfound, (hunordered 1 1).mp rfl, hbelow.mp rfl, hrestarting.trans rfl⟩

end DenseMatrix

end GaussJordan
