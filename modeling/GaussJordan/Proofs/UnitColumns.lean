import GaussJordan.Proofs.EchelonShape
import GaussJordan.Proofs.ExactArithmetic
import GaussJordan.Proofs.ReductionRun

namespace GaussJordan

theorem lt_length_of_getElem?_eq_some {β : Type} {xs : List β} {i : Nat} {x : β}
    (h : xs[i]? = some x) : i < xs.length :=
  (List.getElem?_eq_some_iff.mp h).1

namespace DenseMatrix

variable {tolerance : ℚ} {m : DenseMatrix ℚ} {pivots : List Nat}

/-- The listed columns, from left to right, are the first unit vectors. -/
structure UnitColumns (m : DenseMatrix ℚ) (pivots : List Nat) : Prop where
  length_le : pivots.length ≤ m.rows
  sorted : pivots.Pairwise (· < ·)
  lt_cols : ∀ c ∈ pivots, c < m.cols
  unit : ∀ i c, pivots[i]? = some c → ∀ r, r < m.rows → m.entry r c = if r = i then 1 else 0

theorem UnitColumns.lt_rows (h : m.UnitColumns pivots) {i q : Nat} (hq : pivots[i]? = some q) :
    i < m.rows := Nat.lt_of_lt_of_le (lt_length_of_getElem?_eq_some hq) h.length_le

theorem UnitColumns.lt_cols_of_get (h : m.UnitColumns pivots) {i q : Nat}
    (hq : pivots[i]? = some q) : q < m.cols := h.lt_cols q (List.mem_of_getElem? hq)

theorem UnitColumns.usable (h : m.UnitColumns pivots) (ht : tolerance < 1) {i q : Nat}
    (hq : pivots[i]? = some q) : isZero tolerance (m.entry i q) = false := by
  rw [h.unit i q hq i (h.lt_rows hq), if_pos rfl, isZero_eq_false_iff, abs_one]
  exact ht

theorem UnitColumns.next_of_append (h : m.UnitColumns pivots) {taken rest : List Nat} {q : Nat}
    (happend : taken ++ q :: rest = pivots) :
    pivots[taken.length]? = some q ∧ ∀ p ∈ taken, p < q := by
  have hsorted := h.sorted
  rw [← happend] at hsorted ⊢
  refine ⟨by simp, fun p hp => ?_⟩
  exact (List.pairwise_append.mp hsorted).2.2 p hp q List.mem_cons_self

/-- A column in which neither exchanged row has anything is not touched by a pivot. -/
theorem entry_pivoted_of_zero {r c row found col : Nat} (hr : r < m.rows) (hc : c < m.cols)
    (hrow : row < m.rows) (hcol : col < m.cols) (hz : m.entry row c = 0)
    (hf : m.entry found c = 0) : (m.pivoted row found col).entry r c = m.entry r c := by
  rw [entry_pivoted hr hc hrow hcol, hf, zero_div, mul_zero, sub_zero]
  split
  next h => rw [h, hz]
  next =>
    split
    next h => rw [h, hz, hf]
    next => rfl

theorem entry_pivoted_pivot {r row found col : Nat} (hr : r < m.rows) (hrow : row < m.rows)
    (hcol : col < m.cols) (hp : m.entry found col ≠ 0) :
    (m.pivoted row found col).entry r col = if r = row then 1 else 0 := by
  rw [entry_pivoted hr hcol hrow hcol, div_self hp, mul_one, sub_self]

theorem UnitColumns.pivoted (h : m.UnitColumns pivots) (room : pivots.length < m.rows)
    {found col : Nat} (hle : pivots.length ≤ found) (hfound : found < m.rows)
    (hcol : col < m.cols) (hnew : ∀ c ∈ pivots, c < col) (hne : m.entry found col ≠ 0) :
    (m.pivoted pivots.length found col).UnitColumns (pivots ++ [col]) := by
  refine ⟨?_, pairwise_lt_concat h.sorted ?_, ?_, ?_⟩
  · rw [List.length_append, List.length_singleton, pivoted_rows]
    omega
  · exact fun last hl => hnew last (List.mem_of_getLast? hl)
  · intro c hc
    rcases List.mem_append.mp hc with hc | hc
    · exact h.lt_cols c hc
    · rw [List.mem_singleton.mp hc]
      exact hcol
  · intro i c hi r hr
    rw [pivoted_rows] at hr
    rcases getElem?_concat_cases hi with hi | ⟨rfl, rfl⟩
    · have hlt := lt_length_of_getElem?_eq_some hi
      have hc := h.lt_cols_of_get hi
      -- the exchanged rows lie below the unit of an earlier pivot column
      have hz : ∀ k, pivots.length ≤ k → k < m.rows → m.entry k c = 0 := by
        intro k hk hkr
        rw [h.unit i c hi k hkr, if_neg (by omega)]
      rw [entry_pivoted_of_zero hr hc room hcol (hz _ (Nat.le_refl _) room)
        (hz found hle hfound)]
      exact h.unit i c hi r hr
    · exact entry_pivoted_pivot hr room hcol hne

/-- Cells to the left of the pivot of their row, and all cells of rows without a pivot, count as
zero. -/
def NoStray (tolerance : ℚ) (m : DenseMatrix ℚ) (pivots : List Nat) : Prop :=
  ∀ r c, r < m.rows → c < m.cols → (∀ q, pivots[r]? = some q → c < q) →
    isZero tolerance (m.entry r c) = true

theorem NoStray.row_isZero (hs : m.NoStray tolerance pivots) {r c : Nat} (hr : r < m.rows)
    (hc : c < m.cols) (hrow : pivots.length ≤ r) : isZero tolerance (m.entry r c) = true := by
  refine hs r c hr hc fun q hq => ?_
  have hlt := lt_length_of_getElem?_eq_some hq
  omega

/-- Right of all pivots, the cells of rows without a pivot count as zero. -/
def ZeroTail (tolerance : ℚ) (m : DenseMatrix ℚ) (pivots : List Nat) : Prop :=
  ∀ r c, r < m.rows → c < m.cols → pivots.length ≤ r → (∀ p ∈ pivots, p < c) →
    isZero tolerance (m.entry r c) = true

theorem NoStray.zeroTail (hs : m.NoStray tolerance pivots) : m.ZeroTail tolerance pivots :=
  fun _ _ hr hc hrow _ => hs.row_isZero hr hc hrow

theorem UnitColumns.echelon (h : m.UnitColumns pivots) (hs : m.NoStray tolerance pivots)
    (ht : 0 ≤ tolerance) (ht' : pivots ≠ [] → tolerance < 1) : m.Echelon tolerance pivots where
  length_le := h.length_le
  sorted := h.sorted
  leadsAt i c hi := by
    have hr := h.lt_rows hi
    have hc := h.lt_cols_of_get hi
    refine ⟨hc, ?_, fun d hd => ?_⟩
    · rw [h.unit i c hi i hr, if_pos rfl, isSignificant_iff, abs_one]
      exact ht' (List.ne_nil_of_mem (List.mem_of_getElem? hi))
    · refine isSignificant_eq_false_iff.mpr (hs i d hr (by omega) fun q hq => ?_)
      rw [hi] at hq
      cases hq
      exact hd
  one i c hi := by
    rw [h.unit i c hi i (h.lt_rows hi), if_pos rfl, isSignificant_eq_false_iff, sub_self]
    exact isZero_zero ht
  alone i c hi r hr hne := by
    rw [h.unit i c hi r hr, if_neg hne, isSignificant_eq_false_iff]
    exact isZero_zero ht
  blank r hle hr c hc := isSignificant_eq_false_iff.mpr (hs.row_isZero hr hc hle)

/-- Without tolerance, reduced row echelon form means unit columns and nothing left of them. -/
theorem Echelon.unitColumns (h : m.Echelon 0 pivots) : m.UnitColumns pivots where
  length_le := h.length_le
  sorted := h.sorted
  lt_cols c hc := by
    obtain ⟨i, hi⟩ := List.getElem?_of_mem hc
    exact (h.leadsAt i c hi).1
  unit i c hi r hr := by
    split
    next heq =>
      have hone := isSignificant_eq_false_iff.mp (h.one i c hi)
      rw [heq]
      exact sub_eq_zero.mp (isZero_zero_iff.mp hone)
    next hne => exact isZero_zero_iff.mp (isSignificant_eq_false_iff.mp (h.alone i c hi r hr hne))

theorem Echelon.noStray (h : m.Echelon tolerance pivots) : m.NoStray tolerance pivots := by
  intro r c hr hc hleft
  rw [← isSignificant_eq_false_iff]
  by_cases hlt : r < pivots.length
  · have hq : pivots[r]? = some pivots[r] := List.getElem?_eq_getElem hlt
    exact (h.leadsAt r _ hq).2.2 c (hleft _ hq)
  · exact h.blank r (by omega) hr c hc

end DenseMatrix

end GaussJordan
