import Mathlib.LinearAlgebra.Matrix.NonsingularInverse
import Mathlib.LinearAlgebra.Matrix.Swap
import Mathlib.LinearAlgebra.Matrix.Transvection
import GaussJordan.Proofs.ExactReduction

namespace GaussJordan

namespace DenseMatrix

def grid (rows cols : Nat) (m : DenseMatrix ℚ) : Matrix (Fin rows) (Fin cols) ℚ :=
  Matrix.of fun r c => m.entry r c

@[simp] theorem grid_apply {rows cols : Nat} (m : DenseMatrix ℚ) (r : Fin rows) (c : Fin cols) :
    m.grid rows cols r c = m.entry r c := rfl

/-- One matrix is an invertible matrix times the other. -/
def RowEquivalent (rows cols : Nat) (m n : DenseMatrix ℚ) : Prop :=
  ∃ P : Matrix (Fin rows) (Fin rows) ℚ, IsUnit P ∧ n.grid rows cols = P * m.grid rows cols

variable {rows cols : Nat} {m n k : DenseMatrix ℚ}

namespace RowEquivalent

theorem refl (m : DenseMatrix ℚ) : RowEquivalent rows cols m m :=
  ⟨1, isUnit_one, (Matrix.one_mul _).symm⟩

theorem trans (h : RowEquivalent rows cols m n) (h' : RowEquivalent rows cols n k) :
    RowEquivalent rows cols m k := by
  obtain ⟨P, hP, hn⟩ := h
  obtain ⟨Q, hQ, hk⟩ := h'
  refine ⟨Q * P, hQ.mul hP, ?_⟩
  rw [hk, hn, Matrix.mul_assoc]

theorem symm (h : RowEquivalent rows cols m n) : RowEquivalent rows cols n m := by
  obtain ⟨P, hP, hn⟩ := h
  have hdet : IsUnit P.det := (Matrix.isUnit_iff_isUnit_det P).mp hP
  refine ⟨P⁻¹, Matrix.isUnit_nonsing_inv_iff.mpr hP, ?_⟩
  rw [hn, ← Matrix.mul_assoc, Matrix.nonsing_inv_mul P hdet, Matrix.one_mul]

theorem mulVec_eq_zero (h : RowEquivalent rows cols m n) {x : Fin cols → ℚ}
    (hx : (m.grid rows cols).mulVec x = 0) : (n.grid rows cols).mulVec x = 0 := by
  obtain ⟨P, _, hn⟩ := h
  rw [hn, ← Matrix.mulVec_mulVec, hx, Matrix.mulVec_zero]

end RowEquivalent

theorem rowEquivalent_of_swap {a b : Nat} (ha : a < rows) (hb : b < rows)
    (h : ∀ r c, r < rows → c < cols →
      n.entry r c = m.entry (if r = a then b else if r = b then a else r) c) :
    RowEquivalent rows cols m n := by
  refine ⟨Matrix.swap ℚ ⟨a, ha⟩ ⟨b, hb⟩,
    IsUnit.of_mul_eq_one _ (Matrix.swap_mul_self _ _), ?_⟩
  ext r c
  rw [grid_apply, h r c r.isLt c.isLt]
  by_cases hra : r = ⟨a, ha⟩
  · rw [hra, Matrix.swap_mul_apply_left, grid_apply, if_pos rfl]
  · have hra' : r.val ≠ a := fun heq => hra (Fin.ext heq)
    by_cases hrb : r = ⟨b, hb⟩
    · rw [hrb] at hra' ⊢
      rw [Matrix.swap_mul_apply_right, grid_apply, if_neg hra', if_pos rfl]
    · have hrb' : r.val ≠ b := fun heq => hrb (Fin.ext heq)
      rw [Matrix.swap_mul_of_ne hra hrb, grid_apply, if_neg hra', if_neg hrb']

theorem rowEquivalent_of_scale {target : Nat} {divisor : ℚ} (hd : divisor ≠ 0)
    (h : ∀ r c, r < rows → c < cols →
      n.entry r c = if r = target then m.entry r c / divisor else m.entry r c) :
    RowEquivalent rows cols m n := by
  refine ⟨Matrix.diagonal fun r => if r.val = target then divisor⁻¹ else 1, ?_, ?_⟩
  · rw [Matrix.isUnit_iff_isUnit_det, Matrix.det_diagonal, isUnit_iff_ne_zero]
    apply Finset.prod_ne_zero_iff.mpr
    intro r _
    split
    · exact inv_ne_zero hd
    · exact one_ne_zero
  · ext r c
    rw [Matrix.diagonal_mul, grid_apply, grid_apply, h r c r.isLt c.isLt]
    split
    · exact div_eq_inv_mul _ _
    · exact (one_mul _).symm

theorem rowEquivalent_of_eliminate {target source : Nat} {factor : ℚ} (hs : source < rows)
    (ht : target < rows) (hne : target ≠ source)
    (h : ∀ r c, r < rows → c < cols →
      n.entry r c = if r = target then m.entry r c - factor * m.entry source c else m.entry r c) :
    RowEquivalent rows cols m n := by
  have hne' : (⟨target, ht⟩ : Fin rows) ≠ ⟨source, hs⟩ := fun heq => hne (Fin.mk.inj heq)
  refine ⟨Matrix.transvection ⟨target, ht⟩ ⟨source, hs⟩ (-factor), ?_, ?_⟩
  · rw [Matrix.isUnit_iff_isUnit_det, Matrix.det_transvection_of_ne _ _ hne']
    exact isUnit_one
  · ext r c
    rw [grid_apply, h r c r.isLt c.isLt]
    by_cases hr : r = ⟨target, ht⟩
    · rw [hr, Matrix.transvection_mul_apply_same, grid_apply, grid_apply, if_pos rfl]
      ring
    · have hr' : r.val ≠ target := fun heq => hr (Fin.ext heq)
      rw [Matrix.transvection_mul_apply_of_ne _ _ _ _ hr, grid_apply, if_neg hr']

end DenseMatrix

/-- The operations that can be undone by another one of their kind. -/
def Operation.IsElementary : Operation ℚ → Prop
  | .swap _ _ => True
  | .scale _ factor => factor ≠ 0
  | .eliminate target source _ => target ≠ source
  | .augment => False
  | .assign _ _ _ => False

theorem Operation.IsElementary.rowEquivalent {op : Operation ℚ} {m n : DenseMatrix ℚ}
    (hop : op.IsElementary) (h : op.apply m = .ok n) : n.rows = m.rows ∧ n.cols = m.cols ∧
      DenseMatrix.RowEquivalent m.rows m.cols m n := by
  cases op with
  | augment => exact hop.elim
  | assign row col value => exact hop.elim
  | swap a b =>
    rcases DenseMatrix.swapRows_cases h with ⟨rfl, _⟩ | ⟨ha, hb, hn⟩
    · exact ⟨rfl, rfl, .refl n⟩
    · have hentry := DenseMatrix.rowEquivalent_of_swap ha hb fun r c hr hc =>
        DenseMatrix.entry_of_swapRows h hr hc
      rw [hn] at hentry ⊢
      exact ⟨rfl, rfl, hentry⟩
  | scale target divisor =>
    rcases DenseMatrix.scaleRow_cases h with ⟨rfl, _⟩ | ⟨_, hn⟩
    · exact ⟨rfl, rfl, .refl n⟩
    · have hentry := DenseMatrix.rowEquivalent_of_scale hop fun r c hr hc =>
        DenseMatrix.entry_of_scaleRow h hr hc
      rw [hn] at hentry ⊢
      exact ⟨rfl, rfl, hentry⟩
  | eliminate target source factor =>
    rcases DenseMatrix.subtractScaledRow_cases h with ⟨rfl, _⟩ | ⟨hs, ht, hn⟩
    · exact ⟨rfl, rfl, .refl n⟩
    · have hentry := DenseMatrix.rowEquivalent_of_eliminate hs ht hop fun r c hr hc =>
        DenseMatrix.entry_of_subtractScaledRow h hr hc
      rw [hn] at hentry ⊢
      exact ⟨rfl, rfl, hentry⟩

theorem Worksheet.performAll_rowEquivalent {ops : List (Operation ℚ)} {w w' : Worksheet ℚ}
    (hops : ∀ op ∈ ops, op.IsElementary) (h : w.performAll ops = .ok w') :
    w'.state.rows = w.state.rows ∧ w'.state.cols = w.state.cols ∧
      DenseMatrix.RowEquivalent w.state.rows w.state.cols w.state w'.state := by
  refine performAll_invariant (P := fun v => v.state.rows = w.state.rows ∧
    v.state.cols = w.state.cols ∧
      DenseMatrix.RowEquivalent w.state.rows w.state.cols w.state v.state) ?_
    ⟨rfl, rfl, .refl _⟩ h
  rintro op hop u v ⟨hrows, hcols, hequiv⟩ hperform
  obtain ⟨hrows', hcols', hstep⟩ := (hops op hop).rowEquivalent (perform_ok hperform).1
  rw [hrows] at hrows' hstep
  rw [hcols] at hcols' hstep
  exact ⟨hrows', hcols', hequiv.trans hstep⟩

namespace DenseMatrix

variable {tolerance : ℚ} {m : DenseMatrix ℚ} {row found col : Nat}

theorem pivoting_isElementary (hrow : row < m.rows) (hcol : col < m.cols)
    (hne : m.entry found col ≠ 0) : ∀ op ∈ m.pivoting row found col, op.IsElementary := by
  intro op hop
  rcases mem_pivoting_cases hop with rfl | rfl | ⟨k, _, hother, rfl⟩
  · trivial
  · change (m.exchanged row found).entry row col ≠ 0
    rwa [entry_exchanged hrow hcol, if_pos rfl]
  · exact hother

theorem pivoted_rowEquivalent (hm : m.WellFormed) (hrow : row < m.rows) (hfound : found < m.rows)
    (hcol : col < m.cols) (hne : m.entry found col ≠ 0) :
    RowEquivalent m.rows m.cols m (m.pivoted row found col) := by
  obtain ⟨w, _, hall, hstate⟩ :=
    Worksheet.takePivot_spec (w := reductionSheet m) hm hrow hfound hcol
  change w.state = m.pivoted row found col at hstate
  rw [← hstate]
  exact (Worksheet.performAll_rowEquivalent (pivoting_isElementary hrow hcol hne) hall).2.2

end DenseMatrix

/-- Whatever is taken for zero, a run never leaves the matrices with the same row space. -/
theorem PivotReach.rowEquivalent {tolerance : ℚ} {first w : Worksheet ℚ}
    {answers : List (Nat × Nat)} (ht : 0 ≤ tolerance) (hfirst : first.state.WellFormed)
    (reach : PivotReach tolerance first answers w) :
    DenseMatrix.RowEquivalent first.state.rows first.state.cols first.state w.state := by
  obtain ⟨_, _, _, h⟩ := reach.exact_invariant ht hfirst
    (P := fun _ m _ =>
      DenseMatrix.RowEquivalent first.state.rows first.state.cols first.state m)
    (.refl _)
    (by
      intro answers m ops found col hm hrows hcols _ room hp ih
      have hstep := DenseMatrix.pivoted_rowEquivalent hm room hp.lt_rows hp.lt_cols
        (ne_zero_of_isZero_eq_false ht hp.usable)
      rw [hrows, hcols] at hstep
      exact ih.trans hstep)
  exact h

end GaussJordan
