import GaussJordan.Proofs.UnitColumns

namespace GaussJordan

def pivotColumns (answers : List (Nat × Nat)) : List Nat := answers.map Prod.snd

@[simp] theorem pivotColumns_nil : pivotColumns [] = [] := rfl

@[simp] theorem length_pivotColumns (answers : List (Nat × Nat)) :
    (pivotColumns answers).length = answers.length := List.length_map _

@[simp] theorem pivotColumns_append (answers : List (Nat × Nat)) (found col : Nat) :
    pivotColumns (answers ++ [(found, col)]) = pivotColumns answers ++ [col] := by
  simp [pivotColumns]

theorem nextLead_le {answers : List (Nat × Nat)} {c : Nat}
    (h : ∀ p ∈ pivotColumns answers, p < c) : nextLead answers ≤ c := by
  unfold nextLead
  cases hl : answers.getLast? with
  | none => exact Nat.zero_le c
  | some answer => exact h answer.2 (List.mem_map_of_mem (List.mem_of_getLast? hl))

namespace DenseMatrix

variable {tolerance : ℚ} {m : DenseMatrix ℚ} {answers : List (Nat × Nat)}

/-- The matrix after pivots have been taken: their columns are unit columns before the next lead. -/
structure PivotsTaken (m : DenseMatrix ℚ) (answers : List (Nat × Nat)) : Prop
    extends UnitColumns m (pivotColumns answers) where
  lt_lead : ∀ c ∈ pivotColumns answers, c < nextLead answers

theorem pivotsTaken_nil (m : DenseMatrix ℚ) : m.PivotsTaken [] where
  length_le := Nat.zero_le _
  sorted := List.Pairwise.nil
  lt_cols := by simp
  unit := by simp
  lt_lead := by simp

theorem PivotsTaken.pivoted (h : m.PivotsTaken answers) (room : answers.length < m.rows)
    (ht : 0 ≤ tolerance) {found col : Nat}
    (hp : m.FirstPivot tolerance answers.length (nextLead answers) found col) :
    (m.pivoted answers.length found col).PivotsTaken (answers ++ [(found, col)]) := by
  have hnew : ∀ c ∈ pivotColumns answers, c < col := fun c hc =>
    Nat.lt_of_lt_of_le (h.lt_lead c hc) hp.lead_le
  have hlen := length_pivotColumns answers
  have hunit := h.toUnitColumns.pivoted (by rwa [hlen]) (by rw [hlen]; exact hp.row_le)
    hp.lt_rows hp.lt_cols hnew (ne_zero_of_isZero_eq_false ht hp.usable)
  rw [hlen] at hunit
  refine ⟨by rwa [pivotColumns_append], fun c hc => ?_⟩
  rw [nextLead_append]
  rw [pivotColumns_append] at hc
  rcases List.mem_append.mp hc with hc | hc
  · exact Nat.lt_succ_of_lt (hnew c hc)
  · rw [List.mem_singleton.mp hc]
    exact Nat.lt_succ_self col

end DenseMatrix

variable {tolerance : ℚ} {first w : Worksheet ℚ} {answers : List (Nat × Nat)}

namespace PivotReach

/-- In exact arithmetic the pivots taken so far can be used to show what a step keeps. -/
theorem exact_invariant (ht : 0 ≤ tolerance) (hfirst : first.state.WellFormed)
    {P : List (Nat × Nat) → DenseMatrix ℚ → List (Operation ℚ) → Prop}
    (start : P [] first.state [])
    (next : ∀ {answers m ops found col}, m.WellFormed → m.rows = first.state.rows →
      m.cols = first.state.cols → m.PivotsTaken answers → answers.length < m.rows →
      m.FirstPivot tolerance answers.length (nextLead answers) found col → P answers m ops →
      P (answers ++ [(found, col)]) (m.pivoted answers.length found col)
        (ops ++ m.pivoting answers.length found col))
    (reach : PivotReach tolerance first answers w) :
    w.state.PivotsTaken answers ∧
      ∃ ops, first.performAll ops = .ok w ∧ P answers w.state ops := by
  obtain ⟨_, ops, hops, htaken, hP⟩ := reach.invariant hfirst
    (P := fun answers m ops => m.PivotsTaken answers ∧ P answers m ops)
    ⟨DenseMatrix.pivotsTaken_nil _, start⟩
    (fun hm hr hc room hp ⟨htaken, hP⟩ =>
      ⟨htaken.pivoted room ht hp, next hm hr hc htaken room hp hP⟩)
  exact ⟨htaken, ops, hops, hP⟩

theorem pivotsTaken (ht : 0 ≤ tolerance) (hfirst : first.state.WellFormed)
    (reach : PivotReach tolerance first answers w) : w.state.PivotsTaken answers :=
  (reach.exact_invariant ht hfirst (P := fun _ _ _ => True) trivial
    fun _ _ _ _ _ _ _ => trivial).1

theorem zeroTail (hfirst : first.state.WellFormed) (reach : PivotReach tolerance first answers w)
    (hs : Settled tolerance answers w) :
    w.state.ZeroTail tolerance (pivotColumns answers) := by
  intro r c hr hc hle hright
  rw [length_pivotColumns] at hle
  exact (settled_iff (reach.shape hfirst).1).mp hs r c hle hr (nextLead_le hright) hc

end PivotReach

namespace DenseMatrix

variable {m : DenseMatrix ℚ}

/-- Up to a column, cells left of the pivot of their row and cells of rows without a pivot are
zero. -/
def ZeroBefore (lead : Nat) (m : DenseMatrix ℚ) (pivots : List Nat) : Prop :=
  ∀ r c, r < m.rows → c < m.cols → c < lead → (∀ q, pivots[r]? = some q → c < q) →
    m.entry r c = 0

theorem ZeroBefore.pivoted {found col : Nat}
    (h : m.ZeroBefore (nextLead answers) (pivotColumns answers)) (htaken : m.PivotsTaken answers)
    (room : answers.length < m.rows)
    (hp : m.FirstPivot 0 answers.length (nextLead answers) found col) :
    (m.pivoted answers.length found col).ZeroBefore (col + 1) (pivotColumns answers ++ [col]) := by
  intro r c hr hc hlt hleft
  rw [pivoted_rows] at hr
  rw [pivoted_cols] at hc
  have hlen := length_pivotColumns answers
  rcases Nat.eq_or_lt_of_le (Nat.le_of_lt_succ hlt) with rfl | hlt
  · have hne : r ≠ answers.length := by
      rintro rfl
      exact Nat.lt_irrefl c (hleft c (by simp))
    rw [entry_pivoted_pivot hr room hc (ne_zero_of_isZero_eq_false (le_refl 0) hp.usable),
      if_neg hne]
  · -- below the pivots taken so far the column was zero, so the pivot does not touch it
    have hz : ∀ k, answers.length ≤ k → k < m.rows → m.entry k c = 0 := by
      intro k hk hkr
      by_cases hcl : c < nextLead answers
      · refine h k c hkr hc hcl fun q hq => ?_
        have := lt_length_of_getElem?_eq_some hq
        omega
      · exact isZero_zero_iff.mp (hp.skipped k c hk hkr (by omega) hlt)
    rw [entry_pivoted_of_zero hr hc room hp.lt_cols (hz _ (Nat.le_refl _) room)
      (hz found hp.row_le hp.lt_rows)]
    by_cases hrow : answers.length ≤ r
    · exact hz r hrow hr
    · have hrl : r < (pivotColumns answers).length := by omega
      have hget : (pivotColumns answers)[r]? = some (pivotColumns answers)[r] :=
        List.getElem?_eq_getElem hrl
      have hcl := hleft _ (by rw [List.getElem?_append_left hrl, hget])
      have := htaken.lt_lead _ (List.getElem_mem hrl)
      refine h r c hr hc (by omega) fun q hq => ?_
      rw [hget] at hq
      cases hq
      exact hcl

end DenseMatrix

/-- Without tolerance nothing but zeros is left outside the pivot columns and the cells right of
a pivot. -/
theorem PivotReach.noStray (hfirst : first.state.WellFormed)
    (reach : PivotReach 0 first answers w) (hs : Settled 0 answers w) :
    w.state.NoStray 0 (pivotColumns answers) := by
  obtain ⟨htaken, _, _, hz⟩ := reach.exact_invariant (le_refl 0) hfirst
    (P := fun answers m _ => m.ZeroBefore (nextLead answers) (pivotColumns answers))
    (fun r c _ _ hlt _ => absurd hlt (Nat.not_lt_zero c))
    (fun _ _ _ htaken room hp hz => by
      rw [nextLead_append, pivotColumns_append]
      exact hz.pivoted htaken room hp)
  intro r c hr hc hleft
  by_cases hlt : c < nextLead answers
  · rw [hz r c hr hc hlt hleft]
    exact isZero_zero (le_refl 0)
  · refine reach.zeroTail hfirst hs r c hr hc ?_ fun p hp => ?_
    · by_contra hrow
      have hrl : r < (pivotColumns answers).length := Nat.lt_of_not_le hrow
      have := hleft _ (List.getElem?_eq_getElem hrl)
      have := htaken.lt_lead _ (List.getElem_mem hrl)
      omega
    · have := htaken.lt_lead p hp
      omega

end GaussJordan
