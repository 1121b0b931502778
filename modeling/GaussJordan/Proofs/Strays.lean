import GaussJordan.Proofs.Idempotence

namespace GaussJordan

variable {tolerance : ℚ}

namespace DenseMatrix

variable {m : DenseMatrix ℚ}

/-- Taking a pivot makes no two columns equal that were different. -/
theorem column_eq_of_pivoted {row found col c d : Nat} (hrow : row < m.rows)
    (hfound : found < m.rows) (hcol : col < m.cols) (hc : c < m.cols) (hd : d < m.cols)
    (hne : m.entry found col ≠ 0)
    (h : ∀ r, r < m.rows →
      (m.pivoted row found col).entry r c = (m.pivoted row found col).entry r d) :
    ∀ r, r < m.rows → m.entry r c = m.entry r d := by
  have hf : m.entry found c = m.entry found d := by
    have hr := h row hrow
    rw [entry_pivoted hrow hc hrow hcol, entry_pivoted hrow hd hrow hcol, if_pos rfl,
      if_pos rfl] at hr
    exact (div_left_inj' hne).mp hr
  intro r hr
  by_cases hrf : r = found
  · rw [hrf, hf]
  · -- the exchange puts row `r` here
    have hsource : ∃ s, s < m.rows ∧ s ≠ row ∧ (if s = found then row else s) = r := by
      by_cases hrr : r = row
      · exact ⟨found, hfound, fun h => hrf (hrr.trans h.symm), by rw [if_pos rfl, hrr]⟩
      · exact ⟨r, hr, hrr, if_neg hrf⟩
    obtain ⟨s, hs, hsr, hsource⟩ := hsource
    have heq := h s hs
    rw [entry_pivoted hs hc hrow hcol, entry_pivoted hs hd hrow hcol, if_neg hsr, if_neg hsr,
      hsource, hf] at heq
    exact sub_left_injective heq

theorem UnitColumns.col_le {pivots : List Nat} {row lead found col q : Nat}
    (hu : m.UnitColumns pivots) (ht' : tolerance < 1)
    (hp : m.FirstPivot tolerance row lead found col) (hq : pivots[row]? = some q)
    (hlead : lead ≤ q) : col ≤ q ∧ (col = q → found = row) := by
  have hone := hu.usable ht' hq
  constructor
  · by_contra hlt
    have hz := hp.skipped row q (Nat.le_refl _) (hu.lt_rows hq) hlead (by omega)
    rw [hone] at hz
    cases hz
  · intro heq
    by_contra hne
    have hle := hp.row_le
    have hz := hp.above row (Nat.le_refl _) (by omega)
    rw [heq, hone] at hz
    cases hz

end DenseMatrix

/-- A column that was passed over for a pivot differs from the pivot's column ever after. -/
theorem PivotReach.skipped_ne {first w : Worksheet ℚ} {answers : List (Nat × Nat)}
    (ht : 0 ≤ tolerance) (hfirst : first.state.WellFormed)
    (reach : PivotReach tolerance first answers w) :
    ∀ j q c, (pivotColumns answers)[j]? = some q → c < q →
      (∀ p ∈ (pivotColumns answers).take j, p < c) →
      ¬∀ r, r < w.state.rows → w.state.entry r c = w.state.entry r q := by
  obtain ⟨_, _, _, h⟩ := reach.exact_invariant ht hfirst
    (P := fun answers m _ => ∀ j q c, (pivotColumns answers)[j]? = some q → c < q →
      (∀ p ∈ (pivotColumns answers).take j, p < c) →
      ¬∀ r, r < m.rows → m.entry r c = m.entry r q)
    (by simp)
    (by
      intro answers m ops found col hm _ _ htaken room hp ih j q c hq hcq hbefore heq
      have hne := ne_zero_of_isZero_eq_false ht hp.usable
      rw [pivotColumns_append] at hq hbefore
      rcases getElem?_concat_cases hq with hq | ⟨rfl, rfl⟩
      · have hqc := htaken.lt_cols q (List.mem_of_getElem? hq)
        have hj := lt_length_of_getElem?_eq_some hq
        rw [List.take_append_of_le_length (Nat.le_of_lt hj)] at hbefore
        exact ih j q c hq hcq hbefore (DenseMatrix.column_eq_of_pivoted room hp.lt_rows hp.lt_cols
          (Nat.lt_trans hcq hqc) hqc hne heq)
      · rw [List.take_append_of_le_length (Nat.le_refl _), List.take_length] at hbefore
        have hcol := DenseMatrix.column_eq_of_pivoted room hp.lt_rows hp.lt_cols
          (Nat.lt_trans hcq hp.lt_cols) hp.lt_cols hne heq found hp.lt_rows
        have hz := hp.skipped found c hp.row_le hp.lt_rows (nextLead_le hbefore) hcq
        rw [hcol, hp.usable] at hz
        cases hz)
  exact h

/-- A column left of a unit column, and right of those before it, stands in its place. -/
def Diverged (pivots taken : List Nat) : Prop :=
  ∃ j q d, pivots[j]? = some q ∧ d < q ∧ (∀ p ∈ pivots.take j, p < d) ∧ taken[j]? = some d

theorem Diverged.concat {pivots taken : List Nat} (h : Diverged pivots taken) (col : Nat) :
    Diverged pivots (taken ++ [col]) := by
  obtain ⟨j, q, d, hq, hdq, hbefore, hd⟩ := h
  refine ⟨j, q, d, hq, hdq, hbefore, ?_⟩
  rw [List.getElem?_append_left (lt_length_of_getElem?_eq_some hd), hd]

/-- A run has gone through unit columns without any change and has not come to a cell yet. -/
structure Follows (given : DenseMatrix ℚ) (pivots : List Nat) (r c : Nat)
    (answers : List (Nat × Nat)) (m : DenseMatrix ℚ) : Prop where
  unchanged : m = given
  taken : pivotColumns answers <+: pivots
  lead_le : nextLead answers ≤ c
  row_le : answers.length ≤ r

section Follows

variable {given m : DenseMatrix ℚ} {pivots : List Nat} {answers : List (Nat × Nat)}
  {r c found col : Nat}

theorem Follows.col_le (h : Follows given pivots r c answers m) (hr : r < given.rows)
    (hcell : isZero tolerance (given.entry r c) = false)
    (hp : m.FirstPivot tolerance answers.length (nextLead answers) found col) : col ≤ c := by
  by_contra hlt
  have hz := hp.skipped r c h.row_le (by rwa [h.unchanged]) h.lead_le (by omega)
  rw [h.unchanged, hcell] at hz
  cases hz

theorem Follows.pivoted (h : Follows given pivots r c answers m) (ht : 0 ≤ tolerance)
    (ht' : tolerance < 1) (hm : m.WellFormed) (hu : given.UnitColumns pivots)
    (htail : given.ZeroTail tolerance pivots) (hr : r < given.rows)
    (hleft : ∀ q, pivots[r]? = some q → c < q)
    (hstray : isZero tolerance (given.entry r c) = false) (htaken : m.PivotsTaken answers)
    (hp : m.FirstPivot tolerance answers.length (nextLead answers) found col) :
    Follows given pivots r c (answers ++ [(found, col)]) (m.pivoted answers.length found col) ∨
      Diverged pivots (pivotColumns answers ++ [col]) := by
  have hcolc := h.col_le hr hstray hp
  obtain ⟨rfl, ⟨rest, hrest⟩, hlead, hrow⟩ := h
  have hlen := length_pivotColumns answers
  have hnew : ∀ p ∈ pivotColumns answers, p < col := fun p hpc =>
    Nat.lt_of_lt_of_le (htaken.lt_lead p hpc) hp.lead_le
  cases rest with
  | nil =>
    -- all unit columns are taken, and right of them only zeros are left
    rw [List.append_nil] at hrest
    have hz := htail found col hp.lt_rows hp.lt_cols
      (by rw [← hrest, hlen]; exact hp.row_le) (by rwa [← hrest])
    rw [hp.usable] at hz
    cases hz
  | cons q rest =>
    obtain ⟨hq, hbefore⟩ := hu.next_of_append hrest
    rw [hlen] at hq
    obtain ⟨hcolq, hfound⟩ := hu.col_le ht' hp hq (nextLead_le hbefore)
    rcases Nat.eq_or_lt_of_le hcolq with rfl | hlt
    · left
      have hrne : r ≠ answers.length := by
        intro heq
        have hlt := hleft col (by rw [heq, hq])
        omega
      have hcne : c ≠ col := by
        intro heq
        rw [heq, hu.unit _ col hq r hr, if_neg hrne, isZero_zero ht] at hstray
        cases hstray
      obtain rfl := hfound rfl
      refine ⟨hu.pivoted_self hm hq, ⟨rest, by simpa using hrest⟩, ?_, ?_⟩
      · rw [nextLead_append]
        omega
      · rw [List.length_append, List.length_singleton]
        omega
    · right
      refine ⟨answers.length, q, col, hq, hlt, ?_, ?_⟩
      · rw [← hrest, ← hlen, List.take_left]
        exact hnew
      · rw [← hlen, List.getElem?_concat_length]

end Follows

/-- As long as a run has not come to a stray cell, it follows the unit columns or has diverged. -/
theorem PivotReach.follows_or_diverged {first w : Worksheet ℚ} {answers : List (Nat × Nat)}
    {pivots : List Nat} {r c : Nat} (ht : 0 ≤ tolerance) (ht' : tolerance < 1)
    (hfirst : first.state.WellFormed) (hu : first.state.UnitColumns pivots)
    (htail : first.state.ZeroTail tolerance pivots) (hr : r < first.state.rows)
    (hleft : ∀ q, pivots[r]? = some q → c < q)
    (hstray : isZero tolerance (first.state.entry r c) = false)
    (reach : PivotReach tolerance first answers w) :
    Follows first.state pivots r c answers w.state ∨ Diverged pivots (pivotColumns answers) := by
  obtain ⟨_, _, _, h⟩ := reach.exact_invariant ht hfirst
    (P := fun answers m _ =>
      Follows first.state pivots r c answers m ∨ Diverged pivots (pivotColumns answers))
    (.inl ⟨rfl, List.nil_prefix, Nat.zero_le _, Nat.zero_le _⟩)
    (by
      intro answers m ops found col hm _ _ htaken room hp ih
      rw [pivotColumns_append]
      rcases ih with hfollows | hdiverged
      · exact hfollows.pivoted ht ht' hm hu htail hr hleft hstray htaken hp
      · exact .inr (hdiverged.concat col))
  exact h

/-- When reducing again changes nothing, nothing was left outside the pivot columns and the cells
right of a pivot. -/
theorem PivotReach.noStray_of_fixed {first w w' : Worksheet ℚ} {answers answers' : List (Nat × Nat)}
    (ht : 0 ≤ tolerance) (ht' : tolerance < 1) (hfirst : first.state.WellFormed)
    (reach : PivotReach tolerance first answers w) (hs : Settled tolerance answers w)
    (again : PivotReach tolerance (reductionSheet w.state) answers' w')
    (hs' : Settled tolerance answers' w') (hfixed : w'.state = w.state) :
    w.state.NoStray tolerance (pivotColumns answers) := by
  have hw : (reductionSheet w.state).state.WellFormed := (reach.shape hfirst).1
  have hu := (reach.pivotsTaken ht hfirst).toUnitColumns
  have hu' := (again.pivotsTaken ht hw).toUnitColumns
  rw [hfixed] at hu'
  intro r c hr hc hleft
  by_contra hstray
  rw [Bool.not_eq_true] at hstray
  have htail := reach.zeroTail hfirst hs
  have hrun := again.follows_or_diverged ht ht' hw hu htail hr hleft hstray
  rcases hrun with hfollows | ⟨j, q, d, hq, hdq, hbefore, hd⟩
  · -- the second run ended before a usable cell
    have hno := (settled_iff (again.shape hw).1).mp hs'
    rw [hfixed] at hno
    rw [hno r c hfollows.row_le hr hfollows.lead_le hc] at hstray
    cases hstray
  · -- two columns became the same unit column, one of which the first run had passed over
    refine reach.skipped_ne ht hfirst j q d hq hdq hbefore fun i hi => ?_
    rw [hu.unit j q hq i hi, hu'.unit j d hd i hi]

end GaussJordan
