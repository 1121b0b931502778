import GaussJordan.Proofs.ClassifiedRows
import GaussJordan.Proofs.ExactReduction

namespace GaussJordan

theorem getElem_gap {xs : List Nat} (hs : xs.Pairwise (· < ·)) {i j : Nat} (hij : i ≤ j)
    (hj : j < xs.length) : xs[i] + (j - i) ≤ xs[j] := by
  induction j, hij using Nat.le_induction with
  | base => omega
  | succ j hij ih =>
    have hprev := ih (by omega)
    have hstep : xs[j] < xs[j + 1] := List.pairwise_iff_getElem.mp hs _ _ _ hj (Nat.lt_succ_self j)
    omega

theorem length_le_of_sorted {xs : List Nat} {n : Nat} (hs : xs.Pairwise (· < ·))
    (hn : ∀ x ∈ xs, x < n) : xs.length ≤ n := by
  by_contra hlong
  have hlast : xs.length - 1 < xs.length := by omega
  have hgap := getElem_gap hs (Nat.zero_le _) hlast
  have hlt := hn _ (List.getElem_mem hlast)
  omega

/-- A report that tells where the pivots are: in the right-hand side, in every other column, or
in fewer columns. -/
def SolutionReport.AgreesWith {α : Type} (report : SolutionReport α) (unknowns : Nat)
    (pivots : List Nat) : Prop :=
  (report = .noSolution ↔ unknowns ∈ pivots) ∧
  ((∃ values, report = .unique values) ↔ unknowns ∉ pivots ∧ pivots.length = unknowns) ∧
  (report = .infinite ↔ unknowns ∉ pivots ∧ pivots.length < unknowns)

section AgreesWith

variable {α : Type} {unknowns : Nat} {pivots : List Nat}

theorem noSolution_agreesWith_iff :
    (SolutionReport.noSolution : SolutionReport α).AgreesWith unknowns pivots ↔
      unknowns ∈ pivots := by
  simp only [SolutionReport.AgreesWith, reduceCtorEq, exists_false, false_iff, true_iff]
  constructor
  · intro h
    exact h.1
  · intro h
    exact ⟨h, fun hne => hne.1 h, fun hne => hne.1 h⟩

theorem infinite_agreesWith_iff :
    (SolutionReport.infinite : SolutionReport α).AgreesWith unknowns pivots ↔
      unknowns ∉ pivots ∧ pivots.length < unknowns := by
  simp only [SolutionReport.AgreesWith, reduceCtorEq, exists_false, false_iff, true_iff]
  constructor
  · intro h
    exact h.2.2
  · intro h
    exact ⟨h.1, fun heq => by omega, h⟩

theorem unique_agreesWith_iff {values : List α} :
    (SolutionReport.unique values).AgreesWith unknowns pivots ↔
      unknowns ∉ pivots ∧ pivots.length = unknowns := by
  have hvalues : ∃ values', SolutionReport.unique values = .unique values' := ⟨values, rfl⟩
  simp only [SolutionReport.AgreesWith, reduceCtorEq, hvalues, false_iff, true_iff]
  constructor
  · intro h
    exact h.2.1
  · intro h
    exact ⟨h.1, h, fun hlt => by omega⟩

end AgreesWith

namespace DenseMatrix

variable {tolerance : ℚ} {m : DenseMatrix ℚ} {pivots : List Nat}

/-- The rows show where the pivots are: the row of a pivot in the right-hand side has no
coefficient that does not count as zero, and rows without a pivot do not make up for variables
without one. -/
structure ShowsPivots (tolerance : ℚ) (m : DenseMatrix ℚ) (pivots : List Nat) : Prop where
  contradiction : m.cols - 1 ∈ pivots →
    ∀ c, c < m.cols - 1 → isZero tolerance (m.entry (pivots.length - 1) c) = true
  free : m.cols - 1 ∉ pivots → pivots.length < m.cols - 1 →
    pivots.length + m.occupiedFrom tolerance pivots.length < m.cols - 1

theorem UnitColumns.eq_last_of_rightHandSide (h : m.UnitColumns pivots) {i : Nat}
    (hi : pivots[i]? = some (m.cols - 1)) : i = pivots.length - 1 := by
  obtain ⟨hlt, hget⟩ := List.getElem?_eq_some_iff.mp hi
  by_contra hne
  have hnext : i + 1 < pivots.length := by omega
  have hstep := List.pairwise_iff_getElem.mp h.sorted i (i + 1) hlt hnext (Nat.lt_succ_self i)
  have hcols := h.lt_cols _ (List.getElem_mem hnext)
  omega

theorem UnitColumns.getElem?_of_rightHandSide (h : m.UnitColumns pivots)
    (hv : m.cols - 1 ∈ pivots) : pivots[pivots.length - 1]? = some (m.cols - 1) := by
  obtain ⟨i, hi⟩ := List.getElem?_of_mem hv
  rw [← h.eq_last_of_rightHandSide hi, hi]

theorem UnitColumns.lt_unknowns (h : m.UnitColumns pivots) (hv : m.cols - 1 ∉ pivots) :
    ∀ q ∈ pivots, q < m.cols - 1 := by
  intro q hq
  have hqc := h.lt_cols q hq
  have hne : q ≠ m.cols - 1 := fun heq => hv (heq ▸ hq)
  omega

theorem UnitColumns.length_le_unknowns (h : m.UnitColumns pivots) (hv : m.cols - 1 ∉ pivots) :
    pivots.length ≤ m.cols - 1 := length_le_of_sorted h.sorted (h.lt_unknowns hv)

theorem UnitColumns.occupiedFrom_zero (h : m.UnitColumns pivots) (ht : tolerance < 1) :
    m.occupiedFrom tolerance 0 = pivots.length + m.occupiedFrom tolerance pivots.length := by
  refine occupiedFrom_eq_add h.length_le fun r hr => isOccupied_iff.mpr ?_
  have hq : pivots[r]? = some pivots[r] := List.getElem?_eq_getElem hr
  exact ⟨pivots[r], h.lt_cols _ (List.getElem_mem hr), h.usable ht hq⟩

theorem UnitColumns.contradicts_iff (h : m.UnitColumns pivots) (ht : 0 ≤ tolerance)
    (ht' : tolerance < 1) (hc : 0 < m.cols)
    (htail : m.ZeroTail tolerance pivots) :
    (∃ r, r < m.rows ∧ m.Contradicts tolerance r) ↔ m.cols - 1 ∈ pivots ∧
      ∀ c, c < m.cols - 1 → isZero tolerance (m.entry (pivots.length - 1) c) = true := by
  have hlast : m.cols - 1 < m.cols := by omega
  constructor
  · intro hcontra
    obtain ⟨r, hr, hcoefficients, hright⟩ := hcontra
    by_cases hrow : r < pivots.length
    · have hq : pivots[r]? = some pivots[r] := List.getElem?_eq_getElem hrow
      have hqc := h.lt_cols_of_get hq
      -- the one of this row is no coefficient
      have hend : pivots[r] = m.cols - 1 := by
        by_contra hne
        have hz := hcoefficients pivots[r] (by omega)
        rw [h.usable ht' hq] at hz
        cases hz
      rw [hend] at hq
      rw [← h.eq_last_of_rightHandSide hq]
      exact ⟨List.mem_of_getElem? hq, hcoefficients⟩
    · exfalso
      by_cases hmem : m.cols - 1 ∈ pivots
      · obtain ⟨i, hi⟩ := List.getElem?_of_mem hmem
        have hilt := lt_length_of_getElem?_eq_some hi
        rw [h.unit i _ hi r hr, if_neg (by omega), isZero_zero ht] at hright
        cases hright
      · have hz := htail r (m.cols - 1) hr hlast (by omega) (h.lt_unknowns hmem)
        rw [hright] at hz
        cases hz
  · intro hshown
    obtain ⟨hmem, hclear⟩ := hshown
    have hq := h.getElem?_of_rightHandSide hmem
    exact ⟨pivots.length - 1, h.lt_rows hq, hclear, h.usable ht' hq⟩

theorem UnitColumns.isZero_of_rightHandSide (h : m.UnitColumns pivots)
    (hs : m.NoStray tolerance pivots) (hv : m.cols - 1 ∈ pivots) {c : Nat}
    (hc : c < m.cols - 1) : isZero tolerance (m.entry (pivots.length - 1) c) = true := by
  have hq := h.getElem?_of_rightHandSide hv
  refine hs _ c (h.lt_rows hq) (by omega) fun q hq' => ?_
  rw [hq] at hq'
  cases hq'
  exact hc

theorem NoStray.occupiedFrom_eq_zero (hs : m.NoStray tolerance pivots) :
    m.occupiedFrom tolerance pivots.length = 0 := by
  rw [occupiedFrom, List.countP_eq_zero]
  intro r hr hoccupied
  obtain ⟨c, hc, hcell⟩ := isOccupied_iff.mp hoccupied
  obtain ⟨hle, hlt⟩ := List.mem_range'_1.mp hr
  rw [hs.row_isZero (by omega) hc hle] at hcell
  cases hcell

theorem UnitColumns.showsPivots (h : m.UnitColumns pivots) (hs : m.NoStray tolerance pivots) :
    m.ShowsPivots tolerance pivots := by
  refine ⟨fun hv c hc => h.isZero_of_rightHandSide hs hv hc, fun _ hlt => ?_⟩
  rw [hs.occupiedFrom_eq_zero]
  exact hlt

/-- The report on a matrix with unit columns agrees with them exactly when the rows show them. -/
theorem UnitColumns.classify_agrees (h : m.UnitColumns pivots) (hm : m.WellFormed)
    (hc : 0 < m.cols) (ht : 0 ≤ tolerance) (ht' : tolerance < 1)
    (htail : m.ZeroTail tolerance pivots) :
    ∃ report verdict, m.classify tolerance = .ok (report, verdict) ∧
      (report.AgreesWith (m.cols - 1) pivots ↔ m.ShowsPivots tolerance pivots) := by
  have hiff := h.contradicts_iff ht ht' hc htail
  have hcount := h.occupiedFrom_zero ht'
  by_cases hcontra : ∃ r, r < m.rows ∧ m.Contradicts tolerance r
  · refine ⟨_, _, classify_of_contradiction hm hc hcontra, ?_⟩
    obtain ⟨hmem, hclear⟩ := hiff.mp hcontra
    rw [noSolution_agreesWith_iff]
    exact ⟨fun _ => ⟨fun _ => hclear, fun hne => absurd hmem hne⟩, fun _ => hmem⟩
  · have hno : ¬(m.cols - 1 ∈ pivots ∧
        ∀ c, c < m.cols - 1 → isZero tolerance (m.entry (pivots.length - 1) c) = true) :=
      fun hshown => hcontra (hiff.mpr hshown)
    by_cases hfew : m.occupiedFrom tolerance 0 < m.cols - 1
    · refine ⟨_, _, classify_of_few_rows hm hc hcontra hfew, ?_⟩
      rw [infinite_agreesWith_iff]
      constructor
      · intro hagrees
        exact ⟨fun hmem => absurd hmem hagrees.1, fun _ _ => by omega⟩
      · intro hshows
        exact ⟨fun hmem => hno ⟨hmem, hshows.contradiction hmem⟩, by omega⟩
    · refine ⟨_, _, classify_of_enough_rows hm hc hcontra (by omega), ?_⟩
      rw [unique_agreesWith_iff]
      constructor
      · intro hagrees
        exact ⟨fun hmem => absurd hmem hagrees.1, fun _ hlt => by omega⟩
      · intro hshows
        have hmem : m.cols - 1 ∉ pivots := fun hmem => hno ⟨hmem, hshows.contradiction hmem⟩
        have hle := h.length_le_unknowns hmem
        refine ⟨hmem, ?_⟩
        by_contra hne
        have hlt := hshows.free hmem (by omega)
        omega

/-- The report on a reduced matrix tells in which columns the reduction took its pivots exactly
when the reduced rows still show that. Without tolerance they always do. -/
theorem reduce_classify_agrees_iff (hm : m.WellFormed) (hc : 0 < m.cols) (ht : 0 ≤ tolerance)
    (ht' : tolerance < 1) :
    ∃ answers w report verdict, m.TakesPivots tolerance answers ∧
      m.reduce tolerance = .ok w ∧ w.state.classify tolerance = .ok (report, verdict) ∧
      (report.AgreesWith (m.cols - 1) (pivotColumns answers) ↔
        w.state.ShowsPivots tolerance (pivotColumns answers)) ∧
      (tolerance = 0 → report.AgreesWith (m.cols - 1) (pivotColumns answers)) := by
  obtain ⟨answers, w, hrun, reach, hs⟩ := reduce_reach tolerance hm
  obtain ⟨hw, _, hcols⟩ := reach.shape hm
  change w.state.cols = m.cols at hcols
  have hu := (reach.pivotsTaken ht hm).toUnitColumns
  obtain ⟨report, verdict, hclassify, hagrees⟩ :=
    hu.classify_agrees hw (by rwa [hcols]) ht ht' (reach.zeroTail hm hs)
  rw [hcols] at hagrees
  refine ⟨answers, _, report, verdict, ⟨w, reach, hs⟩, hrun, hclassify, hagrees, fun hzero => ?_⟩
  subst hzero
  exact hagrees.mpr (hu.showsPivots (reach.noStray hm hs))

theorem reduce_classify_agrees_iff_at_default :
    (⟨2, 3, #[1, 1, 3, 1, 1, 5]⟩ : DenseMatrix ℚ).WellFormed ∧ (0 : ℚ) ≤ 1 / 10 ^ 10 ∧
    (1 / 10 ^ 10 : ℚ) < 1 ∧
    ∃ answers w report verdict,
      (⟨2, 3, #[1, 1, 3, 1, 1, 5]⟩ : DenseMatrix ℚ).TakesPivots (1 / 10 ^ 10) answers ∧
      (⟨2, 3, #[1, 1, 3, 1, 1, 5]⟩ : DenseMatrix ℚ).reduce (1 / 10 ^ 10) = .ok w ∧
      w.state.classify (1 / 10 ^ 10) = .ok (report, verdict) ∧
      (report.AgreesWith 2 (pivotColumns answers) ↔
        w.state.ShowsPivots (1 / 10 ^ 10) (pivotColumns answers)) ∧
      ((1 / 10 ^ 10 : ℚ) = 0 → report.AgreesWith 2 (pivotColumns answers)) := by
  have hm : (⟨2, 3, #[1, 1, 3, 1, 1, 5]⟩ : DenseMatrix ℚ).WellFormed := rfl
  have ht : (0 : ℚ) ≤ 1 / 10 ^ 10 := by norm_num
  have ht' : (1 / 10 ^ 10 : ℚ) < 1 := by norm_num
  exact ⟨hm, ht, ht', reduce_classify_agrees_iff hm (by decide) ht ht'⟩

/-- A coefficient that counted as zero no longer does when its row has been divided by the pivot
in the right-hand side, and the report takes the row for an equation with a solution. -/
theorem unique_beside_rightHandSide_pivot :
    ∃ answers w values verdict,
      (⟨1, 2, #[1 / 10 ^ 10, 1 / 2]⟩ : DenseMatrix ℚ).TakesPivots (1 / 10 ^ 10) answers ∧
      (⟨1, 2, #[1 / 10 ^ 10, 1 / 2]⟩ : DenseMatrix ℚ).reduce (1 / 10 ^ 10) = .ok w ∧
      w.state.classify (1 / 10 ^ 10) = .ok (.unique values, verdict) ∧
      ¬(SolutionReport.unique values).AgreesWith 1 (pivotColumns answers) := by
  have hm : (⟨1, 2, #[1 / 10 ^ 10, 1 / 2]⟩ : DenseMatrix ℚ).WellFormed := rfl
  have hp : (⟨1, 2, #[1 / 10 ^ 10, 1 / 2]⟩ : DenseMatrix ℚ).FirstPivot (1 / 10 ^ 10) 0 0 0 1 := by
    refine ⟨Nat.le_refl 0, Nat.one_pos, Nat.zero_le 1, Nat.one_lt_two, by decide +kernel,
      by omega, fun i c _ hi _ hc => ?_⟩
    obtain rfl : i = 0 := Nat.lt_one_iff.mp hi
    obtain rfl : c = 0 := Nat.lt_one_iff.mp hc
    decide +kernel
  obtain ⟨w, reach, hs, hstate⟩ := single_pivot_reach hm hp fun i _ hi hr _ _ => by
    change i < 1 at hr
    omega
  obtain ⟨report, verdict, hclassify⟩ : ∃ values verdict,
      w.state.classify (1 / 10 ^ 10) = .ok (.unique values, verdict) := by
    have hw := (reach.shape hm).1
    have hc : 0 < w.state.cols := by rw [hstate]; decide
    refine ⟨_, _, classify_of_enough_rows hw hc ?_ ?_⟩
    · rw [hstate]
      rintro ⟨r, hr, hcoefficients, _⟩
      obtain rfl : r = 0 := Nat.lt_one_iff.mp hr
      have hz := hcoefficients 0 (by decide)
      revert hz
      decide +kernel
    · rw [hstate]
      decide +kernel
  refine ⟨_, _, report, verdict, ⟨w, reach, hs⟩, reduce_of_reach hm reach hs, hclassify, ?_⟩
  rw [unique_agreesWith_iff]
  exact fun hagrees => hagrees.1 List.mem_cons_self

end DenseMatrix

end GaussJordan
