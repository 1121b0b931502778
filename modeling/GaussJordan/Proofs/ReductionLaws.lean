import GaussJordan.Proofs.Strays

namespace GaussJordan

variable {tolerance : ℚ}

namespace DenseMatrix

variable {m : DenseMatrix ℚ} {pivots : List Nat}

/-- The reduced matrix passes the check, and reducing it again moves no cell further than the
tolerance. -/
def ReducesCleanly (tolerance : ℚ) (m : DenseMatrix ℚ) : Prop :=
  ∃ w w', m.reduce tolerance = .ok w ∧ w.state.reduce tolerance = .ok w' ∧
    w.state.isReduced tolerance = true ∧ w'.state.approxEq w.state tolerance = true

/-- The pivots that a second reduction can find again: a one is usable only below tolerance one. -/
def usablePivots (tolerance : ℚ) (pivots : List Nat) : List Nat :=
  if tolerance < 1 then pivots else []

theorem usablePivots_of_lt (h : tolerance < 1) : usablePivots tolerance pivots = pivots :=
  if_pos h

theorem usablePivots_of_le (h : 1 ≤ tolerance) : usablePivots tolerance pivots = [] :=
  if_neg (not_lt.mpr h)

theorem lt_one_of_usablePivots (h : usablePivots tolerance pivots ≠ []) : tolerance < 1 := by
  by_contra hlt
  exact h (usablePivots_of_le (not_lt.mp hlt))

theorem unitColumns_nil (m : DenseMatrix ℚ) : m.UnitColumns [] :=
  (pivotsTaken_nil m).toUnitColumns

theorem UnitColumns.usablePivots (h : m.UnitColumns pivots) (tolerance : ℚ) :
    m.UnitColumns (usablePivots tolerance pivots) := by
  unfold DenseMatrix.usablePivots
  split
  next => exact h
  next => exact unitColumns_nil m

theorem UnitColumns.entry_isZero (h : m.UnitColumns pivots) (ht : 1 ≤ tolerance) {r c : Nat}
    (hr : r < m.rows) (hc : c ∈ pivots) : isZero tolerance (m.entry r c) = true := by
  obtain ⟨i, hi⟩ := List.getElem?_of_mem hc
  rw [h.unit i c hi r hr, isZero_iff]
  split
  · rwa [abs_one]
  · rw [abs_zero]
    exact le_trans zero_le_one ht

theorem approxEq_self (ht : 0 ≤ tolerance) (m : DenseMatrix ℚ) :
    m.approxEq m tolerance = true := by
  have hall : ∀ cells : List ℚ,
      ((cells.zip cells).all fun (a, b) => isZero tolerance (a - b)) = true := by
    intro cells
    induction cells with
    | nil => rfl
    | cons x cells ih => simp [isZero_zero ht, ih]
  simp [approxEq, hall]

end DenseMatrix

open DenseMatrix (usablePivots)

theorem PivotReach.first_usable {first w : Worksheet ℚ} {answers : List (Nat × Nat)}
    {found col : Nat} (ht : 0 ≤ tolerance) (hfirst : first.state.WellFormed)
    (reach : PivotReach tolerance first answers w) (h : answers[0]? = some (found, col)) :
    found < first.state.rows ∧ isZero tolerance (first.state.entry found col) = false := by
  obtain ⟨_, _, _, hP⟩ := reach.exact_invariant ht hfirst
    (P := fun answers m _ => (answers = [] → m = first.state) ∧
      ∀ found col, answers[0]? = some (found, col) →
        found < first.state.rows ∧ isZero tolerance (first.state.entry found col) = false)
    ⟨fun _ => rfl, by simp⟩
    (by
      intro answers m ops found col _ hrows _ _ _ hp ⟨hstart, ih⟩
      refine ⟨by simp, fun found' col' h => ?_⟩
      cases answers with
      | nil =>
        cases h
        obtain rfl := hstart rfl
        exact ⟨hp.lt_rows, hp.usable⟩
      | cons answer answers => exact ih found' col' h)
  exact hP.2 found col h

/-- Reducing again changes nothing exactly when nothing is left outside the pivot columns and the
cells right of a pivot. -/
theorem PivotReach.fixed_iff_noStray {first w w' : Worksheet ℚ}
    {answers answers' : List (Nat × Nat)} (ht : 0 ≤ tolerance) (hfirst : first.state.WellFormed)
    (reach : PivotReach tolerance first answers w) (hs : Settled tolerance answers w)
    (again : PivotReach tolerance (reductionSheet w.state) answers' w')
    (hs' : Settled tolerance answers' w') :
    w'.state = w.state ↔
      w.state.NoStray tolerance (usablePivots tolerance (pivotColumns answers)) := by
  have hw : (reductionSheet w.state).state.WellFormed := (reach.shape hfirst).1
  have hu := (reach.pivotsTaken ht hfirst).toUnitColumns
  constructor
  · intro hfixed
    rcases lt_or_ge tolerance 1 with hlt | hle
    · rw [DenseMatrix.usablePivots_of_lt hlt]
      exact reach.noStray_of_fixed ht hlt hfirst hs again hs' hfixed
    · rw [DenseMatrix.usablePivots_of_le hle]
      have hno := (settled_iff (again.shape hw).1).mp hs'
      rw [hfixed] at hno
      have hu' := (again.pivotsTaken ht hw).toUnitColumns
      rw [hfixed] at hu'
      cases answers' with
      | nil => exact fun r c hr hc _ => hno r c (Nat.zero_le r) hr (Nat.zero_le c) hc
      | cons answer answers' =>
        -- the first pivot was beyond the tolerance but has become a one
        have hget : (answer :: answers')[0]? = some (answer.1, answer.2) := rfl
        obtain ⟨hr, husable⟩ := again.first_usable ht hw hget
        have hz := hu'.entry_isZero hle hr List.mem_cons_self
        change isZero tolerance (w.state.entry answer.1 answer.2) = false at husable
        rw [hz] at husable
        cases husable
  · intro hnone
    exact (again.idle hw (hu.usablePivots tolerance) hnone ht
      DenseMatrix.lt_one_of_usablePivots).1

namespace DenseMatrix

variable {m : DenseMatrix ℚ} {pivots : List Nat} {rows cols : Nat} {a b : ℚ}

theorem reducesCleanly_of_noStray (ht : 0 ≤ tolerance) {w : Worksheet ℚ}
    (hrun : m.reduce tolerance = .ok w) (hw : w.state.WellFormed) (hu : w.state.UnitColumns pivots)
    (hnone : w.state.NoStray tolerance (usablePivots tolerance pivots)) :
    m.ReducesCleanly tolerance := by
  have hunit := hu.usablePivots tolerance
  obtain ⟨w', hrun', hstate, _⟩ := reduce_of_noStray hw hunit hnone ht lt_one_of_usablePivots
  refine ⟨w, w', hrun, hrun', ?_, ?_⟩
  · exact isReduced_iff.mpr ⟨_, hunit.echelon hnone ht lt_one_of_usablePivots⟩
  · rw [hstate]
    exact approxEq_self ht w.state

theorem LeadsAt.not_isReduced {c : Nat} (h : m.LeadsAt tolerance 0 c) (hrows : 0 < m.rows)
    (hne : isSignificant tolerance (m.entry 0 c - 1) = true) : m.isReduced tolerance ≠ true := by
  intro hreduced
  obtain ⟨leads, he⟩ := isReduced_iff.mp hreduced
  cases leads with
  | nil => exact h.not_blank (he.blank 0 (Nat.le_refl 0) hrows)
  | cons d leads =>
    have hcd := h.unique (he.leadsAt 0 d rfl)
    have hone := he.one 0 d rfl
    rw [← hcd, hne] at hone
    cases hone

/-- A matrix with at most two cells that are not zero, the first two of its first row. -/
def topPair (rows cols : Nat) (a b : ℚ) : DenseMatrix ℚ :=
  generate rows cols fun r c => if r = 0 then if c = 0 then a else if c = 1 then b else 0 else 0

theorem topPair_wellFormed : (topPair rows cols a b).WellFormed := generate_wellFormed _ _ _

theorem entry_topPair {r c : Nat} (hr : r < rows) (hc : c < cols) :
    (topPair rows cols a b).entry r c =
      if r = 0 then if c = 0 then a else if c = 1 then b else 0 else 0 :=
  entry_generate _ hr hc

theorem pivoted_topPair {col : Nat} (hrows : 0 < rows) (hcol : col < cols) {x : ℚ}
    (hx : (topPair rows cols a b).entry 0 col = x) :
    (topPair rows cols a b).pivoted 0 0 col = topPair rows cols (a / x) (b / x) := by
  refine ext_entry (pivoted_wellFormed _ _ _) topPair_wellFormed rfl rfl fun r c hr hc => ?_
  change r < rows at hr
  change c < cols at hc
  have hpivot := entry_pivoted (m := topPair rows cols a b) hr hc hrows hcol 0
  rw [hpivot, hx, entry_topPair hr hc, entry_topPair hrows hc]
  by_cases h : r = 0
  · rw [if_pos h, if_pos h, if_pos rfl]
    split
    · rfl
    · split
      · rfl
      · exact zero_div x
  · rw [if_neg h, if_neg h, if_neg h, entry_topPair hr hc, entry_topPair hr hcol, if_neg h,
      if_neg h, zero_mul, sub_zero]

theorem reduce_topPair (ht : 0 ≤ tolerance) {col : Nat} {x : ℚ}
    (hp : (topPair rows cols a b).FirstPivot tolerance 0 0 0 col)
    (hx : (topPair rows cols a b).entry 0 col = x) :
    ∃ w, (topPair rows cols a b).reduce tolerance = .ok w ∧
      w.state = topPair rows cols (a / x) (b / x) := by
  have hrows : 0 < rows := hp.lt_rows
  have hcol : col < cols := hp.lt_cols
  have hpivoted := pivoted_topPair hrows hcol hx
  rw [← hpivoted]
  have hno : ((topPair rows cols a b).pivoted 0 0 col).NoPivot tolerance 1 (col + 1) := by
    rw [hpivoted]
    intro i c hi hr _ hc
    change i < rows at hr
    change c < cols at hc
    rw [entry_topPair hr hc, if_neg (by omega)]
    exact isZero_zero ht
  obtain ⟨w, reach, hs, hstate⟩ := single_pivot_reach topPair_wellFormed hp hno
  exact ⟨_, reduce_of_reach topPair_wellFormed reach hs, hstate⟩

theorem entry_topPair_first (hrows : 0 < rows) (hcols : 0 < cols) :
    (topPair rows cols a b).entry 0 0 = a := by
  rw [entry_topPair hrows hcols, if_pos rfl, if_pos rfl]

theorem entry_topPair_second (hrows : 0 < rows) (hcols : 1 < cols) :
    (topPair rows cols a b).entry 0 1 = b := by
  rw [entry_topPair hrows hcols, if_pos rfl, if_neg one_ne_zero, if_pos rfl]

/-- Below tolerance one, a skipped cell grows beyond it when its row is divided by the pivot. -/
theorem topPair_not_reducesCleanly_of_lt (hrows : 0 < rows) (hcols : 1 < cols)
    (ht : 0 < tolerance) (hlt : tolerance < 1) :
    ¬(topPair rows cols (-tolerance) ((1 + tolerance) / 2)).ReducesCleanly tolerance := by
  have hcols' : 0 < cols := by omega
  have hpos : 0 < (1 + tolerance) / 2 := by linarith
  have hsecond : (topPair rows cols (-tolerance) ((1 + tolerance) / 2)).entry 0 1 =
      (1 + tolerance) / 2 := entry_topPair_second hrows hcols
  have hp : (topPair rows cols (-tolerance)
      ((1 + tolerance) / 2)).FirstPivot tolerance 0 0 0 1 := by
    refine ⟨Nat.le_refl 0, hrows, Nat.zero_le 1, hcols, ?_, by omega, ?_⟩
    · rw [hsecond, isZero_eq_false_iff, abs_of_pos hpos]
      linarith
    · intro i c _ hi _ hc
      change i < rows at hi
      obtain rfl : c = 0 := by omega
      rw [entry_topPair hi hcols', if_pos rfl, isZero_iff]
      split
      · rw [abs_neg, abs_of_pos ht]
      · rw [abs_zero]
        exact le_of_lt ht
  obtain ⟨w, hrun, hstate⟩ := reduce_topPair (le_of_lt ht) hp hsecond
  have hentry : w.state.entry 0 0 = -(tolerance / ((1 + tolerance) / 2)) := by
    rw [hstate, entry_topPair_first hrows hcols', neg_div]
  have hgrown : tolerance < tolerance / ((1 + tolerance) / 2) := by
    rw [lt_div_iff₀ hpos]
    nlinarith
  have hlead : w.state.LeadsAt tolerance 0 0 := by
    refine ⟨by rwa [hstate], ?_, by omega⟩
    rw [hentry, isSignificant_iff, abs_neg, abs_of_pos (by linarith)]
    exact hgrown
  intro hclean
  obtain ⟨v, _, hv, _, hreduced, _⟩ := hclean
  rw [hrun] at hv
  cases hv
  refine hlead.not_isReduced (by rwa [hstate]) ?_ hreduced
  rw [hentry, isSignificant_iff, abs_of_neg (by linarith)]
  linarith

/-- From tolerance one on, the one of a pivot counts as zero. -/
theorem topPair_not_reducesCleanly_of_le (hrows : 0 < rows) (hcols : 1 < cols)
    (hle : 1 ≤ tolerance) :
    ¬(topPair rows cols (1 + tolerance) ((1 + tolerance) * (2 + tolerance))).ReducesCleanly
      tolerance := by
  have hcols' : 0 < cols := by omega
  have ht : 0 ≤ tolerance := by linarith
  have hpos : 0 < 1 + tolerance := by linarith
  have hp : (topPair rows cols (1 + tolerance)
      ((1 + tolerance) * (2 + tolerance))).FirstPivot tolerance 0 0 0 0 := by
    refine ⟨Nat.le_refl 0, hrows, Nat.le_refl 0, hcols', ?_, by omega, by omega⟩
    rw [entry_topPair_first hrows hcols', isZero_eq_false_iff, abs_of_pos hpos]
    linarith
  obtain ⟨w, hrun, hstate⟩ := reduce_topPair ht hp (entry_topPair_first hrows hcols')
  rw [div_self (ne_of_gt hpos), mul_div_cancel_left₀ _ (ne_of_gt hpos)] at hstate
  have hfirst : w.state.entry 0 0 = 1 := by rw [hstate, entry_topPair_first hrows hcols']
  have hsecond : w.state.entry 0 1 = 2 + tolerance := by
    rw [hstate, entry_topPair_second hrows hcols]
  have hlead : w.state.LeadsAt tolerance 0 1 := by
    refine ⟨by rwa [hstate], ?_, fun d hd => ?_⟩
    · rw [hsecond, isSignificant_iff, abs_of_pos (by linarith)]
      linarith
    · obtain rfl : d = 0 := by omega
      rw [hfirst, isSignificant_eq_false_iff, isZero_iff, abs_one]
      exact hle
  intro hclean
  obtain ⟨v, _, hv, _, hreduced, _⟩ := hclean
  rw [hrun] at hv
  cases hv
  refine hlead.not_isReduced (by rwa [hstate]) ?_ hreduced
  rw [hsecond, isSignificant_iff, abs_of_pos (by linarith)]
  linarith

theorem PivotsTaken.noStray_of_cols_le {answers : List (Nat × Nat)} (ht : 0 ≤ tolerance)
    (h : m.PivotsTaken answers) (hno : m.NoPivot tolerance answers.length (nextLead answers))
    (hcols : m.cols ≤ 1) :
    m.NoStray tolerance (usablePivots tolerance (pivotColumns answers)) := by
  intro r c hr hc hleft
  obtain rfl : c = 0 := by omega
  by_cases hmem : 0 ∈ pivotColumns answers
  · rcases lt_or_ge tolerance 1 with hlt | hle
    · rw [usablePivots_of_lt hlt] at hleft
      obtain ⟨i, hi⟩ := List.getElem?_of_mem hmem
      have hne : r ≠ i := by
        intro heq
        rw [heq] at hleft
        exact Nat.lt_irrefl 0 (hleft 0 hi)
      rw [h.unit i 0 hi r hr, if_neg hne]
      exact isZero_zero ht
    · exact h.toUnitColumns.entry_isZero hle hr hmem
  · have hnil : pivotColumns answers = [] := by
      by_contra hne
      obtain ⟨q, hq⟩ := List.exists_mem_of_ne_nil _ hne
      have hqc := h.lt_cols q hq
      obtain rfl : q = 0 := by omega
      exact hmem hq
    have hlen := length_pivotColumns answers
    rw [hnil] at hlen
    obtain rfl : answers = [] := List.eq_nil_of_length_eq_zero hlen.symm
    exact hno r 0 (Nat.zero_le r) hr (Nat.le_refl 0) hc

/-- Which shapes reduce cleanly at a tolerance whatever their cells, and which reduced matrices are
reduced again without any change: those in which nothing that counts as not zero is left outside
the columns of usable pivots and the cells right of them. -/
theorem reducesCleanly_exactly (ht : 0 ≤ tolerance) :
    (∀ rows cols, (∀ m : DenseMatrix ℚ, m.WellFormed → m.rows = rows → m.cols = cols →
      m.ReducesCleanly tolerance) ↔ rows = 0 ∨ cols ≤ 1 ∨ tolerance = 0) ∧
    ∀ m : DenseMatrix ℚ, m.WellFormed → ∃ answers w w', m.TakesPivots tolerance answers ∧
      m.reduce tolerance = .ok w ∧ w.state.reduce tolerance = .ok w' ∧
      (w'.state = w.state ↔
        w.state.NoStray tolerance (usablePivots tolerance (pivotColumns answers))) ∧
      (w.state.NoStray tolerance (usablePivots tolerance (pivotColumns answers)) →
        m.ReducesCleanly tolerance) := by
  constructor
  · intro rows cols
    constructor
    · intro hall
      by_contra hshape
      have hrows : 0 < rows := by omega
      have hcols : 1 < cols := by omega
      have hpos : 0 < tolerance := lt_of_le_of_ne ht fun h => hshape (.inr (.inr h.symm))
      rcases lt_or_ge tolerance 1 with hlt | hle
      · exact topPair_not_reducesCleanly_of_lt hrows hcols hpos hlt
          (hall _ topPair_wellFormed rfl rfl)
      · exact topPair_not_reducesCleanly_of_le hrows hcols hle
          (hall _ topPair_wellFormed rfl rfl)
    · intro hshape m hm hrows hcols
      obtain ⟨answers, w, hrun, reach, hs⟩ := reduce_reach tolerance hm
      obtain ⟨hw, hwr, hwc⟩ := reach.shape hm
      change w.state.rows = m.rows at hwr
      change w.state.cols = m.cols at hwc
      have htaken := reach.pivotsTaken ht hm
      refine reducesCleanly_of_noStray ht hrun hw htaken.toUnitColumns ?_
      change w.state.NoStray tolerance (usablePivots tolerance (pivotColumns answers))
      rcases hshape with hzero | hone | hexact
      · intro r c hr
        omega
      · exact htaken.noStray_of_cols_le ht ((settled_iff hw).mp hs) (by omega)
      · subst hexact
        rw [usablePivots_of_lt one_pos]
        exact reach.noStray hm hs
  · intro m hm
    obtain ⟨answers, w, hrun, reach, hs⟩ := reduce_reach tolerance hm
    have hw := (reach.shape hm).1
    obtain ⟨answers', w', hrun', again, hs'⟩ := reduce_reach tolerance hw
    have hfixed := reach.fixed_iff_noStray ht hm hs again hs'
    refine ⟨answers, _, _, ⟨w, reach, hs⟩, hrun, hrun', hfixed, fun hnone => ?_⟩
    exact reducesCleanly_of_noStray ht hrun hw (reach.pivotsTaken ht hm).toUnitColumns hnone

theorem reducesCleanly_at_default :
    (∀ m : DenseMatrix ℚ, m.WellFormed → m.rows = 3 → m.cols = 1 →
      m.ReducesCleanly (1 / 10 ^ 10)) ∧
    ∃ answers w w', (⟨1, 2, #[0, 2]⟩ : DenseMatrix ℚ).TakesPivots (1 / 10 ^ 10) answers ∧
      (⟨1, 2, #[0, 2]⟩ : DenseMatrix ℚ).reduce (1 / 10 ^ 10) = .ok w ∧
      w.state.reduce (1 / 10 ^ 10) = .ok w' ∧
      (w'.state = w.state ↔
        w.state.NoStray (1 / 10 ^ 10) (usablePivots (1 / 10 ^ 10) (pivotColumns answers))) ∧
      (w.state.NoStray (1 / 10 ^ 10) (usablePivots (1 / 10 ^ 10) (pivotColumns answers)) →
        (⟨1, 2, #[0, 2]⟩ : DenseMatrix ℚ).ReducesCleanly (1 / 10 ^ 10)) := by
  have ht : (0 : ℚ) ≤ 1 / 10 ^ 10 := by positivity
  obtain ⟨hshape, hmatrix⟩ := reducesCleanly_exactly ht
  exact ⟨(hshape 3 1).mpr (by omega), hmatrix ⟨1, 2, #[0, 2]⟩ rfl⟩

/-- A cell that counts as zero becomes one half when its row is divided by a pivot twice as
large. -/
theorem halved_pair_not_reducesCleanly :
    ¬(⟨1, 2, #[1 / 10 ^ 10, 2 / 10 ^ 10]⟩ : DenseMatrix ℚ).ReducesCleanly (1 / 10 ^ 10) := by
  have hrun : ((⟨1, 2, #[1 / 10 ^ 10, 2 / 10 ^ 10]⟩ : DenseMatrix ℚ).reduce
      (1 / 10 ^ 10)).toOption.all (fun w => w.state.isReduced (1 / 10 ^ 10)) = false := by
    decide +kernel
  intro hclean
  obtain ⟨w, _, hw, _, hreduced, _⟩ := hclean
  rw [hw] at hrun
  change w.state.isReduced (1 / 10 ^ 10) = false at hrun
  rw [hreduced] at hrun
  cases hrun

end DenseMatrix

end GaussJordan
