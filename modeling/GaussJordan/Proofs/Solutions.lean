import Mathlib.Algebra.BigOperators.Fin
import GaussJordan.Proofs.PivotAgreement
import GaussJordan.Proofs.RowEquivalence

namespace GaussJordan

/-- A report that tells how many solutions there are, and which if there is one. -/
def SolutionReport.Decides (report : SolutionReport ℚ) (solves : List ℚ → Prop) : Prop :=
  (report = .noSolution ↔ ∀ x, ¬solves x) ∧
  (∀ values, report = .unique values ↔ ∀ x, solves x ↔ x = values) ∧
  (report = .infinite ↔ ∃ x y, x ≠ y ∧ solves x ∧ solves y)

section Decides

variable {solves : List ℚ → Prop}

theorem noSolution_decides (h : ∀ x, ¬solves x) : SolutionReport.noSolution.Decides solves := by
  refine ⟨⟨fun _ => h, fun _ => rfl⟩, fun values => ⟨fun hr => ?_, fun hall => ?_⟩,
    ⟨fun hr => ?_, fun htwo => ?_⟩⟩
  · cases hr
  · exact absurd ((hall values).mpr rfl) (h values)
  · cases hr
  · obtain ⟨x, _, _, hx, _⟩ := htwo
    exact absurd hx (h x)

theorem unique_decides {values : List ℚ} (h : ∀ x, solves x ↔ x = values) :
    (SolutionReport.unique values).Decides solves := by
  have hvalues : solves values := (h values).mpr rfl
  refine ⟨⟨fun hr => ?_, fun hnone => absurd hvalues (hnone values)⟩,
    fun values' => ⟨fun hr => ?_, fun hall => ?_⟩, ⟨fun hr => ?_, fun htwo => ?_⟩⟩
  · cases hr
  · cases hr
    exact h
  · rw [(hall values).mp hvalues]
  · cases hr
  · obtain ⟨x, y, hne, hx, hy⟩ := htwo
    exact absurd (((h x).mp hx).trans ((h y).mp hy).symm) hne

theorem infinite_decides (h : ∃ x y, x ≠ y ∧ solves x ∧ solves y) :
    SolutionReport.infinite.Decides solves := by
  obtain ⟨x, y, hne, hx, hy⟩ := h
  refine ⟨⟨fun hr => ?_, fun hnone => absurd hx (hnone x)⟩,
    fun values => ⟨fun hr => ?_, fun hall => ?_⟩, ⟨fun _ => ⟨x, y, hne, hx, hy⟩, fun _ => rfl⟩⟩
  · cases hr
  · cases hr
  · exact absurd (((hall x).mp hx).trans ((hall y).mp hy).symm) hne

theorem SolutionReport.Decides.congr {report : SolutionReport ℚ} {solves' : List ℚ → Prop}
    (h : report.Decides solves) (heq : ∀ x, solves x ↔ solves' x) : report.Decides solves' := by
  have hsame : solves = solves' := funext fun x => propext (heq x)
  rwa [← hsame]

end Decides

namespace DenseMatrix

variable {m n : DenseMatrix ℚ}

/-- The equations of an augmented matrix hold when its variables have these values. -/
def Satisfies (m : DenseMatrix ℚ) (x : Nat → ℚ) : Prop :=
  ∀ r, r < m.rows →
    ∑ c ∈ Finset.range (m.cols - 1), m.entry r c * x c = m.entry r (m.cols - 1)

/-- One value for each variable, with which the equations hold. -/
def IsSolution (m : DenseMatrix ℚ) (x : List ℚ) : Prop :=
  x.length = m.cols - 1 ∧ m.Satisfies fun c => x.getD c 0

/-- The values of the variables, and minus one for the right-hand side: what the rows of the whole
matrix take to zero when the equations hold. -/
def homogeneous (cols : Nat) (x : Nat → ℚ) (c : Fin cols) : ℚ :=
  if c.val < cols - 1 then x c else -1

theorem grid_mulVec_homogeneous {rows cols : Nat} (hc : 0 < cols) (x : Nat → ℚ) (r : Fin rows) :
    (m.grid rows cols).mulVec (homogeneous cols x) r =
      ∑ c ∈ Finset.range (cols - 1), m.entry r c * x c - m.entry r (cols - 1) := by
  obtain ⟨unknowns, rfl⟩ := Nat.exists_eq_succ_of_ne_zero (Nat.ne_of_gt hc)
  change ∑ c : Fin (unknowns + 1), m.entry r c * (if c.val < unknowns then x c else -1) = _
  rw [Fin.sum_univ_eq_sum_range
    (fun c => m.entry r c * (if c < unknowns then x c else -1)) (unknowns + 1),
    Finset.sum_range_succ, if_neg (Nat.lt_irrefl unknowns), mul_neg_one, ← sub_eq_add_neg]
  congr 1
  apply Finset.sum_congr rfl
  intro c hcu
  rw [if_pos (Finset.mem_range.mp hcu)]

theorem satisfies_iff_mulVec (hc : 0 < m.cols) (x : Nat → ℚ) :
    m.Satisfies x ↔ (m.grid m.rows m.cols).mulVec (homogeneous m.cols x) = 0 := by
  constructor
  · intro h
    funext r
    rw [grid_mulVec_homogeneous hc, h r r.isLt, sub_self]
    rfl
  · intro h r hr
    have hrow := congrFun h ⟨r, hr⟩
    rw [grid_mulVec_homogeneous hc] at hrow
    exact sub_eq_zero.mp hrow

theorem RowEquivalent.satisfies_iff (h : RowEquivalent m.rows m.cols m n)
    (hrows : n.rows = m.rows) (hcols : n.cols = m.cols) (hc : 0 < m.cols) (x : Nat → ℚ) :
    m.Satisfies x ↔ n.Satisfies x := by
  have hn : n.Satisfies x ↔
      (n.grid m.rows m.cols).mulVec (homogeneous m.cols x) = 0 := by
    have hn := satisfies_iff_mulVec (m := n) (by rwa [hcols]) x
    rwa [hrows, hcols] at hn
  rw [satisfies_iff_mulVec hc, hn]
  exact ⟨h.mulVec_eq_zero, h.symm.mulVec_eq_zero⟩

variable {pivots : List Nat} {r : Nat}

/-- Values for the variables of the pivot columns, in order, and zero for the others. -/
def spread (pivots : List Nat) (y : Nat → ℚ) (c : Nat) : ℚ :=
  if c ∈ pivots then y (pivots.idxOf c) else 0

theorem UnitColumns.entry_mul_spread (h : m.UnitColumns pivots) (y : Nat → ℚ) (hr : r < m.rows)
    (c : Nat) : m.entry r c * spread pivots y c = if pivots[r]? = some c then y r else 0 := by
  unfold spread
  split
  next hmem =>
    have hlt := List.idxOf_lt_length_of_mem hmem
    have hi : pivots[pivots.idxOf c]? = some c := by
      rw [List.getElem?_eq_getElem hlt, List.getElem_idxOf hlt]
    rw [h.unit _ c hi r hr]
    by_cases hrow : r = pivots.idxOf c
    · rw [if_pos hrow, one_mul, ← hrow, if_pos (by rw [hrow, hi])]
    · have hne : pivots[r]? ≠ some c := by
        intro hget
        obtain ⟨hrl, rfl⟩ := List.getElem?_eq_some_iff.mp hget
        have hnodup : pivots.Nodup := h.sorted.imp Nat.ne_of_lt
        exact hrow (hnodup.idxOf_getElem r hrl).symm
      rw [if_neg hrow, if_neg hne, zero_mul]
  next hmem =>
    have hne : pivots[r]? ≠ some c := fun hget => hmem (List.mem_of_getElem? hget)
    rw [if_neg hne, mul_zero]

/-- A combination of unit columns has the given values in their rows. -/
theorem UnitColumns.sum_spread (h : m.UnitColumns pivots) (y : Nat → ℚ) (hr : r < m.rows)
    {count : Nat} (hcount : ∀ q ∈ pivots, q < count) :
    ∑ c ∈ Finset.range count, m.entry r c * spread pivots y c =
      if r < pivots.length then y r else 0 := by
  have hterms : ∑ c ∈ Finset.range count, m.entry r c * spread pivots y c =
      ∑ c ∈ Finset.range count, if pivots[r]? = some c then y r else 0 := by
    apply Finset.sum_congr rfl
    intro c _
    exact h.entry_mul_spread y hr c
  rw [hterms]
  split
  next hlt =>
    have hq : pivots[r] ∈ Finset.range count :=
      Finset.mem_range.mpr (hcount _ (List.getElem_mem hlt))
    rw [List.getElem?_eq_getElem hlt]
    simp only [Option.some.injEq]
    rw [Finset.sum_ite_eq, if_pos hq]
  next hlt =>
    rw [List.getElem?_eq_none (by omega)]
    simp

theorem NoStray.row_eq_zero (hs : m.NoStray 0 pivots) (hr : r < m.rows) {c : Nat}
    (hc : c < m.cols) (hrow : ¬r < pivots.length) : m.entry r c = 0 :=
  isZero_zero_iff.mp (hs.row_isZero hr hc (Nat.le_of_not_lt hrow))

theorem UnitColumns.satisfies_spread (h : m.UnitColumns pivots) (hs : m.NoStray 0 pivots)
    (hc : 0 < m.cols) (hv : m.cols - 1 ∉ pivots) :
    m.Satisfies (spread pivots fun i => m.entry i (m.cols - 1)) := by
  intro r hr
  rw [h.sum_spread _ hr (h.lt_unknowns hv)]
  split
  next => rfl
  next hrow => exact (hs.row_eq_zero hr (by omega) hrow).symm

/-- Where a variable has no pivot, it can be one as well. -/
theorem UnitColumns.satisfies_shifted (h : m.UnitColumns pivots) (hs : m.NoStray 0 pivots)
    (hv : m.cols - 1 ∉ pivots) {free : Nat} (hfree : free < m.cols - 1) :
    m.Satisfies fun c => (if free = c then 1 else 0) +
      spread pivots (fun i => m.entry i (m.cols - 1) - m.entry i free) c := by
  intro r hr
  simp only [mul_add, Finset.sum_add_distrib, mul_ite, mul_one, mul_zero]
  rw [Finset.sum_ite_eq, if_pos (Finset.mem_range.mpr hfree),
    h.sum_spread _ hr (h.lt_unknowns hv)]
  split
  next => exact add_sub_cancel _ _
  next hrow =>
    rw [hs.row_eq_zero hr (by omega) hrow, hs.row_eq_zero hr (by omega) hrow, add_zero]

theorem exists_free {count : Nat} (hlt : pivots.length < count) :
    ∃ free, free < count ∧ free ∉ pivots := by
  by_contra hnone
  have hsub : List.range count ⊆ pivots := by
    intro c hc
    by_contra hmem
    exact hnone ⟨c, List.mem_range.mp hc, hmem⟩
  have hle := (List.nodup_range.subperm hsub).length_le
  rw [List.length_range] at hle
  omega

theorem getD_map_range (g : Nat → ℚ) {count c : Nat} (hc : c < count) :
    ((List.range count).map g).getD c 0 = g c := by
  simp [List.getD, hc]

theorem isSolution_of_satisfies {x : Nat → ℚ} (h : m.Satisfies x) :
    m.IsSolution ((List.range (m.cols - 1)).map x) := by
  refine ⟨by simp, fun r hr => ?_⟩
  rw [← h r hr]
  apply Finset.sum_congr rfl
  intro c hc
  change m.entry r c * ((List.range (m.cols - 1)).map x).getD c 0 = _
  rw [getD_map_range x (Finset.mem_range.mp hc)]

theorem UnitColumns.not_satisfies (h : m.UnitColumns pivots) (hs : m.NoStray 0 pivots)
    (hv : m.cols - 1 ∈ pivots) (x : Nat → ℚ) : ¬m.Satisfies x := by
  intro hx
  have hq := h.getElem?_of_rightHandSide hv
  have hr := h.lt_rows hq
  have hsum := hx _ hr
  have hzero : ∑ c ∈ Finset.range (m.cols - 1), m.entry (pivots.length - 1) c * x c = 0 := by
    apply Finset.sum_eq_zero
    intro c hc
    have hz := h.isZero_of_rightHandSide hs hv (Finset.mem_range.mp hc)
    rw [isZero_zero_iff.mp hz, zero_mul]
  rw [hzero, h.unit _ _ hq _ hr, if_pos rfl] at hsum
  exact zero_ne_one hsum

theorem UnitColumns.getElem?_of_full (h : m.UnitColumns pivots) (hv : m.cols - 1 ∉ pivots)
    (hfull : pivots.length = m.cols - 1) {c : Nat} (hc : c < m.cols - 1) :
    pivots[c]? = some c := by
  have hclt : c < pivots.length := by omega
  have hlast : pivots.length - 1 < pivots.length := by omega
  have hlow := getElem_gap h.sorted (Nat.zero_le c) hclt
  have hhigh := getElem_gap h.sorted (Nat.le_sub_one_of_lt hclt) hlast
  have hend := h.lt_unknowns hv _ (List.getElem_mem hlast)
  have hget : pivots[c] = c := by omega
  rw [List.getElem?_eq_getElem hclt, hget]

theorem UnitColumns.isSolution_iff (h : m.UnitColumns pivots) (hs : m.NoStray 0 pivots)
    (hv : m.cols - 1 ∉ pivots) (hc : 0 < m.cols) (hfull : pivots.length = m.cols - 1)
    (x : List ℚ) : m.IsSolution x ↔ x = m.valuesReadOff := by
  have hsum : ∀ (y : Nat → ℚ) r, r < m.rows →
      ∑ c ∈ Finset.range (m.cols - 1), m.entry r c * y c = if r < m.cols - 1 then y r else 0 := by
    intro y r hr
    have hterms : ∀ c ∈ Finset.range (m.cols - 1),
        m.entry r c * y c = if r = c then y c else 0 := by
      intro c hcu
      rw [h.unit c c (h.getElem?_of_full hv hfull (Finset.mem_range.mp hcu)) r hr, ite_mul,
        one_mul, zero_mul]
    rw [Finset.sum_congr rfl hterms, Finset.sum_ite_eq]
    simp only [Finset.mem_range]
  constructor
  · intro hx
    obtain ⟨hlen, hrows⟩ := hx
    rw [valuesReadOff]
    apply List.ext_getElem
    · simpa using hlen
    · intro i hi hi'
      have hiu : i < m.cols - 1 := by omega
      have hir : i < m.rows := h.lt_rows (h.getElem?_of_full hv hfull hiu)
      have hrow := hrows i hir
      rw [hsum _ i hir, if_pos hiu] at hrow
      rw [List.getElem_map, List.getElem_range, ← hrow]
      simp [hi]
  · intro hx
    rw [hx]
    apply isSolution_of_satisfies
    intro r hr
    rw [hsum _ r hr]
    split
    next => rfl
    next hrow => exact (hs.row_eq_zero hr (by omega) (by omega)).symm

theorem UnitColumns.exists_two_solutions (h : m.UnitColumns pivots) (hs : m.NoStray 0 pivots)
    (hv : m.cols - 1 ∉ pivots) (hc : 0 < m.cols) (hlt : pivots.length < m.cols - 1) :
    ∃ x y, x ≠ y ∧ m.IsSolution x ∧ m.IsSolution y := by
  obtain ⟨free, hfree, hmem⟩ := exists_free hlt
  refine ⟨_, _, ?_, isSolution_of_satisfies (h.satisfies_spread hs hc hv),
    isSolution_of_satisfies (h.satisfies_shifted hs hv hfree)⟩
  intro heq
  have hat := congrArg (fun x : List ℚ => x.getD free 0) heq
  change List.getD _ free 0 = List.getD _ free 0 at hat
  rw [getD_map_range _ hfree, getD_map_range _ hfree] at hat
  simp [spread, hmem] at hat

theorem UnitColumns.classify_decides (h : m.UnitColumns pivots) (hs : m.NoStray 0 pivots)
    (hm : m.WellFormed) (hc : 0 < m.cols) :
    ∃ report verdict, m.classify 0 = .ok (report, verdict) ∧ report.Decides m.IsSolution := by
  have hcount := h.occupiedFrom_zero one_pos
  rw [hs.occupiedFrom_eq_zero, Nat.add_zero] at hcount
  have hcontra := h.contradicts_iff (le_refl 0) one_pos hc hs.zeroTail
  by_cases hv : m.cols - 1 ∈ pivots
  · have hshown := hcontra.mpr ⟨hv, fun c hcu => h.isZero_of_rightHandSide hs hv hcu⟩
    refine ⟨_, _, classify_of_contradiction hm hc hshown, ?_⟩
    exact noSolution_decides fun x hx => h.not_satisfies hs hv _ hx.2
  · have hnone := mt hcontra.mp fun hshown => hv hshown.1
    by_cases hlt : pivots.length < m.cols - 1
    · refine ⟨_, _, classify_of_few_rows hm hc hnone (by omega), ?_⟩
      exact infinite_decides (h.exists_two_solutions hs hv hc hlt)
    · have hle := h.length_le_unknowns hv
      refine ⟨_, _, classify_of_enough_rows hm hc hnone (by omega), ?_⟩
      exact unique_decides (h.isSolution_iff hs hv hc (by omega))

/-- Without tolerance, the report on the reduced matrix tells the solutions of the equations that
were given. -/
theorem reduce_classify_decides (hm : m.WellFormed) (hc : 0 < m.cols) :
    ∃ w report verdict, m.reduce 0 = .ok w ∧ w.state.classify 0 = .ok (report, verdict) ∧
      report.Decides m.IsSolution := by
  obtain ⟨answers, w, hrun, reach, hs⟩ := reduce_reach (0 : ℚ) hm
  obtain ⟨hw, hrows, hcols⟩ := reach.shape hm
  change w.state.rows = m.rows at hrows
  change w.state.cols = m.cols at hcols
  have hu := (reach.pivotsTaken (le_refl 0) hm).toUnitColumns
  obtain ⟨report, verdict, hclassify, hdecides⟩ :=
    hu.classify_decides (reach.noStray hm hs) hw (by rwa [hcols])
  refine ⟨_, report, verdict, hrun, hclassify, hdecides.congr fun x => ?_⟩
  have hequiv : RowEquivalent m.rows m.cols m w.state := reach.rowEquivalent (le_refl 0) hm
  rw [IsSolution, IsSolution, hcols, hequiv.satisfies_iff hrows hcols hc]

theorem reduce_classify_decides_redundant :
    (⟨3, 3, #[1, 1, 3, 2, 2, 6, 1, -1, 1]⟩ : DenseMatrix ℚ).WellFormed ∧
    ∃ w report verdict,
      (⟨3, 3, #[1, 1, 3, 2, 2, 6, 1, -1, 1]⟩ : DenseMatrix ℚ).reduce 0 = .ok w ∧
      w.state.classify 0 = .ok (report, verdict) ∧
      report.Decides (⟨3, 3, #[1, 1, 3, 2, 2, 6, 1, -1, 1]⟩ : DenseMatrix ℚ).IsSolution := by
  have hm : (⟨3, 3, #[1, 1, 3, 2, 2, 6, 1, -1, 1]⟩ : DenseMatrix ℚ).WellFormed := rfl
  exact ⟨hm, reduce_classify_decides hm (by decide)⟩

end DenseMatrix

end GaussJordan
