import GaussJordan.Proofs.Snapshots

namespace GaussJordan

namespace DenseMatrix

def applyAll {α : Type} [Scalar α] (ops : List (Operation α)) (m : DenseMatrix α) :
    Except Fault (DenseMatrix α) :=
  ops.foldlM Operation.apply m

variable {m n k : DenseMatrix ℚ} {pivots pivots' : List Nat} {c : Nat}

theorem EquivalentForm.applyAll {ops : List (Operation ℚ)} (h : m.EquivalentForm n)
    (hops : ∀ op ∈ ops, op.IsElementary) (hall : n.applyAll ops = .ok k) : m.EquivalentForm k := by
  induction ops generalizing n with
  | nil =>
    cases hall
    exact h
  | cons op ops ih =>
    rw [DenseMatrix.applyAll, List.foldlM_cons] at hall
    obtain ⟨v, hv, hrest⟩ := exists_of_bind_ok hall
    exact ih (h.apply (hops op List.mem_cons_self) hv)
      (fun o ho => hops o (List.mem_cons_of_mem op ho)) hrest

/-- A relation between the columns of a matrix is one between those of an equivalent matrix. -/
theorem RowEquivalent.sum_eq_zero {rows cols : Nat} (h : RowEquivalent rows cols m n)
    {x : Nat → ℚ} (hx : ∀ r, r < rows → ∑ d ∈ Finset.range cols, m.entry r d * x d = 0) {r : Nat}
    (hr : r < rows) : ∑ d ∈ Finset.range cols, n.entry r d * x d = 0 := by
  have hsum : ∀ (k : DenseMatrix ℚ) (r : Fin rows),
      (k.grid rows cols).mulVec (fun d => x d) r =
        ∑ d ∈ Finset.range cols, k.entry r d * x d := by
    intro k r
    exact Fin.sum_univ_eq_sum_range (fun d => k.entry r d * x d) cols
  have hm : (m.grid rows cols).mulVec (fun d => x d) = 0 := by
    funext r
    rw [hsum]
    exact hx r r.isLt
  have hrow := congrFun (h.mulVec_eq_zero hm) ⟨r, hr⟩
  rwa [hsum] at hrow

theorem UnitColumns.spread_eq_zero (h : m.UnitColumns pivots) (hs : m.NoStray 0 pivots)
    (hc : c < m.cols) (hmem : c ∉ pivots) {d : Nat} (hcd : c ≤ d) :
    spread pivots (fun i => m.entry i c) d = 0 := by
  unfold spread
  split
  next hd =>
    have hlt := List.idxOf_lt_length_of_mem hd
    have hi : pivots[pivots.idxOf d]? = some d := by
      rw [List.getElem?_eq_getElem hlt, List.getElem_idxOf hlt]
    have hne : c ≠ d := fun heq => hmem (heq ▸ hd)
    refine isZero_zero_iff.mp (hs _ c (h.lt_rows hi) hc fun q hq => ?_)
    rw [hi] at hq
    cases hq
    omega
  next => rfl

/-- A column without a pivot is a combination of the pivot columns before it, with coefficients
that stand in the column itself. So it is the same in an equivalent matrix if those are. -/
theorem UnitColumns.entry_eq_of_notMem (h : m.UnitColumns pivots) (hs : m.NoStray 0 pivots)
    (hequiv : RowEquivalent m.rows m.cols m n) (hc : c < m.cols) (hmem : c ∉ pivots)
    (hbefore : ∀ d, d < c → ∀ r, r < m.rows → m.entry r d = n.entry r d) {r : Nat}
    (hr : r < m.rows) : m.entry r c = n.entry r c := by
  -- the relation carried over to the other matrix: the column minus that combination
  have hsum : ∀ (k : DenseMatrix ℚ) r,
      ∑ d ∈ Finset.range m.cols, k.entry r d *
        ((if c = d then 1 else 0) - spread pivots (fun i => m.entry i c) d) =
      k.entry r c - ∑ d ∈ Finset.range m.cols,
        k.entry r d * spread pivots (fun i => m.entry i c) d := by
    intro k r
    simp only [mul_sub, Finset.sum_sub_distrib, mul_ite, mul_one, mul_zero]
    rw [Finset.sum_ite_eq, if_pos (Finset.mem_range.mpr hc)]
  have hcombination : ∀ r, r < m.rows → ∑ d ∈ Finset.range m.cols,
      m.entry r d * spread pivots (fun i => m.entry i c) d = m.entry r c := by
    intro r hr
    rw [h.sum_spread _ hr h.lt_cols]
    split
    next => rfl
    next hrow => exact (hs.row_eq_zero hr hc hrow).symm
  have hn := hequiv.sum_eq_zero (fun r hr => by rw [hsum, hcombination r hr, sub_self]) hr
  rw [hsum, sub_eq_zero] at hn
  rw [hn, ← hcombination r hr]
  apply Finset.sum_congr rfl
  intro d _
  rcases Nat.lt_or_ge d c with hlt | hle
  · rw [hbefore d hlt r hr]
  · rw [h.spread_eq_zero hs hc hmem hle, mul_zero, mul_zero]

/-- A pivot column cannot stand for an earlier row than in a matrix with the same columns left of
it: the pivot of that row there would be a stray cell here. -/
theorem UnitColumns.not_lt_of_before (h : n.UnitColumns pivots') (hs : m.NoStray 0 pivots)
    (hrows : n.rows = m.rows) (hcols : n.cols = m.cols) {i j : Nat} (hi : pivots[i]? = some c)
    (hj : pivots'[j]? = some c)
    (hbefore : ∀ d, d < c → ∀ r, r < m.rows → m.entry r d = n.entry r d) : ¬i < j := by
  intro hlt
  obtain ⟨hjl, hjc⟩ := List.getElem?_eq_some_iff.mp hj
  have hil : i < pivots'.length := by omega
  have hq : pivots'[i]? = some pivots'[i] := List.getElem?_eq_getElem hil
  have hqc := List.pairwise_iff_getElem.mp h.sorted i j hil hjl hlt
  rw [hjc] at hqc
  have hir : i < m.rows := by
    rw [← hrows]
    exact h.lt_rows hq
  have hone : n.entry i pivots'[i] = 1 := by rw [h.unit i _ hq i (h.lt_rows hq), if_pos rfl]
  have hzero : m.entry i pivots'[i] = 0 := by
    refine isZero_zero_iff.mp (hs i _ hir ?_ fun q hq' => ?_)
    · rw [← hcols]
      exact h.lt_cols_of_get hq
    · rw [hi] at hq'
      cases hq'
      exact hqc
  rw [hbefore _ hqc i hir, hone] at hzero
  exact one_ne_zero hzero

theorem UnitColumns.entry_eq (h : m.UnitColumns pivots) (hs : m.NoStray 0 pivots)
    (h' : n.UnitColumns pivots') (hs' : n.NoStray 0 pivots') (hm : m.WellFormed)
    (hequiv : m.EquivalentForm n) (hc : c < m.cols) {r : Nat} (hr : r < m.rows) :
    m.entry r c = n.entry r c := by
  have hrows := hequiv.rows_eq
  have hcols := hequiv.cols_eq
  -- column by column: a column is settled by those left of it, whether it has a pivot or not
  induction c using Nat.strong_induction_on generalizing r with
  | _ c ih =>
    have hbefore : ∀ d, d < c → ∀ r, r < m.rows → m.entry r d = n.entry r d :=
      fun d hd r hr => ih d hd (by omega) hr
    have hbefore' : ∀ d, d < c → ∀ r, r < n.rows → n.entry r d = m.entry r d :=
      fun d hd r hr => (ih d hd (by omega) (by omega)).symm
    by_cases hmem : c ∈ pivots
    · by_cases hmem' : c ∈ pivots'
      · obtain ⟨i, hi⟩ := List.getElem?_of_mem hmem
        obtain ⟨j, hj⟩ := List.getElem?_of_mem hmem'
        have hij := h'.not_lt_of_before hs hrows hcols hi hj hbefore
        have hji := h.not_lt_of_before hs' hrows.symm hcols.symm hj hi hbefore'
        obtain rfl : i = j := by omega
        rw [h.unit i c hi r hr, h'.unit i c hj r (by omega)]
      · have hback := (hequiv.symm hm).rowEquivalent
        exact (h'.entry_eq_of_notMem hs' hback (by omega) hmem' hbefore' (by omega)).symm
    · exact h.entry_eq_of_notMem hs hequiv.rowEquivalent hc hmem hbefore hr

/-- Equivalent matrices with unit columns and nothing left of them are equal. -/
theorem UnitColumns.eq_of_equivalentForm (h : m.UnitColumns pivots) (hs : m.NoStray 0 pivots)
    (h' : n.UnitColumns pivots') (hs' : n.NoStray 0 pivots') (hm : m.WellFormed)
    (hequiv : m.EquivalentForm n) : m = n :=
  ext_entry hm hequiv.wellFormed hequiv.rows_eq.symm hequiv.cols_eq.symm fun _ _ hr hc =>
    h.entry_eq hs h' hs' hm hequiv hc hr

theorem reduce_zero_spec (hm : m.WellFormed) :
    ∃ w pivots, m.reduce 0 = .ok w ∧ m.EquivalentForm w.state ∧ w.state.UnitColumns pivots ∧
      w.state.NoStray 0 pivots := by
  obtain ⟨answers, w, hrun, reach, hsettled⟩ := reduce_reach (0 : ℚ) hm
  have hform := (reach.equivalentForm (le_refl 0) hm (by simp)).1
  have hu := (reach.pivotsTaken (le_refl 0) hm).toUnitColumns
  have hs := reach.noStray hm hsettled
  exact ⟨_, pivotColumns answers, hrun, hform, hu, hs⟩

/-- The same reduced matrix, and the same report on it. -/
def ReducesAlike (m n : DenseMatrix ℚ) : Prop :=
  ∃ w w', m.reduce 0 = .ok w ∧ n.reduce 0 = .ok w' ∧ w.state = w'.state ∧
    w.state.classify 0 = w'.state.classify 0

theorem reducesAlike_iff (hm : m.WellFormed) (hn : n.WellFormed) :
    m.ReducesAlike n ↔ m.EquivalentForm n := by
  obtain ⟨w, pivots, hrun, hform, hu, hs⟩ := reduce_zero_spec hm
  obtain ⟨w', pivots', hrun', hform', hu', hs'⟩ := reduce_zero_spec hn
  constructor
  · rintro ⟨v, v', hv, hv', heq, _⟩
    rw [hrun] at hv
    cases hv
    rw [hrun'] at hv'
    cases hv'
    rw [heq] at hform
    exact hform.trans (hform'.symm hn)
  · intro hmn
    have hend : w.state.EquivalentForm w'.state := (hform.symm hm).trans (hmn.trans hform')
    have hsame := hu.eq_of_equivalentForm hs hu' hs' hform.wellFormed hend
    exact ⟨w, w', hrun, hrun', hsame, congrArg (DenseMatrix.classify 0) hsame⟩

/-- The reduced matrix stands for its whole class: matrices of one shape reduce to the same matrix
exactly when one is an invertible matrix times the other, and elementary operations, in any number
and order, do not change it. -/
theorem reduce_zero_canonical (hm : m.WellFormed) :
    (∀ n, n.WellFormed → n.rows = m.rows → n.cols = m.cols →
      (m.ReducesAlike n ↔ RowEquivalent m.rows m.cols m n)) ∧
    ∀ ops n, (∀ op ∈ ops, op.IsElementary) → m.applyAll ops = .ok n → m.ReducesAlike n := by
  refine ⟨fun n hn hrows hcols => ?_, fun ops n hops hall => ?_⟩
  · rw [reducesAlike_iff hm hn]
    exact ⟨fun h => h.rowEquivalent, fun h => ⟨hn, hrows, hcols, h⟩⟩
  · have hform := (EquivalentForm.refl hm).applyAll hops hall
    exact (reducesAlike_iff hm hform.wellFormed).mpr hform

/-- Two matrices that take a different number of steps to the same reduced matrix. -/
theorem reduce_zero_canonical_exchanged :
    (⟨2, 3, #[0, 2, 4, 1, 1, 3]⟩ : DenseMatrix ℚ).WellFormed ∧
    (⟨2, 3, #[0, 2, 4, 1, 1, 3]⟩ : DenseMatrix ℚ).ReducesAlike ⟨2, 3, #[2, 2, 6, 4, 6, 16]⟩ ∧
    RowEquivalent 2 3 ⟨2, 3, #[0, 2, 4, 1, 1, 3]⟩ ⟨2, 3, #[2, 2, 6, 4, 6, 16]⟩ ∧
    ((⟨2, 3, #[0, 2, 4, 1, 1, 3]⟩ : DenseMatrix ℚ).reduce 0).toOption.map
      (fun w => w.log.size) = some 5 ∧
    ((⟨2, 3, #[2, 2, 6, 4, 6, 16]⟩ : DenseMatrix ℚ).reduce 0).toOption.map
      (fun w => w.log.size) = some 4 := by
  have hm : (⟨2, 3, #[0, 2, 4, 1, 1, 3]⟩ : DenseMatrix ℚ).WellFormed := rfl
  have hn : (⟨2, 3, #[2, 2, 6, 4, 6, 16]⟩ : DenseMatrix ℚ).WellFormed := rfl
  have hops : ∀ op ∈ ([.swap 0 1, .scale 0 (1 / 2), .eliminate 1 0 (-2)] : List (Operation ℚ)),
      op.IsElementary := by
    simp [Operation.IsElementary]
  have hall : (⟨2, 3, #[0, 2, 4, 1, 1, 3]⟩ : DenseMatrix ℚ).applyAll
      [.swap 0 1, .scale 0 (1 / 2), .eliminate 1 0 (-2)] =
        .ok ⟨2, 3, #[2, 2, 6, 4, 6, 16]⟩ := by
    cbv
  obtain ⟨hequivalent, hreached⟩ := reduce_zero_canonical hm
  have halike := hreached _ _ hops hall
  exact ⟨hm, halike, (hequivalent _ hn rfl rfl).mp halike, by decide +kernel, by decide +kernel⟩

end DenseMatrix

end GaussJordan
