import GaussJordan.Proofs.ExactInverse
import GaussJordan.Proofs.Lockstep
import GaussJordan.Proofs.PivotAgreement

namespace GaussJordan

theorem mem_pivotColumns_diagonal {count c : Nat} : c ∈ pivotColumns (diagonal count) ↔ c < count := by
  simp [pivotColumns, diagonal]

namespace DenseMatrix

variable {tolerance : ℚ} {m b inverse : DenseMatrix ℚ}

/-- Where every variable has a pivot and the right-hand side has none, the values stand in it. -/
theorem UnitColumns.classify_unique {pivots : List Nat} (h : m.UnitColumns pivots)
    (hm : m.WellFormed) (hc : 0 < m.cols) (ht : 0 ≤ tolerance) (ht' : tolerance < 1)
    (htail : m.ZeroTail tolerance pivots) (hv : m.cols - 1 ∉ pivots)
    (hfull : pivots.length = m.cols - 1) :
    m.classify tolerance = .ok (.unique m.valuesReadOff, .unique m.valuesReadOff) := by
  have hcontra := mt (h.contradicts_iff ht ht' hc htail).mp fun hshown => hv hshown.1
  have hcount := h.occupiedFrom_zero ht'
  exact classify_of_enough_rows hm hc hcontra (by omega)

theorem beside_agreesUpTo (hsq : m.IsSquare) :
    m.augmentIdentity.AgreesUpTo m.rows (m.beside b) where
  rows_eq := rfl
  le_cols := Nat.le_add_left m.rows m.cols
  le_cols' := by
    have hcols : m.cols = m.rows := hsq.symm
    rw [beside_cols]
    omega
  entry_eq r c hr hc := by
    have hcols : m.cols = m.rows := hsq.symm
    change r < m.rows at hr
    rw [entry_beside_left hr (by omega), entry_augmentIdentity_left hr (by omega)]

end DenseMatrix

open DenseMatrix in
/-- Once all pivots are taken on the diagonal, the inverse times what stood beside the matrix
stands there instead. -/
theorem PivotReach.entry_beside {tolerance : ℚ} {m b inverse : DenseMatrix ℚ} {v : Worksheet ℚ}
    (ht : 0 ≤ tolerance) (hsq : m.IsSquare)
    (reach : PivotReach tolerance (reductionSheet (m.beside b)) (diagonal m.rows) v)
    (hinverse : inverse.grid m.rows m.rows * m.grid m.rows m.rows = 1) {r c : Nat}
    (hr : r < m.rows) (hc : c < b.cols) : v.state.entry r (m.cols + c) =
      ∑ q ∈ Finset.range m.rows, inverse.entry r q * b.entry q c := by
  have hcols : m.cols = m.rows := hsq.symm
  have hvr : v.state.rows = m.rows := (reach.shape beside_wellFormed).2.1
  have hequiv : RowEquivalent m.rows (m.cols + b.cols) (m.beside b) v.state :=
    reach.rowEquivalent ht beside_wellFormed
  obtain ⟨P, _, hP⟩ := hequiv
  obtain ⟨hleft, hright⟩ := blocks_of_eq_mul hP
  have hone : P * m.grid m.rows m.rows = 1 := by
    have hunit : v.state.grid m.rows m.rows = 1 := by
      ext i j
      rw [grid_apply, (reach.pivotsTaken ht beside_wellFormed).entry_diagonal
        (by omega : i.val < v.state.rows) j.isLt, Matrix.one_apply]
      simp only [Fin.ext_iff]
    rw [hcols] at hleft
    rw [← hleft, hunit]
  have hsame : P = inverse.grid m.rows m.rows :=
    left_inv_eq_right_inv hone (mul_eq_one_comm.mp hinverse)
  have hcell := hright ⟨r, hr⟩ ⟨c, hc⟩
  rw [hsame, Matrix.mul_apply] at hcell
  rw [hcell]
  exact Fin.sum_univ_eq_sum_range (fun q => inverse.entry r q * b.entry q c) m.rows

namespace DenseMatrix

variable {tolerance : ℚ} {m b inverse : DenseMatrix ℚ} {sheet : Worksheet ℚ}

/-- If the inverse is found, then reducing the matrix with a right-hand side next to it, at the
same tolerance, gives the same solution as multiplying by the inverse. -/
theorem invert_mul_eq_reduce_classify (ht : 0 ≤ tolerance) (ht' : tolerance < 1)
    (hsq : m.IsSquare) (hn : 0 < m.rows) (hbr : b.rows = m.rows) (hbc : b.cols = 1)
    (h : m.invert tolerance = .ok (.computed inverse sheet)) :
    ∃ product w, inverse.mul b = .ok (.ok product) ∧ product.rows = m.rows ∧ product.cols = 1 ∧
      (m.beside b).reduce tolerance = .ok w ∧ w.state.classify tolerance =
        .ok (.unique ((List.range m.rows).map fun i => product.entry i 0),
          .unique ((List.range m.rows).map fun i => product.entry i 0)) := by
  have hcols : m.cols = m.rows := hsq.symm
  obtain ⟨w, reach, rfl, -⟩ := reach_of_invert_computed hsq hn h
  obtain ⟨v, _, hv, _⟩ := reach.transfer (reductionSheet (m.beside b))
    augmentIdentity_wellFormed beside_wellFormed (beside_agreesUpTo hsq) fun _ => lt_of_mem_diagonal
  obtain ⟨hvw, hvr, hvc⟩ := hv.shape beside_wellFormed
  change v.state.rows = m.rows at hvr
  change v.state.cols = m.cols + b.cols at hvc
  have hunknowns : v.state.cols - 1 = m.rows := by omega
  have hs : Settled tolerance (diagonal m.rows) v :=
    .inl (by rw [length_diagonal]; omega)
  have hu := (hv.pivotsTaken ht beside_wellFormed).toUnitColumns
  have hclassify := hu.classify_unique hvw (by omega) ht ht' (hv.zeroTail beside_wellFormed hs)
    (by rw [hunknowns, mem_pivotColumns_diagonal]; exact Nat.lt_irrefl _)
    (by rw [length_pivotColumns, length_diagonal, hunknowns])
  refine ⟨_, _, mul_of_cols_eq hbr.symm (by omega), rfl, hbc,
    reduce_of_reach beside_wellFormed hv hs, ?_⟩
  refine hclassify.trans (congrArg
    (fun values => Except.ok (SolutionReport.unique values, Event.unique values)) ?_)
  rw [valuesReadOff, hunknowns]
  refine List.map_congr_left fun i hi => ?_
  have hir := List.mem_range.mp hi
  have hvalue := hv.entry_beside ht hsq (reach.rightHalf_mul ht hsq) hir (by omega : 0 < b.cols)
  rw [Nat.add_zero, hcols] at hvalue
  rw [hvalue]
  exact Eq.symm (entry_generate _ hir (by omega))

/-- Two equations in which one coefficient counts as zero. -/
theorem invert_mul_eq_reduce_classify_negligible :
    (0 : ℚ) ≤ 1 / 10 ^ 10 ∧ (1 / 10 ^ 10 : ℚ) < 1 ∧
    (⟨2, 2, #[1, 1 / 10 ^ 11, 3, 4]⟩ : DenseMatrix ℚ).IsSquare ∧
    ∃ inverse sheet product w,
      (⟨2, 2, #[1, 1 / 10 ^ 11, 3, 4]⟩ : DenseMatrix ℚ).invert (1 / 10 ^ 10) =
        .ok (.computed inverse sheet) ∧
      inverse.mul ⟨2, 1, #[5, 6]⟩ = .ok (.ok product) ∧
      ((⟨2, 2, #[1, 1 / 10 ^ 11, 3, 4]⟩ : DenseMatrix ℚ).beside ⟨2, 1, #[5, 6]⟩).reduce
        (1 / 10 ^ 10) = .ok w ∧
      w.state.classify (1 / 10 ^ 10) = .ok (.unique [product.entry 0 0, product.entry 1 0],
        .unique [product.entry 0 0, product.entry 1 0]) := by
  have ht : (0 : ℚ) ≤ 1 / 10 ^ 10 := by norm_num
  have ht' : (1 / 10 ^ 10 : ℚ) < 1 := by norm_num
  have hsq : (⟨2, 2, #[1, 1 / 10 ^ 11, 3, 4]⟩ : DenseMatrix ℚ).IsSquare := rfl
  have hcomputed : ∃ inverse sheet,
      (⟨2, 2, #[1, 1 / 10 ^ 11, 3, 4]⟩ : DenseMatrix ℚ).invert (1 / 10 ^ 10) =
        .ok (.computed inverse sheet) := by decide +kernel
  obtain ⟨inverse, sheet, hrun⟩ := hcomputed
  obtain ⟨product, w, hproduct, _, _, hreduce, hclassify⟩ :=
    invert_mul_eq_reduce_classify (b := ⟨2, 1, #[5, 6]⟩) ht ht' hsq (by decide) rfl rfl hrun
  exact ⟨ht, ht', hsq, inverse, sheet, product, w, hrun, hproduct, hreduce, hclassify⟩

end DenseMatrix

end GaussJordan
