import GaussJordan.Proofs.ColumnCuts
import GaussJordan.Proofs.Replay

namespace GaussJordan

variable {α : Type} [Scalar α] {arith : IndexArithmetic}

namespace Operation

/-- An operation as it is done on the flat cells of a matrix. -/
def applyFlat (arith : IndexArithmetic) (m : DenseMatrix α) :
    Operation α → Except Fault (DenseMatrix α)
  | .augment => m.flatAugmentIdentity arith
  | .swap first second => m.flatSwapRows arith first second
  | .scale row factor => m.flatScaleRow arith row factor
  | .eliminate target source factor => m.flatSubtractScaledRow arith target source factor
  | .assign row col value => m.write arith row col value

variable {op : Operation α} {m n : DenseMatrix α}

/-- An operation takes away no row and no column. -/
theorem size_le_of_apply (h : op.apply m = .ok n) : m.rows ≤ n.rows ∧ m.cols ≤ n.cols := by
  by_cases hop : op = .augment
  · cases hop
    cases h
    exact ⟨Nat.le_refl _, Nat.le_add_right _ _⟩
  · have hkeeps := apply_keepsShape hop h
    exact ⟨Nat.le_of_eq hkeeps.rows_eq.symm, Nat.le_of_eq hkeeps.cols_eq.symm⟩

/-- If the outcome of an operation can be counted, the operation has it on flat cells, too. -/
theorem applyFlat_of_apply (hm : m.WellFormed) (hr : 0 < m.rows) (hc : 0 < m.cols)
    (h : op.apply m = .ok n) (hfit : arith.Holds (n.rows * n.cols)) :
    op.applyFlat arith m = .ok n := by
  obtain ⟨hrows, hcols⟩ := size_le_of_apply h
  have hstored : m.StoredIn arith := ⟨hm, hfit.mono (Nat.mul_le_mul hrows hcols)⟩
  cases op with
  | augment =>
    cases h
    exact DenseMatrix.flatAugmentIdentity_eq hm
      (hfit.mono (Nat.le_mul_of_pos_left (m.cols + m.rows) hr)) hfit
  | swap first second =>
    rcases DenseMatrix.swapRows_cases h with ⟨rfl, hkept⟩ | ⟨hfirst, hsecond, _⟩
    · exact if_pos (hkept.resolve_right (Nat.ne_of_gt hc))
    · exact (DenseMatrix.flatSwapRows_eq hstored hfirst hsecond).trans h
  | scale row factor =>
    rcases DenseMatrix.scaleRow_cases h with ⟨_, hnone⟩ | ⟨hrow, _⟩
    · omega
    · exact (DenseMatrix.flatScaleRow_eq hstored hrow (hstored.holds_next hrow hc) factor).trans h
  | eliminate target source factor =>
    rcases DenseMatrix.subtractScaledRow_cases h with ⟨_, hnone⟩ | ⟨hsource, htarget, _⟩
    · omega
    · exact (DenseMatrix.flatSubtractScaledRow_eq hstored htarget hsource factor).trans h
  | assign row col value =>
    change m.setCell row col value = .ok n at h
    change m.write arith row col value = .ok n
    unfold DenseMatrix.setCell at h
    split at h
    next hin =>
      rw [DenseMatrix.write_eq_written hstored hin.1 hin.2]
      rwa [DenseMatrix.write_eq_written (.of_wellFormed hm) hin.1 hin.2] at h
    next => cases h

end Operation

namespace Replays

variable {style : TraceStyle} {m last : DenseMatrix α} {steps : List (Step α)}

theorem size_le (h : Replays style m steps last) : m.rows ≤ last.rows ∧ m.cols ≤ last.cols := by
  induction h with
  | done => exact ⟨Nat.le_refl _, Nat.le_refl _⟩
  | step happly _ ih =>
    obtain ⟨hrows, hcols⟩ := Operation.size_le_of_apply happly
    exact ⟨Nat.le_trans hrows ih.1, Nat.le_trans hcols ih.2⟩

theorem wellFormed (h : Replays style m steps last) (hm : m.WellFormed) : last.WellFormed := by
  induction h with
  | done => exact hm
  | step happly _ ih => exact ih (Operation.apply_wellFormed hm happly)

/-- What can be replayed can be replayed on flat cells: none of the matrices on the way has more
cells than the last. -/
theorem applyFlat (h : Replays style m steps last) (hm : m.WellFormed) (hr : 0 < m.rows)
    (hc : 0 < m.cols) (hfit : arith.Holds (last.rows * last.cols)) :
    (steps.map Step.operation).foldlM (Operation.applyFlat arith) m = .ok last := by
  induction h with
  | done => rfl
  | step happly hrest ih =>
    obtain ⟨hrows, hcols⟩ := Operation.size_le_of_apply happly
    obtain ⟨hrows', hcols'⟩ := hrest.size_le
    have hnext := Operation.applyFlat_of_apply hm hr hc happly
      (hfit.mono (Nat.mul_le_mul hrows' hcols'))
    rw [List.map_cons, List.foldlM_cons, hnext, bind_ok]
    exact ih (Operation.apply_wellFormed hm happly) (Nat.lt_of_lt_of_le hr hrows)
      (Nat.lt_of_lt_of_le hc hcols) hfit

end Replays

/-- The operations of a trace, done one after the other on flat cells. -/
def TraceLog.replayFlat (arith : IndexArithmetic) (log : TraceLog α) (m : DenseMatrix α) :
    Except Fault (DenseMatrix α) := log.operations.foldlM (Operation.applyFlat arith) m

/-- Every trace is also a derivation on flat cells. If the arithmetic holds the number of cells of
the last matrix, then no index on the way is another than it would be without a limit. -/
theorem DenseMatrix.traces_replayFlat (arith : IndexArithmetic) (tolerance : α) {m : DenseMatrix α}
    (hm : m.WellFormed) (hr : 0 < m.rows) (hc : 0 < m.cols) :
    (∃ w, m.reduce tolerance = .ok w ∧
      (arith.Holds (w.state.rows * w.state.cols) → w.log.replayFlat arith m = .ok w.state)) ∧
    (∃ w, m.transposeBySteps = .ok w ∧ (arith.Holds (w.state.rows * w.state.cols) →
      w.log.replayFlat arith (zeros m.cols m.rows) = .ok w.state)) ∧
    (m.IsSquare → ∀ inverse sheet, m.invert tolerance = .ok (.computed inverse sheet) →
      ∃ last, last.columnsByCuts m.rows (2 * m.rows) = .ok inverse ∧
        (arith.Holds (last.rows * last.cols) → sheet.log.replayFlat arith m = .ok last)) := by
  obtain ⟨w, hreduce, _, hreduction⟩ := reduce_replays tolerance hm
  obtain ⟨v, htranspose, _, htransposition⟩ := transposeBySteps_replays hm
  have hzeros : (zeros m.cols m.rows : DenseMatrix α).WellFormed := generate_wellFormed _ _ _
  refine ⟨⟨w, hreduce, hreduction.applyFlat hm hr hc⟩,
    ⟨v, htranspose, htransposition.applyFlat hzeros hc hr⟩, fun hsq inverse sheet hinvert => ?_⟩
  obtain ⟨_, steps, last, hsteps, hreplays, hinverse⟩ := invert_replays hsq hr hinvert
  -- the first step of an inversion is the one that puts the identity block beside the matrix
  have hall : Replays .inversion m sheet.log.steps.toList last := hsteps ▸ .step rfl hreplays
  refine ⟨last, ?_, hall.applyFlat hm hr hc⟩
  rw [columnsByCuts_eq_columns (hall.wellFormed hm), hinverse]

end GaussJordan
