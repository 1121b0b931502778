import GaussJordan.Proofs.PivotBlocks

namespace GaussJordan

variable {tolerance : ℚ}

namespace DenseMatrix

variable {m : DenseMatrix ℚ} {rows row i c : Nat}

/-- A column is the unit vector of a row, among so many rows. -/
def IsUnitColumn (rows i c : Nat) (m : DenseMatrix ℚ) : Prop :=
  ∀ r, r < rows → m.entry r c = if r = i then 1 else 0

/-- Rows below the unit of a column can be exchanged. -/
theorem IsUnitColumn.exchanged (h : m.IsUnitColumn m.rows i c) (hc : c < m.cols)
    (hrow : row < m.rows) {found : Nat} (hfound : found < m.rows) (hi : i < row)
    (hle : row ≤ found) : (m.exchanged row found).IsUnitColumn m.rows i c := by
  intro r hr
  have hz : ∀ k, row ≤ k → k < m.rows → m.entry k c = 0 := fun k hk hkr => by
    rw [h k hkr, if_neg (by omega)]
  rw [entry_exchanged hr hc]
  split
  next hra => rw [hz found hle hfound, if_neg (by omega)]
  next =>
    split
    next hrb => rw [hz row (Nat.le_refl row) hrow, if_neg (by omega)]
    next => exact h r hr

/-- A row with a zero in a column changes nothing there, in whatever rows it is used. -/
theorem IsUnitColumn.cleared (h : m.IsUnitColumn m.rows i c) (hc : c < m.cols)
    (hrow : row < m.rows) (hi : i < row) (col : Nat) (targets : List Nat) :
    (m.cleared row col targets).IsUnitColumn m.rows i c := by
  intro r hr
  have hz : m.entry row c = 0 := by rw [h row hrow, if_neg (by omega)]
  rw [entry_cleared hr hc, hz, zero_div, mul_zero, sub_zero]
  split
  next hra => rw [if_neg (by omega)]
  next =>
    split
    next => exact h r hr
    next => exact h r hr

theorem IsUnitColumn.of_mem_pivotSteps (h : m.IsUnitColumn m.rows i c) (hc : c < m.cols)
    (hrow : row < m.rows) {found col : Nat} (hfound : found < m.rows) (hi : i < row)
    (hle : row ≤ found) {style : TraceStyle} {step : Step ℚ}
    (hstep : step ∈ m.pivotSteps style row found col) : step.snapshot.IsUnitColumn m.rows i c := by
  have hexchanged := h.exchanged hc hrow hfound hi hle
  rcases snapshot_of_mem_pivotSteps hstep with hs | ⟨targets, hs⟩
  · rwa [hs]
  · rw [hs]
    exact IsUnitColumn.cleared (m := m.exchanged row found) hexchanged hc hrow hi col targets

end DenseMatrix

/-- From the end of the block of a pivot on, through all the later blocks, its column is a unit
vector in what is reached and in every step that is recorded. -/
def StaysClear (m : DenseMatrix ℚ) (answers : List (Nat × Nat)) (blocks : List (List (Step ℚ))) :
    Prop :=
  ∀ (j : Nat) c, (pivotColumns answers)[j]? = some c → ∀ n,
    n = stateAfter m (blocks.take (j + 1)).flatten ∨
      n ∈ (blocks.drop (j + 1)).flatten.map Step.snapshot → n.IsUnitColumn m.rows j c

theorem StaysClear.concat {given m : DenseMatrix ℚ} {answers : List (Nat × Nat)}
    {blocks : List (List (Step ℚ))} {found col : Nat} {style : TraceStyle}
    (h : StaysClear given answers blocks) (hlen : blocks.length = answers.length)
    (hstate : stateAfter given blocks.flatten = m) (hrows : m.rows = given.rows)
    (hm : m.WellFormed) (ht : 0 ≤ tolerance) (htaken : m.PivotsTaken answers)
    (room : answers.length < m.rows)
    (hp : m.FirstPivot tolerance answers.length (nextLead answers) found col) :
    StaysClear given (answers ++ [(found, col)])
      (blocks ++ [m.pivotSteps style answers.length found col]) := by
  intro j c hj n hn
  rw [pivotColumns_append] at hj
  rcases getElem?_concat_cases hj with hj | ⟨rfl, rfl⟩
  · -- the column of an earlier pivot, which the block at the end keeps
    have hlt := lt_length_of_getElem?_eq_some hj
    have hunit : m.IsUnitColumn m.rows j c := htaken.unit j c hj
    rw [length_pivotColumns] at hlt
    rw [List.take_append_of_le_length (by omega), List.drop_append_of_le_length (by omega),
      List.flatten_concat, List.map_append, List.mem_append, ← or_assoc] at hn
    rcases hn with hn | hn
    · exact h j c hj n hn
    · obtain ⟨step, hstep, rfl⟩ := List.mem_map.mp hn
      rw [← hrows]
      exact hunit.of_mem_pivotSteps (htaken.lt_cols_of_get hj) room hp.lt_rows hlt hp.row_le hstep
  · -- the column of the last pivot, with which the run has just ended
    have hend : (blocks ++ [m.pivotSteps style answers.length found c]).length =
        (pivotColumns answers).length + 1 := by simp [hlen]
    rw [← hend, List.take_length, List.drop_length, List.flatten_concat, stateAfter_append, hstate,
      DenseMatrix.stateAfter_pivotSteps hm] at hn
    obtain rfl := hn.resolve_right (by simp)
    have hunit := (htaken.pivoted room ht hp).unit
    rw [← hrows]
    exact hunit _ c (by rw [pivotColumns_append, List.getElem?_concat_length])

theorem PivotReach.staysClear {first w : Worksheet ℚ} {answers : List (Nat × Nat)}
    (ht : 0 ≤ tolerance) (hfirst : first.state.WellFormed)
    (reach : PivotReach tolerance first answers w) :
    ∃ blocks, w.log.steps.toList = first.log.steps.toList ++ blocks.flatten ∧
      Schedule tolerance first.state answers blocks ∧
      stateAfter first.state blocks.flatten = w.state ∧ w.state.PivotsTaken answers ∧
      StaysClear first.state answers blocks := by
  refine reach.blocks_invariant hfirst (P := fun answers m blocks =>
    Schedule tolerance first.state answers blocks ∧ stateAfter first.state blocks.flatten = m ∧
      m.PivotsTaken answers ∧ StaysClear first.state answers blocks)
    ⟨schedule_nil _ _, rfl, DenseMatrix.pivotsTaken_nil _, by simp [StaysClear]⟩ ?_
  rintro answers m blocks found col hm hrows _ room hp ⟨hschedule, hstate, htaken, hclear⟩
  refine ⟨?_, ?_, htaken.pivoted room ht hp,
    hclear.concat hschedule.length_eq hstate hrows hm ht htaken room hp⟩
  · subst hstate
    exact hschedule.concat hp (DenseMatrix.pivotSteps_pivotBlock room hp.lt_cols)
  · rw [List.flatten_concat, stateAfter_append, hstate, DenseMatrix.stateAfter_pivotSteps hm]

namespace DenseMatrix

/-- Whatever counts as zero, the column of a pivot is a unit vector from the end of its block on,
in every step of the later blocks and in the reduced matrix; and what is left of rows without a
pivot, to the right of all pivots, is within the tolerance. -/
theorem reduce_keeps_columns_clear (ht : 0 ≤ tolerance) {m : DenseMatrix ℚ} (hm : m.WellFormed) :
    ∃ w answers blocks, m.reduce tolerance = .ok w ∧ w.log.steps.toList = blocks.flatten ∧
      Schedule tolerance m answers blocks ∧
      (∀ (j : Nat) c, (pivotColumns answers)[j]? = some c →
        w.state.IsUnitColumn m.rows j c ∧
        (stateAfter m (blocks.take (j + 1)).flatten).IsUnitColumn m.rows j c ∧
        ∀ block ∈ blocks.drop (j + 1), ∀ step ∈ block, step.snapshot.IsUnitColumn m.rows j c) ∧
      ∀ r c, answers.length ≤ r → r < m.rows → c < m.cols → (∀ p ∈ pivotColumns answers, p < c) →
        |w.state.entry r c| ≤ tolerance := by
  obtain ⟨answers, w, hrun, reach, hs⟩ := reduce_reach tolerance hm
  obtain ⟨blocks, hsteps, hschedule, _, htaken, hclear⟩ := reach.staysClear ht hm
  obtain ⟨_, hrows, hcols⟩ := reach.shape hm
  have hr : w.state.rows = m.rows := hrows
  have hc : w.state.cols = m.cols := hcols
  refine ⟨_, answers, blocks, hrun, hsteps, hschedule, fun j c hj => ⟨?_, ?_, ?_⟩, ?_⟩
  · rw [← hr]
    exact htaken.unit j c hj
  · exact hclear j c hj _ (.inl rfl)
  · intro block hblock step hstep
    exact hclear j c hj _ (.inr (List.mem_map_of_mem (List.mem_flatten_of_mem hblock hstep)))
  · intro r c hle hrow hcol hright
    rw [← isZero_iff]
    exact reach.zeroTail hm hs r c (hr ▸ hrow) (hc ▸ hcol)
      (by rwa [length_pivotColumns]) hright

/-- The second column is passed over with a cell in it, and rows are exchanged before that. -/
theorem reduce_keeps_columns_clear_skipping :
    (0 : ℚ) ≤ 1 / 10 ^ 10 ∧
    (⟨3, 3, #[0, 1 / 10 ^ 11, 2, 3, 0, 1, 6, 0, 5]⟩ : DenseMatrix ℚ).WellFormed ∧
    ∃ w answers blocks, (⟨3, 3, #[0, 1 / 10 ^ 11, 2, 3, 0, 1, 6, 0, 5]⟩ : DenseMatrix ℚ).reduce
        (1 / 10 ^ 10) = .ok w ∧
      Schedule (1 / 10 ^ 10) ⟨3, 3, #[0, 1 / 10 ^ 11, 2, 3, 0, 1, 6, 0, 5]⟩ answers blocks ∧
      w.state = ⟨3, 3, #[1, -1 / (6 * 10 ^ 11), 0, 0, 1 / (2 * 10 ^ 11), 1,
        0, -3 / (2 * 10 ^ 11), 0]⟩ ∧
      ∀ (j : Nat) c, (pivotColumns answers)[j]? = some c → w.state.IsUnitColumn 3 j c ∧
        ∀ block ∈ blocks.drop (j + 1), ∀ step ∈ block, step.snapshot.IsUnitColumn 3 j c := by
  have ht : (0 : ℚ) ≤ 1 / 10 ^ 10 := by positivity
  have hm : (⟨3, 3, #[0, 1 / 10 ^ 11, 2, 3, 0, 1, 6, 0, 5]⟩ : DenseMatrix ℚ).WellFormed := rfl
  have hstate : ((⟨3, 3, #[0, 1 / 10 ^ 11, 2, 3, 0, 1, 6, 0, 5]⟩ : DenseMatrix ℚ).reduce
      (1 / 10 ^ 10)).toOption.map Worksheet.state = some
        ⟨3, 3, #[1, -1 / (6 * 10 ^ 11), 0, 0, 1 / (2 * 10 ^ 11), 1, 0, -3 / (2 * 10 ^ 11), 0]⟩ := by
    decide +kernel
  obtain ⟨w, answers, blocks, hrun, _, hschedule, hclear, _⟩ := reduce_keeps_columns_clear ht hm
  rw [hrun] at hstate
  exact ⟨ht, hm, w, answers, blocks, hrun, hschedule, Option.some.inj hstate,
    fun j c hj => ⟨(hclear j c hj).1, (hclear j c hj).2.2⟩⟩

end DenseMatrix

end GaussJordan
