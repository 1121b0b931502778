import GaussJordan.Proofs.DiagonalRun
import GaussJordan.Proofs.PivotBlocks
import GaussJordan.Proofs.SharedColumns

namespace GaussJordan

variable {α : Type} [Scalar α] {tolerance : α}

namespace DenseMatrix

variable {m : DenseMatrix α} {count row found col : Nat} {style : TraceStyle}

def firstColumns (count : Nat) (m : DenseMatrix α) : DenseMatrix α :=
  generate m.rows count m.entry

@[simp] theorem firstColumns_rows : (m.firstColumns count).rows = m.rows := rfl

@[simp] theorem firstColumns_cols : (m.firstColumns count).cols = count := rfl

theorem firstColumns_wellFormed : (m.firstColumns count).WellFormed := generate_wellFormed _ _ _

theorem entry_firstColumns {r c : Nat} (hr : r < m.rows) (hc : c < count) :
    (m.firstColumns count).entry r c = m.entry r c := entry_generate _ hr hc

theorem columns_eq_firstColumns (hc : 0 < m.cols) (hcount : count ≤ m.cols) :
    m.columns 0 count = .ok (m.firstColumns count) := by
  rw [columns_of_le hc (Nat.zero_le count) hcount]
  simp [firstColumns]

theorem firstColumns_agreesUpTo (hcount : count ≤ m.cols) :
    (m.firstColumns count).AgreesUpTo count m :=
  ⟨rfl, Nat.le_refl count, hcount, fun r _ (hr : r < m.rows) hc => (entry_firstColumns hr hc).symm⟩

theorem agreesUpTo_firstColumns (hcount : count ≤ m.cols) :
    m.AgreesUpTo count (m.firstColumns count) :=
  ⟨rfl, hcount, Nat.le_refl count, fun _ _ hr hc => entry_firstColumns hr hc⟩

theorem FirstPivot.outside_firstColumns {lead : Nat} (hcount : count ≤ m.cols)
    (hp : m.FirstPivot tolerance row lead found col)
    (hno : (m.firstColumns count).NoPivot tolerance row lead) : count ≤ col := by
  by_contra hlt
  exact ((agreesUpTo_firstColumns hcount).firstPivot hp (by omega)).not_noPivot hno

theorem exchanged_firstColumns (hcount : count ≤ m.cols) (hrow : row < m.rows)
    (hfound : found < m.rows) : (m.firstColumns count).exchanged row found =
      (m.exchanged row found).firstColumns count := by
  refine generate_congr fun r c (hr : r < m.rows) (hc : c < count) => ?_
  rw [entry_exchanged hr (Nat.lt_of_lt_of_le hc hcount)]
  refine entry_firstColumns ?_ hc
  split
  · exact hfound
  · split
    · exact hrow
    · exact hr

theorem cleared_firstColumns (hcount : count ≤ m.cols) (hrow : row < m.rows) (hcol : col < count)
    (targets : List Nat) : (m.firstColumns count).cleared row col targets =
      (m.cleared row col targets).firstColumns count := by
  refine generate_congr fun r c (hr : r < m.rows) (hc : c < count) => ?_
  rw [entry_cleared hr (Nat.lt_of_lt_of_le hc hcount), entry_firstColumns hrow hc,
    entry_firstColumns hrow hcol, entry_firstColumns hr hc, entry_firstColumns hr hcol]

theorem pivoted_firstColumns (hcount : count ≤ m.cols) (hrow : row < m.rows)
    (hfound : found < m.rows) (hcol : col < count) :
    (m.firstColumns count).pivoted row found col =
      (m.pivoted row found col).firstColumns count := by
  rw [pivoted, exchanged_firstColumns hcount hrow hfound]
  exact cleared_firstColumns (m := m.exchanged row found) hcount hrow hcol _

end DenseMatrix

/-- The step as it is seen in the first columns. -/
def Step.firstColumns (count : Nat) (step : Step α) : Step α :=
  { step with snapshot := step.snapshot.firstColumns count }

theorem stateAfter_firstColumns (count : Nat) (m : DenseMatrix α) (steps : List (Step α)) :
    stateAfter (m.firstColumns count) (steps.map (Step.firstColumns count)) =
      (stateAfter m steps).firstColumns count := by
  induction steps generalizing m with
  | nil => rfl
  | cons step steps ih => exact ih step.snapshot

namespace DenseMatrix

variable {m : DenseMatrix α} {count row found col : Nat} {style : TraceStyle}

theorem eliminations_firstColumns (hcount : count ≤ m.cols) (hrow : row < m.rows)
    (hcol : col < count) {done targets : List Nat} (hin : ∀ k ∈ targets, k < m.rows) :
    (m.firstColumns count).eliminations style row col done targets =
      (m.eliminations style row col done targets).map (Step.firstColumns count) := by
  induction targets generalizing done with
  | nil => rfl
  | cons k targets ih =>
    rw [eliminations, eliminations, List.map_cons, ih fun j hj => hin j (List.mem_cons_of_mem _ hj),
      cleared_firstColumns hcount hrow hcol, entry_firstColumns (hin k List.mem_cons_self) hcol]
    rfl

theorem pivotSteps_firstColumns (hcount : count ≤ m.cols) (hrow : row < m.rows)
    (hfound : found < m.rows) (hcol : col < count) :
    (m.firstColumns count).pivotSteps style row found col =
      (m.pivotSteps style row found col).map (Step.firstColumns count) := by
  have hclear := cleared_firstColumns (m := m.exchanged row found) hcount hrow hcol []
  have helim : ((m.exchanged row found).firstColumns count).eliminations style row col []
      (otherRows m.rows row) = ((m.exchanged row found).eliminations style row col []
        (otherRows m.rows row)).map (Step.firstColumns count) :=
    eliminations_firstColumns (m := m.exchanged row found) hcount hrow hcol
      fun k hk => (mem_otherRows.mp hk).1
  have hfactor : ((m.exchanged row found).firstColumns count).entry row col =
      (m.exchanged row found).entry row col := entry_firstColumns hrow hcol
  rw [pivotSteps, pivotSteps, exchanged_firstColumns hcount hrow hfound, List.map_append,
    List.map_cons, hclear, hfactor, firstColumns_rows, helim]
  congr 1
  split <;> rfl

theorem pivotBlocks_firstColumns {answers : List (Nat × Nat)} (hcount : count ≤ m.cols)
    (hroom : row + answers.length ≤ m.rows)
    (hin : ∀ answer ∈ answers, answer.1 < m.rows ∧ answer.2 < count) :
    (m.firstColumns count).pivotBlocks style row answers =
      (m.pivotBlocks style row answers).map (List.map (Step.firstColumns count)) := by
  induction answers generalizing m row with
  | nil => rfl
  | cons answer answers ih =>
    obtain ⟨hfound, hcol⟩ := hin answer List.mem_cons_self
    rw [List.length_cons] at hroom
    have hrow : row < m.rows := by omega
    have hrest : ((m.pivoted row answer.1 answer.2).firstColumns count).pivotBlocks style (row + 1)
        answers = ((m.pivoted row answer.1 answer.2).pivotBlocks style (row + 1) answers).map
          (List.map (Step.firstColumns count)) :=
      ih (m := m.pivoted row answer.1 answer.2) hcount (by rw [pivoted_rows]; omega)
        fun a ha => hin a (List.mem_cons_of_mem _ ha)
    rw [pivotBlocks, pivotBlocks, List.map_cons, pivotSteps_firstColumns hcount hrow hfound hcol,
      pivoted_firstColumns hcount hrow hfound hcol, hrest]

end DenseMatrix

theorem PivotReach.inRange {first w : Worksheet α} {answers : List (Nat × Nat)}
    (hfirst : first.state.WellFormed) (reach : PivotReach tolerance first answers w) :
    ∀ answer ∈ answers, answer.1 < first.state.rows ∧ answer.2 < first.state.cols := by
  obtain ⟨_, _, _, hin⟩ := reach.invariant hfirst
    (P := fun answers _ _ => ∀ answer ∈ answers,
      answer.1 < first.state.rows ∧ answer.2 < first.state.cols)
    (by simp)
    (by
      intro answers m ops found col _ hrows hcols _ hp hin
      refine List.forall_mem_append.mpr ⟨hin, List.forall_mem_singleton.mpr ?_⟩
      exact ⟨hrows ▸ hp.lt_rows, hcols ▸ hp.lt_cols⟩)
  exact hin

section Reduction

variable {m : DenseMatrix α} {count : Nat} {part whole : Worksheet α}
  {answers pivots : List (Nat × Nat)}

/-- The answers of the search say all about a reduction that has come so far. -/
theorem PivotReach.reduction_blocks (hm : m.WellFormed)
    (reach : PivotReach tolerance (reductionSheet m) answers whole) :
    let blocks := m.pivotBlocks .reduction 0 answers
    whole.log.steps.toList = blocks.flatten ∧ Schedule tolerance m answers blocks ∧
      stateAfter m blocks.flatten = whole.state := reach.schedule_pivotBlocks hm

theorem PivotReach.reduction_shape (hm : m.WellFormed)
    (reach : PivotReach tolerance (reductionSheet m) answers whole) :
    whole.state.cols = m.cols ∧ ∀ step ∈ whole.log.steps.toList, step.snapshot.cols = m.cols := by
  obtain ⟨hstate, hshows⟩ := reach.shows ⟨hm, rfl, rfl⟩ (TraceLog.shows_empty _)
  exact ⟨hstate.cols_eq, fun step hstep => (hshows.shape step hstep).cols_eq⟩

/-- A run on the first columns alone is a run on the whole matrix as it is seen in them. -/
theorem PivotReach.of_firstColumns (hm : m.WellFormed) (hcount : count ≤ m.cols)
    (reach : PivotReach tolerance (reductionSheet (m.firstColumns count)) pivots part) :
    ∃ whole, PivotReach tolerance (reductionSheet m) pivots whole ∧
      part.state = whole.state.firstColumns count ∧
      part.log.steps.toList = whole.log.steps.toList.map (Step.firstColumns count) := by
  have hfirst : (m.firstColumns count).WellFormed := DenseMatrix.firstColumns_wellFormed
  -- all pivots lie in the first columns, so the whole matrix has the same ones
  have hin : ∀ answer ∈ pivots, answer.1 < m.rows ∧ answer.2 < count := reach.inRange hfirst
  have hroom : 0 + pivots.length ≤ m.rows := by
    rw [Nat.zero_add]
    exact (reach.sorted hfirst).2.2
  obtain ⟨whole, _, hreach, _⟩ := reach.transfer (reductionSheet m) hfirst hm
    (DenseMatrix.firstColumns_agreesUpTo hcount) fun a ha => (hin a ha).2
  obtain ⟨hsteps, _, hstate⟩ := reach.reduction_blocks hfirst
  obtain ⟨hsteps', _, hstate'⟩ := hreach.reduction_blocks hm
  rw [DenseMatrix.pivotBlocks_firstColumns hcount hroom hin, ← List.map_flatten] at hsteps hstate
  rw [stateAfter_firstColumns, hstate'] at hstate
  rw [← hsteps'] at hsteps
  exact ⟨whole, hreach, hstate.symm, hsteps⟩

/-- The first columns alone take the pivots of the whole matrix until one lies outside of them. -/
theorem PivotReach.pivots_of_firstColumns (hm : m.WellFormed) (hcount : count ≤ m.cols)
    (reach : PivotReach tolerance (reductionSheet (m.firstColumns count)) pivots part)
    (hs : Settled tolerance pivots part)
    (reach' : PivotReach tolerance (reductionSheet m) answers whole)
    (hs' : Settled tolerance answers whole) :
    answers.take pivots.length = pivots ∧ ∀ i c, (pivotColumns answers)[i]? = some c →
      (i < pivots.length ↔ c < count) := by
  have hfirst : (m.firstColumns count).WellFormed := DenseMatrix.firstColumns_wellFormed
  obtain ⟨u, hreach, hstate, _⟩ := reach.of_firstColumns hm hcount
  have htake : answers.take pivots.length = pivots :=
    (List.prefix_iff_eq_take.mp (hreach.prefix_of_settled reach' hs')).symm
  refine ⟨htake, fun i c hi => ⟨fun hlt => ?_, fun hc => ?_⟩⟩
  · rw [pivotColumns, List.getElem?_map] at hi
    obtain ⟨answer, hanswer, rfl⟩ := Option.map_eq_some_iff.mp hi
    have hmem : answer ∈ pivots := by
      rw [← htake]
      exact List.mem_of_getElem? ((List.getElem?_take_of_lt hlt).trans hanswer)
    exact (reach.inRange hfirst answer hmem).2
  · -- the first pivot that only the whole run takes lies outside, and so do all after it
    by_contra hge
    obtain ⟨hilt, rfl⟩ := List.getElem?_eq_some_iff.mp hi
    obtain ⟨hsorted, _⟩ := reach'.sorted hm
    have hgap := getElem_gap hsorted (Nat.le_of_not_lt hge) hilt
    rw [length_pivotColumns] at hilt
    obtain ⟨v, hv, _, hfound⟩ := reach'.exists_answered (k := pivots.length) (by omega)
    rw [htake] at hv hfound
    obtain ⟨_, rfl⟩ := hv.unique hreach rfl
    obtain ⟨hw, _, hcols⟩ := hv.shape hm
    have hout : count ≤ answers[pivots.length].2 :=
      ((DenseMatrix.findPivot_eq_some_iff hw).mp hfound).outside_firstColumns (hcols ▸ hcount)
        (hstate ▸ (settled_iff (reach.shape hfirst).1).mp hs)
    simp only [pivotColumns, List.getElem_map] at hgap hc
    omega

end Reduction

/-- What a step on the first columns alone has in common with one on all columns. -/
structure Step.ShowsFirst (count : Nat) (whole part : Step α) : Prop where
  operation_eq : part.operation = whole.operation
  description_eq : part.description = whole.description
  snapshot_eq : whole.snapshot.columns 0 count = .ok part.snapshot

/-- What is recorded of the first columns is found in what is recorded of all columns. -/
theorem showsFirst_of_map {part whole : TraceLog α} {count cols : Nat} {more : List (Step α)}
    (hc : 0 < cols) (hcount : count ≤ cols)
    (hcols : ∀ step ∈ whole.steps.toList, step.snapshot.cols = cols) {steps : List (Step α)}
    (hwhole : whole.steps.toList = steps ++ more)
    (hpart : part.steps.toList = steps.map (Step.firstColumns count)) {i : Nat} {step : Step α}
    (hi : part.steps[i]? = some step) :
    ∃ full, whole.steps[i]? = some full ∧ full.ShowsFirst count step := by
  rw [← Array.getElem?_toList, hpart, List.getElem?_map] at hi
  obtain ⟨full, hfull, rfl⟩ := Option.map_eq_some_iff.mp hi
  have hget : whole.steps.toList[i]? = some full := by
    rw [hwhole, List.getElem?_append_left (lt_length_of_getElem?_eq_some hfull), hfull]
  have hfullcols := hcols full (List.mem_of_getElem? hget)
  refine ⟨full, Array.getElem?_toList ▸ hget, rfl, rfl, ?_⟩
  exact DenseMatrix.columns_eq_firstColumns (hfullcols ▸ hc) (hfullcols ▸ hcount)

namespace DenseMatrix

variable {m : DenseMatrix α} {count : Nat}

/-- The reduction of the first columns is the beginning of the reduction of the whole matrix, as it
is seen in these columns, and ends just before the whole matrix takes its first pivot to the right
of them. What stands there has no part in it. -/
theorem reduce_columns_prefix (tolerance : α) (hm : m.WellFormed) (hc : 0 < m.cols)
    (hcount : count ≤ m.cols) :
    ∃ left part whole answers blocks j, m.columns 0 count = .ok left ∧
      left.reduce tolerance = .ok part ∧ m.reduce tolerance = .ok whole ∧
      m.TakesPivots tolerance answers ∧ Schedule tolerance m answers blocks ∧
      whole.log.steps.toList = blocks.flatten ∧ j ≤ answers.length ∧
      (∀ i c, (pivotColumns answers)[i]? = some c → (i < j ↔ c < count)) ∧
      left.TakesPivots tolerance (answers.take j) ∧
      part.log.size = (blocks.take j).flatten.length ∧ part.log.size ≤ whole.log.size ∧
      (∀ (i : Nat) step, part.log.steps[i]? = some step →
        ∃ full, whole.log.steps[i]? = some full ∧ full.ShowsFirst count step) ∧
      (stateAfter m (blocks.take j).flatten).columns 0 count = .ok part.state := by
  have hfirst : (m.firstColumns count).WellFormed := firstColumns_wellFormed
  obtain ⟨pivots, part, hpart, hreach, hsettled⟩ := reduce_reach tolerance hfirst
  obtain ⟨answers, whole, hwhole, reach, hs⟩ := reduce_reach tolerance hm
  obtain ⟨htake, hcut⟩ := hreach.pivots_of_firstColumns hm hcount hsettled reach hs
  obtain ⟨u, hu, hstate, hpartSteps⟩ := hreach.of_firstColumns hm hcount
  obtain ⟨husteps, _, hustate⟩ := hu.reduction_blocks hm
  obtain ⟨hsteps, hschedule, _⟩ := reach.reduction_blocks hm
  rw [← htake, ← take_pivotBlocks] at husteps hustate
  have hsplit : whole.log.steps.toList = u.log.steps.toList ++
      ((m.pivotBlocks .reduction 0 answers).drop pivots.length).flatten := by
    rw [husteps, hsteps, ← List.flatten_append, List.take_append_drop]
  have hsize : part.log.steps.size = u.log.steps.toList.length := by
    rw [← Array.length_toList, hpartSteps, List.length_map]
  have hle : part.log.steps.size ≤ whole.log.steps.size := by
    rw [hsize, ← Array.length_toList, hsplit, List.length_append]
    exact Nat.le_add_right _ _
  obtain ⟨hucols, _⟩ := hu.reduction_shape hm
  obtain ⟨_, hcols⟩ := reach.reduction_shape hm
  refine ⟨_, _, _, answers, _, pivots.length, columns_eq_firstColumns hc hcount, hpart, hwhole,
    ⟨whole, reach, hs⟩, hschedule, hsteps, ?_, hcut, ?_, hsize.trans (congrArg List.length husteps),
    hle, fun i step => showsFirst_of_map hc hcount hcols hsplit hpartSteps, ?_⟩
  · exact htake ▸ List.length_take_le' _ _
  · exact htake.symm ▸ ⟨part, hreach, hsettled⟩
  · rw [hustate]
    exact (columns_eq_firstColumns (hucols ▸ hc) (hucols ▸ hcount)).trans (congrArg _ hstate.symm)

/-- The coefficients have one pivot, brought up from the second row; the right-hand side has
another. -/
theorem reduce_columns_prefix_exchanged :
    (⟨2, 3, #[0, 0, 2, 0, 3, 1]⟩ : DenseMatrix Float).WellFormed ∧
    ∃ part whole answers, (⟨2, 2, #[0, 0, 0, 3]⟩ : DenseMatrix Float).reduce 1e-10 = .ok part ∧
      (⟨2, 3, #[0, 0, 2, 0, 3, 1]⟩ : DenseMatrix Float).reduce 1e-10 = .ok whole ∧
      (⟨2, 3, #[0, 0, 2, 0, 3, 1]⟩ : DenseMatrix Float).TakesPivots 1e-10 answers ∧
      part.log.size = 3 ∧ whole.log.size = 5 ∧
      ∀ (i : Nat) step, part.log.steps[i]? = some step →
        ∃ full, whole.log.steps[i]? = some full ∧ full.ShowsFirst 2 step := by
  have hm : (⟨2, 3, #[0, 0, 2, 0, 3, 1]⟩ : DenseMatrix Float).WellFormed := rfl
  have hsizes : ((⟨2, 2, #[0, 0, 0, 3]⟩ : DenseMatrix Float).reduce 1e-10).toOption.map
      (fun w => w.log.size) = some 3 ∧
    ((⟨2, 3, #[0, 0, 2, 0, 3, 1]⟩ : DenseMatrix Float).reduce 1e-10).toOption.map
      (fun w => w.log.size) = some 5 := by decide +kernel
  obtain ⟨left, part, whole, answers, _, _, hleft, hpart, hwhole, htakes, _, _, _, _, _, _, _,
    hshows, _⟩ := reduce_columns_prefix 1e-10 hm (by decide) (show 2 ≤ 3 by decide)
  obtain rfl : (⟨2, 2, #[0, 0, 0, 3]⟩ : DenseMatrix Float) = left := by
    cases hleft
    decide +kernel
  rw [hpart, hwhole] at hsizes
  exact ⟨hm, part, whole, answers, hpart, hwhole, htakes, Option.some.inj hsizes.1,
    Option.some.inj hsizes.2, hshows⟩

end DenseMatrix

end GaussJordan
