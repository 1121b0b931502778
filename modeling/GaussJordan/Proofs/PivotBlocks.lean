import GaussJordan.Proofs.PivotAgreement
import GaussJordan.Proofs.RowExchanges
import GaussJordan.Proofs.TraceShapes

namespace GaussJordan

variable {α : Type}

/-- What the last of some steps shows, or the given matrix where there are none. -/
def stateAfter (m : DenseMatrix α) (steps : List (Step α)) : DenseMatrix α :=
  steps.foldl (fun _ step => step.snapshot) m

@[simp] theorem stateAfter_nil (m : DenseMatrix α) : stateAfter m [] = m := rfl

@[simp] theorem stateAfter_cons (m : DenseMatrix α) (step : Step α) (steps : List (Step α)) :
    stateAfter m (step :: steps) = stateAfter step.snapshot steps := rfl

theorem stateAfter_append (m : DenseMatrix α) (steps more : List (Step α)) :
    stateAfter m (steps ++ more) = stateAfter (stateAfter m steps) more := List.foldl_append

variable [Scalar α]

/-- Multiples of a row are subtracted only by the factor that stands in the column just before. -/
def FactorsRead (row col : Nat) (before : DenseMatrix α) (steps : List (Step α)) : Prop :=
  ∀ (i : Nat) step target factor, steps[i]? = some step →
    step.operation = .eliminate target row factor →
    factor = (stateAfter before (steps.take i)).entry target col

theorem factorsRead_nil (row col : Nat) (m : DenseMatrix α) : FactorsRead row col m [] := by
  simp [FactorsRead]

theorem factorsRead_cons {row col : Nat} {m : DenseMatrix α} {step : Step α}
    {steps : List (Step α)} (hstep : ∀ target factor,
      step.operation = .eliminate target row factor → factor = m.entry target col)
    (hrest : FactorsRead row col step.snapshot steps) : FactorsRead row col m (step :: steps) := by
  intro i s target factor hs hop
  cases i with
  | zero =>
    cases hs
    exact hstep target factor hop
  | succ i => exact hrest i s target factor hs hop

/-- The steps with which a pivot is taken: an exchange with the row it was found in, if that is
another one, a scaling by it, and an elimination for every other row, from top to bottom. -/
structure PivotBlock (row found col : Nat) (before : DenseMatrix α) (block : List (Step α)) :
    Prop where
  operations : ∃ factors : Nat → α, block.map Step.operation =
    (if found = row then [] else [.swap row found]) ++ .scale row (before.entry found col) ::
      (DenseMatrix.otherRows before.rows row).map fun k => .eliminate k row (factors k)
  factorsRead : FactorsRead row col before block

/-- A run is cut into blocks of steps, one for each answer of the pivot search, which has gone
through the matrix that the blocks before have led to. -/
structure Schedule (tolerance : α) (m : DenseMatrix α) (answers : List (Nat × Nat))
    (blocks : List (List (Step α))) : Prop where
  length_eq : blocks.length = answers.length
  pivot : ∀ (j : Nat) found col, answers[j]? = some (found, col) →
    (stateAfter m (blocks.take j).flatten).FirstPivot tolerance j (nextLead (answers.take j))
      found col
  block : ∀ (j : Nat) found col block, answers[j]? = some (found, col) → blocks[j]? = some block →
    PivotBlock j found col (stateAfter m (blocks.take j).flatten) block

section Schedule

variable {tolerance : α} {m : DenseMatrix α} {answers : List (Nat × Nat)}
  {blocks : List (List (Step α))} {found col : Nat} {block : List (Step α)}

theorem schedule_nil (tolerance : α) (m : DenseMatrix α) : Schedule tolerance m [] [] :=
  ⟨rfl, by simp, by simp⟩

theorem Schedule.concat (h : Schedule tolerance m answers blocks)
    (hp : (stateAfter m blocks.flatten).FirstPivot tolerance answers.length (nextLead answers)
      found col)
    (hb : PivotBlock answers.length found col (stateAfter m blocks.flatten) block) :
    Schedule tolerance m (answers ++ [(found, col)]) (blocks ++ [block]) := by
  have hlen := h.length_eq
  have htake : ∀ {j : Nat}, j ≤ answers.length → (answers ++ [(found, col)]).take j =
      answers.take j ∧ (blocks ++ [block]).take j = blocks.take j := fun hj =>
    ⟨List.take_append_of_le_length hj, List.take_append_of_le_length (hlen ▸ hj)⟩
  have hwhole : (answers ++ [(found, col)]).take answers.length = answers ∧
      (blocks ++ [block]).take answers.length = blocks :=
    ⟨List.take_left, by rw [← hlen, List.take_left]⟩
  refine ⟨by simp [hlen], ?_, ?_⟩
  · intro j i c hj
    rcases getElem?_concat_cases hj with hj | ⟨rfl, heq⟩
    · have hlt := lt_length_of_getElem?_eq_some hj
      obtain ⟨ha, hb⟩ := htake (Nat.le_of_lt hlt)
      rw [ha, hb]
      exact h.pivot j i c hj
    · cases heq
      rw [hwhole.1, hwhole.2]
      exact hp
  · intro j i c b hj hbj
    rcases getElem?_concat_cases hj with hj | ⟨rfl, heq⟩
    · have hlt := lt_length_of_getElem?_eq_some hj
      rw [List.getElem?_append_left (hlen ▸ hlt)] at hbj
      rw [(htake (Nat.le_of_lt hlt)).2]
      exact h.block j i c b hj hbj
    · cases heq
      rw [← hlen, List.getElem?_concat_length] at hbj
      cases hbj
      rw [hwhole.2]
      exact hb

end Schedule

namespace DenseMatrix

variable {m : DenseMatrix α} {style : TraceStyle} {row found col : Nat}

/-- The steps that clear a column from the targets, after it has been cleared from others. -/
def eliminations (style : TraceStyle) (m : DenseMatrix α) (row col : Nat) (done : List Nat) :
    List Nat → List (Step α)
  | [] => []
  | k :: targets =>
    let op := .eliminate k row (m.entry k col)
    ⟨op, m.cleared row col (done ++ [k]), op.describe style⟩ ::
      m.eliminations style row col (done ++ [k]) targets

/-- The steps that are recorded when a pivot is taken. -/
def pivotSteps (style : TraceStyle) (m : DenseMatrix α) (row found col : Nat) : List (Step α) :=
  let n := m.exchanged row found
  let swap := .swap row found
  let scale := .scale row (n.entry row col)
  (if found = row then [] else [⟨swap, n, swap.describe style⟩]) ++
    ⟨scale, n.cleared row col [], scale.describe style⟩ ::
      n.eliminations style row col [] (otherRows m.rows row)

theorem operations_eliminations (done targets : List Nat) :
    (m.eliminations style row col done targets).map Step.operation =
      targets.map fun k => .eliminate k row (m.entry k col) := by
  induction targets generalizing done with
  | nil => rfl
  | cons k targets ih => rw [eliminations, List.map_cons, List.map_cons, ih]

theorem operations_pivotSteps :
    (m.pivotSteps style row found col).map Step.operation = m.pivoting row found col := by
  rw [pivotSteps, pivoting, clearing, List.map_append, List.map_cons, operations_eliminations]
  congr 1
  split <;> rfl

theorem cleared_of_mem_eliminations {done targets : List Nat} {step : Step α}
    (h : step ∈ m.eliminations style row col done targets) :
    ∃ cleared, step.snapshot = m.cleared row col cleared := by
  induction targets generalizing done with
  | nil => simp [eliminations] at h
  | cons k targets ih =>
    rcases List.mem_cons.mp h with rfl | h
    · exact ⟨_, rfl⟩
    · exact ih h

/-- While a pivot is taken, the column has been cleared from some of the rows. -/
theorem snapshot_of_mem_pivotSteps {step : Step α}
    (h : step ∈ m.pivotSteps style row found col) : step.snapshot = m.exchanged row found ∨
      ∃ targets, step.snapshot = (m.exchanged row found).cleared row col targets := by
  rcases List.mem_append.mp h with hswap | hclear
  · split at hswap
    next => simp at hswap
    next =>
      rw [List.mem_singleton.mp hswap]
      exact .inl rfl
  · rcases List.mem_cons.mp hclear with rfl | helim
    · exact .inr ⟨[], rfl⟩
    · exact .inr (cleared_of_mem_eliminations helim)

theorem stateAfter_eliminations (done targets : List Nat) :
    stateAfter (m.cleared row col done) (m.eliminations style row col done targets) =
      m.cleared row col (done ++ targets) := by
  induction targets generalizing done with
  | nil => rw [List.append_nil]; rfl
  | cons k targets ih =>
    rw [eliminations, stateAfter_cons, ih, List.append_assoc]
    rfl

theorem stateAfter_pivotSteps (hm : m.WellFormed) :
    stateAfter m (m.pivotSteps style row found col) = m.pivoted row found col := by
  have hswap : ∀ steps, stateAfter m ((if found = row then [] else
      [⟨.swap row found, m.exchanged row found,
        (Operation.swap row found : Operation α).describe style⟩]) ++ steps) =
      stateAfter (m.exchanged row found) steps := by
    intro steps
    split
    next h => rw [h, exchanged_self hm, List.nil_append]
    next => rfl
  rw [pivotSteps, hswap, stateAfter_cons, stateAfter_eliminations]
  rfl

/-- A target is changed in its turn only, so what was in the column at first is there until then. -/
theorem factorsRead_eliminations (hc : col < m.cols) {done targets : List Nat}
    (hnodup : (done ++ targets).Nodup) (hin : ∀ k ∈ targets, k < m.rows ∧ k ≠ row) :
    FactorsRead row col (m.cleared row col done) (m.eliminations style row col done targets) := by
  induction targets generalizing done with
  | nil => exact factorsRead_nil _ _ _
  | cons k targets ih =>
    obtain ⟨hk, hne⟩ := hin k List.mem_cons_self
    have hnew : k ∉ done := fun h =>
      (List.nodup_append.mp hnodup).2.2 k h k List.mem_cons_self rfl
    have happend : done ++ k :: targets = done ++ [k] ++ targets := by simp
    refine factorsRead_cons ?_ (ih (by rwa [← happend])
      fun j hj => hin j (List.mem_cons_of_mem _ hj))
    intro target factor hop
    obtain ⟨rfl, _, rfl⟩ := Operation.eliminate.inj hop
    rw [entry_cleared hk hc, if_neg hne, if_neg hnew]

theorem factorsRead_pivotSteps (hc : col < m.cols) :
    FactorsRead row col m (m.pivotSteps style row found col) := by
  have hclear : FactorsRead row col ((m.exchanged row found).cleared row col [])
      ((m.exchanged row found).eliminations style row col [] (otherRows m.rows row)) :=
    factorsRead_eliminations (m := m.exchanged row found) hc (otherRows_nodup _ _)
      fun k hk => mem_otherRows.mp hk
  rw [pivotSteps]
  split
  next => exact factorsRead_cons (by simp) hclear
  next => exact factorsRead_cons (by simp) (factorsRead_cons (by simp) hclear)

theorem pivotSteps_pivotBlock (hr : row < m.rows) (hc : col < m.cols) :
    PivotBlock row found col m (m.pivotSteps style row found col) := by
  refine ⟨⟨fun k => (m.exchanged row found).entry k col, ?_⟩, factorsRead_pivotSteps hc⟩
  rw [operations_pivotSteps, pivoting, clearing, entry_exchanged hr hc, if_pos rfl]
  rfl

/-- The steps of a run, block by block, from a row on. The answers of the pivot search are
given. -/
def pivotBlocks (style : TraceStyle) (m : DenseMatrix α) (row : Nat) :
    List (Nat × Nat) → List (List (Step α))
  | [] => []
  | (found, col) :: answers => m.pivotSteps style row found col ::
      (m.pivoted row found col).pivotBlocks style (row + 1) answers

theorem take_pivotBlocks (answers : List (Nat × Nat)) (j : Nat) :
    (m.pivotBlocks style row answers).take j = m.pivotBlocks style row (answers.take j) := by
  induction answers generalizing m row j with
  | nil => simp [pivotBlocks]
  | cons answer answers ih =>
    cases j with
    | zero => rfl
    | succ j => rw [pivotBlocks, List.take_succ_cons, List.take_succ_cons, pivotBlocks, ih]

theorem pivotBlocks_concat (hm : m.WellFormed) (answers : List (Nat × Nat)) (found col : Nat) :
    m.pivotBlocks style row (answers ++ [(found, col)]) = m.pivotBlocks style row answers ++
      [(stateAfter m (m.pivotBlocks style row answers).flatten).pivotSteps style
        (row + answers.length) found col] := by
  induction answers generalizing m row with
  | nil => rfl
  | cons answer answers ih =>
    rw [List.cons_append, pivotBlocks, ih (pivoted_wellFormed _ _ _), pivotBlocks,
      List.flatten_cons, stateAfter_append, stateAfter_pivotSteps hm, List.length_cons,
      Nat.add_right_comm, Nat.add_assoc row]
    rfl

end DenseMatrix

namespace Worksheet

variable {w w' : Worksheet α} {row found col : Nat}

theorem steps_of_eliminations {m : DenseMatrix α} (hr : row < m.rows) {done targets : List Nat}
    (hnodup : (done ++ targets).Nodup) (hin : ∀ k ∈ targets, k < m.rows ∧ k ≠ row)
    (hw : w.state = m.cleared row col done)
    (h : w.performAll (targets.map fun k => .eliminate k row (m.entry k col)) = .ok w') :
    w'.log.style = w.log.style ∧ w'.log.steps.toList =
      w.log.steps.toList ++ m.eliminations w.log.style row col done targets := by
  induction targets generalizing w done with
  | nil =>
    cases h
    simp [DenseMatrix.eliminations]
  | cons k targets ih =>
    obtain ⟨hk, hne⟩ := hin k List.mem_cons_self
    have hnew : k ∉ done := fun h =>
      (List.nodup_append.mp hnodup).2.2 k h k List.mem_cons_self rfl
    have happend : done ++ k :: targets = done ++ [k] ++ targets := by simp
    obtain ⟨v, hv, hrest⟩ := performAll_cons_ok h
    obtain ⟨hstyle, hsteps⟩ := steps_of_perform hv
    have hstate : v.state = m.cleared row col (done ++ [k]) := by
      have happly := (perform_ok hv).1
      rw [hw] at happly
      exact Except.ok.inj
        (happly.symm.trans (DenseMatrix.subtractScaledRow_cleared hr hk hne hnew col))
    obtain ⟨hstyle', hsteps'⟩ := ih (by rwa [← happend])
      (fun j hj => hin j (List.mem_cons_of_mem _ hj)) hstate hrest
    rw [hstyle] at hstyle' hsteps'
    refine ⟨hstyle', ?_⟩
    rw [hsteps', hsteps, hstate, List.append_assoc]
    rfl

theorem steps_of_clearing (hw : w.state.WellFormed) (hr : row < w.state.rows)
    (h : w.performAll (w.state.clearing row col) = .ok w') :
    let scale := .scale row (w.state.entry row col)
    w'.log.style = w.log.style ∧ w'.log.steps.toList = w.log.steps.toList ++
      ⟨scale, w.state.cleared row col [], scale.describe w.log.style⟩ ::
        w.state.eliminations w.log.style row col [] (DenseMatrix.otherRows w.state.rows row) := by
  obtain ⟨v, hv, hrest⟩ := performAll_cons_ok h
  obtain ⟨hstyle, hsteps⟩ := steps_of_perform hv
  have hstate : v.state = w.state.cleared row col [] :=
    Except.ok.inj ((perform_ok hv).1.symm.trans (DenseMatrix.scaleRow_eq_cleared hw hr col))
  obtain ⟨hstyle', hsteps'⟩ := steps_of_eliminations hr (DenseMatrix.otherRows_nodup _ _)
    (fun k hk => DenseMatrix.mem_otherRows.mp hk) hstate hrest
  rw [hstyle] at hstyle' hsteps'
  refine ⟨hstyle', ?_⟩
  rw [hsteps', hsteps, hstate, List.append_assoc]
  rfl

/-- Taking a pivot is recorded step by step. -/
theorem steps_of_pivoting (hw : w.state.WellFormed) (hr : row < w.state.rows)
    (hf : found < w.state.rows) (h : w.performAll (w.state.pivoting row found col) = .ok w') :
    w'.log.style = w.log.style ∧ w'.log.steps.toList =
      w.log.steps.toList ++ w.state.pivotSteps w.log.style row found col := by
  rw [DenseMatrix.pivoting] at h
  rw [DenseMatrix.pivotSteps]
  by_cases hfound : found = row
  · rw [if_pos hfound, hfound, DenseMatrix.exchanged_self hw, List.nil_append] at h
    rw [if_pos hfound, hfound, DenseMatrix.exchanged_self hw]
    exact steps_of_clearing hw hr h
  · rw [if_neg hfound, List.singleton_append] at h
    obtain ⟨v, hv, hrest⟩ := performAll_cons_ok h
    obtain ⟨hstyle, hsteps⟩ := steps_of_perform hv
    have hstate : v.state = w.state.exchanged row found :=
      Except.ok.inj ((perform_ok hv).1.symm.trans (DenseMatrix.swapRows_eq_exchanged hw hr hf))
    rw [← hstate] at hrest
    obtain ⟨hstyle', hsteps'⟩ := steps_of_clearing
      (by rw [hstate]; exact DenseMatrix.exchanged_wellFormed _ _) (by rwa [hstate]) hrest
    rw [hstyle] at hstyle' hsteps'
    refine ⟨hstyle', ?_⟩
    rw [hsteps', hsteps, hstate, if_neg hfound, List.append_assoc]
    rfl

end Worksheet

namespace PivotReach

variable {tolerance : α} {first w : Worksheet α} {answers : List (Nat × Nat)}

/-- The steps of a run come in blocks, and what holds at the start and is kept whenever a pivot is
taken holds throughout it. -/
theorem blocks_invariant (hfirst : first.state.WellFormed)
    {P : List (Nat × Nat) → DenseMatrix α → List (List (Step α)) → Prop}
    (start : P [] first.state [])
    (next : ∀ {answers m blocks found col}, m.WellFormed → m.rows = first.state.rows →
      m.cols = first.state.cols → answers.length < m.rows →
      m.FirstPivot tolerance answers.length (nextLead answers) found col → P answers m blocks →
      P (answers ++ [(found, col)]) (m.pivoted answers.length found col)
        (blocks ++ [m.pivotSteps first.log.style answers.length found col]))
    (reach : PivotReach tolerance first answers w) :
    ∃ blocks, w.log.steps.toList = first.log.steps.toList ++ blocks.flatten ∧
      P answers w.state blocks := by
  suffices h : ∃ blocks, w.log.style = first.log.style ∧
      w.log.steps.toList = first.log.steps.toList ++ blocks.flatten ∧ P answers w.state blocks by
    obtain ⟨blocks, _, hsteps⟩ := h
    exact ⟨blocks, hsteps⟩
  induction reach with
  | start => exact ⟨[], rfl, by simp, start⟩
  | @next answers w w' found col previous room answer taken ih =>
    obtain ⟨blocks, hstyle, hsteps, hP⟩ := ih
    obtain ⟨hw, hr, hc⟩ := previous.shape hfirst
    have hp := (DenseMatrix.findPivot_eq_some_iff hw).mp answer
    obtain ⟨v, hv, hall, hstate⟩ := Worksheet.takePivot_spec hw room hp.lt_rows hp.lt_cols
    obtain rfl : w' = v := by
      rw [taken] at hv
      exact Except.ok.inj hv
    obtain ⟨hstyle', hsteps'⟩ := Worksheet.steps_of_pivoting hw room hp.lt_rows hall
    rw [hstyle] at hstyle' hsteps'
    refine ⟨_, hstyle', ?_, hstate ▸ next hw hr hc room hp hP⟩
    rw [hsteps', hsteps, List.flatten_concat, List.append_assoc]

/-- The answers of the search say what a run records. -/
theorem schedule_pivotBlocks (hfirst : first.state.WellFormed)
    (reach : PivotReach tolerance first answers w) :
    let blocks := first.state.pivotBlocks first.log.style 0 answers
    w.log.steps.toList = first.log.steps.toList ++ blocks.flatten ∧
      Schedule tolerance first.state answers blocks ∧
      stateAfter first.state blocks.flatten = w.state := by
  obtain ⟨_, hsteps, rfl, hrest⟩ := reach.blocks_invariant hfirst (P := fun answers m blocks =>
    blocks = first.state.pivotBlocks first.log.style 0 answers ∧
      Schedule tolerance first.state answers blocks ∧ stateAfter first.state blocks.flatten = m)
    ⟨rfl, schedule_nil _ _, rfl⟩ (by
      rintro answers m _ found col hm _ _ room hp ⟨rfl, hschedule, rfl⟩
      refine ⟨?_, hschedule.concat hp (DenseMatrix.pivotSteps_pivotBlock room hp.lt_cols), ?_⟩
      · rw [DenseMatrix.pivotBlocks_concat hfirst, Nat.zero_add]
      · rw [List.flatten_concat, stateAfter_append, DenseMatrix.stateAfter_pivotSteps hm])
  exact ⟨hsteps, hrest⟩

theorem schedule (hfirst : first.state.WellFormed) (reach : PivotReach tolerance first answers w) :
    ∃ blocks, w.log.steps.toList = first.log.steps.toList ++ blocks.flatten ∧
      Schedule tolerance first.state answers blocks ∧
      stateAfter first.state blocks.flatten = w.state :=
  ⟨_, reach.schedule_pivotBlocks hfirst⟩

/-- Pivots are taken from left to right, at most one in a row. -/
theorem sorted (hfirst : first.state.WellFormed) (reach : PivotReach tolerance first answers w) :
    (pivotColumns answers).Pairwise (· < ·) ∧ (∀ c ∈ pivotColumns answers, c < first.state.cols) ∧
      answers.length ≤ first.state.rows := by
  obtain ⟨_, _, _, hsorted, _, hcols, hrows⟩ := reach.invariant hfirst
    (P := fun answers _ _ => (pivotColumns answers).Pairwise (· < ·) ∧
      (∀ c ∈ pivotColumns answers, c < nextLead answers) ∧
      (∀ c ∈ pivotColumns answers, c < first.state.cols) ∧ answers.length ≤ first.state.rows)
    ⟨List.Pairwise.nil, by simp, by simp, Nat.zero_le _⟩
    (by
      rintro answers m ops found col _ hrows hcols room hp ⟨hsorted, hlead, hlt, _⟩
      have hnew : ∀ c ∈ pivotColumns answers, c < col := fun c hc =>
        Nat.lt_of_lt_of_le (hlead c hc) hp.lead_le
      rw [pivotColumns_append, nextLead_append]
      refine ⟨pairwise_lt_concat hsorted fun last hl => hnew last (List.mem_of_getLast? hl),
        ?_, ?_, by rw [List.length_append, List.length_singleton]; omega⟩
      · intro c hc
        rcases List.mem_append.mp hc with hc | hc
        · exact Nat.lt_succ_of_lt (hnew c hc)
        · rw [List.mem_singleton.mp hc]
          exact Nat.lt_succ_self col
      · intro c hc
        rcases List.mem_append.mp hc with hc | hc
        · exact hlt c hc
        · rw [List.mem_singleton.mp hc, ← hcols]
          exact hp.lt_cols)
  exact ⟨hsorted, hcols, hrows⟩

end PivotReach

namespace DenseMatrix

/-- A reduction takes its pivots in blocks of steps, each where the search in the matrix before it
has found one, in columns further and further to the right, until no usable cell is left for want
of rows, of columns or of cells that do not count as zero. -/
theorem reduce_schedule (tolerance : α) {m : DenseMatrix α} (hm : m.WellFormed) :
    ∃ w answers blocks, m.reduce tolerance = .ok w ∧ w.log.steps.toList = blocks.flatten ∧
      Schedule tolerance m answers blocks ∧ (pivotColumns answers).Pairwise (· < ·) ∧
      answers.length ≤ min m.rows m.cols ∧ (∀ n ∈ w.log.snapshots, n.HasShape m.rows m.cols) ∧
      w.state = stateAfter m blocks.flatten ∧
      w.state.NoPivot tolerance answers.length (nextLead answers) ∧
      w.log.size = answers.length * m.rows + w.log.exchanges := by
  obtain ⟨answers, w, hrun, reach, hs⟩ := reduce_reach tolerance hm
  obtain ⟨blocks, hsteps, hschedule, hstate⟩ := reach.schedule hm
  obtain ⟨_, hshows⟩ := reach.shows ⟨hm, rfl, rfl⟩ (TraceLog.shows_empty _)
  obtain ⟨hsorted, hcols, hrows⟩ := reach.sorted hm
  obtain ⟨hexchanges, hsize⟩ := reach.reduction_counts hm
  have hwide := length_le_of_sorted hsorted hcols
  rw [length_pivotColumns] at hwide
  refine ⟨_, answers, blocks, hrun, hsteps, hschedule, hsorted, Nat.le_min.mpr ⟨hrows, hwide⟩, ?_,
    hstate.symm, (settled_iff (reach.shape hm).1).mp hs, ?_⟩
  · intro n hn
    obtain ⟨step, hstep, rfl⟩ := List.mem_map.mp hn
    exact hshows.shape step hstep
  · show w.log.size = answers.length * m.rows + w.log.exchanges
    rw [hsize, hexchanges]

/-- The first pivot is below the first row, and its row is brought up. -/
theorem reduce_schedule_exchanged :
    (⟨2, 3, #[0, 1, 2, 1, 0, 3]⟩ : DenseMatrix Float).WellFormed ∧
    ∃ w answers blocks,
      (⟨2, 3, #[0, 1, 2, 1, 0, 3]⟩ : DenseMatrix Float).reduce 1e-10 = .ok w ∧
      w.log.steps.toList = blocks.flatten ∧
      Schedule 1e-10 ⟨2, 3, #[0, 1, 2, 1, 0, 3]⟩ answers blocks ∧
      w.log.exchanges = 1 ∧ answers.length = 2 ∧ w.log.size = 5 := by
  have hm : (⟨2, 3, #[0, 1, 2, 1, 0, 3]⟩ : DenseMatrix Float).WellFormed := rfl
  have hcounts : ((⟨2, 3, #[0, 1, 2, 1, 0, 3]⟩ : DenseMatrix Float).reduce 1e-10).toOption.map
      (fun w => (w.log.exchanges, w.log.size)) = some (1, 5) := by decide +kernel
  obtain ⟨w, answers, blocks, hrun, hsteps, hschedule, _, _, _, _, _, hsize⟩ :=
    reduce_schedule 1e-10 hm
  rw [hrun] at hcounts
  obtain ⟨hexchanges, hfive⟩ := Prod.mk.inj (Option.some.inj hcounts)
  refine ⟨hm, w, answers, blocks, hrun, hsteps, hschedule, hexchanges, ?_, hfive⟩
  change w.log.size = answers.length * 2 + w.log.exchanges at hsize
  omega

end DenseMatrix

end GaussJordan
