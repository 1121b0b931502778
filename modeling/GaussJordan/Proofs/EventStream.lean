import GaussJordan.Proofs.RowExchanges
import GaussJordan.Proofs.SolvedSquare

namespace GaussJordan

variable {α : Type}

namespace TraceLog

/-- The events that report the steps of a log. -/
def events (log : TraceLog α) : List (Event α) :=
  log.steps.toList.map fun step => .step log.style step.operation step.description

theorem message_events (log : TraceLog α) :
    log.events.map Event.message = log.steps.toList.map Step.description := by
  rw [events, List.map_map]
  rfl

theorem level_of_mem_events {log : TraceLog α} {event : Event α} (h : event ∈ log.events) :
    event.level = .trace := by
  obtain ⟨step, _, rfl⟩ := List.mem_map.mp h
  rfl

end TraceLog

variable [Scalar α] {tolerance : α}

/-- The event that reports an operation. -/
def Operation.event (style : TraceStyle) (op : Operation α) : Event α :=
  .step style op (op.describe style)

theorem TraceLog.events_record (log : TraceLog α) (op : Operation α) (m : DenseMatrix α) :
    (log.record op m).events = log.events ++ [op.event log.style] := by
  simp [events, record, Operation.event]

theorem Worksheet.perform_events {w w' : Worksheet α} {op : Operation α}
    (h : w.perform op = .ok w') : w'.log.style = w.log.style ∧
      w'.log.events = w.log.events ++ [op.event w.log.style] ∧
      w'.journal.toList = w.journal.toList ++ [op.event w.log.style] := by
  obtain ⟨next, happly, _⟩ := exists_of_bind_ok h
  rw [perform_of_apply happly] at h
  cases h
  exact ⟨rfl, TraceLog.events_record _ _ _, Array.toList_push⟩

/-- A derivation reports each operation that it records, in the same order. -/
theorem Worksheet.performAll_events {w w' : Worksheet α} {ops : List (Operation α)}
    (h : w.performAll ops = .ok w') :
    w'.log.events = w.log.events ++ ops.map (Operation.event w.log.style) ∧
      w'.journal.toList = w.journal.toList ++ ops.map (Operation.event w.log.style) := by
  induction ops generalizing w with
  | nil =>
    cases h
    simp
  | cons op ops ih =>
    obtain ⟨v, hv, hrest⟩ := performAll_cons_ok h
    obtain ⟨hstyle, hevent, hreport⟩ := perform_events hv
    obtain ⟨hevents, hjournal⟩ := ih hrest
    rw [hevents, hjournal, hevent, hreport, hstyle]
    simp

theorem Worksheet.size_of_performAll {w w' : Worksheet α} {ops : List (Operation α)}
    (h : w.performAll ops = .ok w') : w'.log.size = w.log.size + ops.length := by
  have hsize : ∀ log : TraceLog α, log.operations.length = log.size := fun log => by
    simp [TraceLog.operations, TraceLog.size]
  rw [← hsize, operations_of_performAll h, List.length_append, hsize]

/-- What stands in the journal of a derivation that starts with nothing recorded. -/
theorem Worksheet.journal_of_performAll {w w' : Worksheet α} {ops : List (Operation α)}
    (hnew : w.log.events = []) (h : w.performAll ops = .ok w') :
    w'.journal.toList = w.journal.toList ++ w'.log.events := by
  obtain ⟨hevents, hjournal⟩ := performAll_events h
  rw [hjournal, hevents, hnew, List.nil_append]

namespace DenseMatrix

variable {m : DenseMatrix α}

/-- The matrix after the first `count` diagonal cells have been taken as pivots. -/
def diagonalCleared (m : DenseMatrix α) : Nat → DenseMatrix α
  | 0 => m
  | i + 1 => (m.diagonalCleared i).cleared i i (otherRows m.rows i)

/-- The operations that take the first `count` diagonal cells as pivots, block by block. -/
def diagonalClearing (m : DenseMatrix α) : Nat → List (Operation α)
  | 0 => []
  | i + 1 => m.diagonalClearing i ++ (m.diagonalCleared i).clearing i i

@[simp] theorem diagonalCleared_rows (count : Nat) : (m.diagonalCleared count).rows = m.rows := by
  induction count with
  | zero => rfl
  | succ i ih => rw [diagonalCleared, cleared_rows, ih]

theorem length_diagonalClearing {count : Nat} (h : count ≤ m.rows) :
    (m.diagonalClearing count).length = count * m.rows := by
  induction count with
  | zero => simp [diagonalClearing]
  | succ i ih =>
    have hi : i < (m.diagonalCleared i).rows := by
      rw [diagonalCleared_rows]
      omega
    rw [diagonalClearing, List.length_append, ih (by omega), length_clearing hi,
      diagonalCleared_rows, Nat.succ_mul]

end DenseMatrix

/-- A run whose answers are the first cells of the diagonal is made of complete blocks. -/
theorem PivotReach.diagonal_blocks {first w : Worksheet α} {count : Nat}
    (hfirst : first.state.WellFormed) (reach : PivotReach tolerance first (diagonal count) w) :
    first.performAll (first.state.diagonalClearing count) = .ok w ∧
      w.state = first.state.diagonalCleared count := by
  -- the answers so far tell how many blocks there are, and the last of them which one is last
  obtain ⟨_, ops, hall, hblocks⟩ := reach.invariant hfirst
    (P := fun answers n ops => ∀ k, answers = diagonal k →
      ops = first.state.diagonalClearing k ∧ n = first.state.diagonalCleared k)
    (by
      intro k hk
      cases k with
      | zero => exact ⟨rfl, rfl⟩
      | succ k => simp [diagonal_succ] at hk)
    (by
      intro answers n ops found col hn hrows _ _ _ ih k hk
      cases k with
      | zero => simp [diagonal] at hk
      | succ k =>
        rw [diagonal_succ, List.append_singleton_inj] at hk
        obtain ⟨rfl, hanswer⟩ := hk
        obtain ⟨hfound, hcol⟩ := Prod.mk.inj hanswer
        rw [hfound, hcol]
        obtain ⟨rfl, rfl⟩ := ih k rfl
        rw [length_diagonal]
        simp only [DenseMatrix.pivoting, DenseMatrix.pivoted, DenseMatrix.exchanged_self hn]
        rw [hrows]
        exact ⟨rfl, rfl⟩)
  obtain ⟨rfl, hstate⟩ := hblocks count rfl
  exact ⟨hall, hstate⟩

/-- The one event that tells how many solutions a system has. -/
def SolutionReport.AnnouncedBy (unknowns : Nat) (event : Event α) : SolutionReport α → Prop
  | .unique values => event = .unique values
  | .infinite => ∃ rank, rank < unknowns ∧ event = .underdetermined rank unknowns
  | .noSolution => event = .inconsistent unknowns

/-- The events of looking for an inverse. One that is found is announced with the length of its
trace, whose steps have all been reported. If a diagonal cell counts as zero, the complete blocks
before it have been reported, though no trace is returned. -/
def InverseOutcome.AnnouncedBy (tolerance : α) (m : DenseMatrix α) (events : List (Event α)) :
    InverseOutcome α → Prop
  | .computed _ trace => ∃ rest, trace.events = Operation.augment.event .inversion :: rest ∧
      trace.size = 1 + m.rows * m.rows ∧
      events = Operation.augment.event .inversion :: .inverting m.rows :: rest ++
        [.inverted m.rows trace.size]
  | .singular i => i < m.rows ∧
      (m.augmentIdentity.diagonalClearing i).length = i * m.rows ∧
      isZero tolerance ((m.augmentIdentity.diagonalCleared i).entry i i) = true ∧
      events = Operation.augment.event .inversion :: .inverting m.rows ::
        (m.augmentIdentity.diagonalClearing i).map (Operation.event .inversion) ++
        [.zeroPivot i ((m.augmentIdentity.diagonalCleared i).entry i i)]
  | .notSquare => ¬m.IsSquare ∧ events = [.inverseSkipped m.rows m.cols]

/-- The index of the diagonal cell that leaves a matrix without an inverse. -/
def InverseOutcome.stoppedAt {β : Type} : InverseOutcome β → Option Nat
  | .computed _ _ => none
  | .singular i => some i
  | .notSquare => none

namespace DenseMatrix

variable {m : DenseMatrix α}

theorem reduce_events (tolerance : α) (hm : m.WellFormed) : ∃ w, m.reduce tolerance = .ok w ∧
    w.state.WellFormed ∧ w.state.cols = m.cols ∧
    w.journal.toList = .reducing m.rows m.cols :: w.log.events ++ [.reduced w.log.size] := by
  obtain ⟨answers, w, hrun, reach, _⟩ := reduce_reach tolerance hm
  obtain ⟨hw, _, hcols⟩ := reach.shape hm
  obtain ⟨ops, hall⟩ := reach.derivation hm
  have hjournal := Worksheet.journal_of_performAll rfl hall
  refine ⟨_, hrun, hw, hcols, ?_⟩
  show (w.journal.push (.reduced w.log.size)).toList = _
  rw [Array.toList_push, hjournal]
  rfl

theorem transposeBySteps_events (hm : m.WellFormed) : ∃ w, m.transposeBySteps = .ok w ∧
    w.journal.toList = .transposing m.rows m.cols :: w.log.events := by
  obtain ⟨w, hrun, hall⟩ := transposeBySteps_spec hm
  exact ⟨w, hrun, Worksheet.journal_of_performAll rfl hall⟩

theorem classify_announced (tolerance : α) (hm : m.WellFormed) (hc : 0 < m.cols) :
    ∃ report verdict, m.classify tolerance = .ok (report, verdict) ∧
      report.AnnouncedBy (m.cols - 1) verdict ∧ verdict.level = .info := by
  by_cases hcontra : ∃ r, r < m.rows ∧ m.Contradicts tolerance r
  · exact ⟨_, _, classify_of_contradiction hm hc hcontra, rfl, rfl⟩
  · rcases Nat.lt_or_ge (m.occupiedFrom tolerance 0) (m.cols - 1) with hfew | henough
    · exact ⟨_, _, classify_of_few_rows hm hc hcontra hfew, ⟨_, hfew, rfl⟩, rfl⟩
    · exact ⟨_, _, classify_of_enough_rows hm hc hcontra henough, rfl, rfl⟩

theorem inverseOutcome_announced (tolerance : α) (hn : 0 < m.rows) :
    ∃ outcome events, m.inverseOutcome tolerance = .ok (outcome, events) ∧
      outcome.AnnouncedBy tolerance m events.toList := by
  have hwf : m.augmentIdentity.WellFormed := augmentIdentity_wellFormed
  by_cases hsq : m.IsSquare
  · rcases invert_reach tolerance hsq hn with ⟨w, reach, hrun⟩ | ⟨i, w, hi, reach, hz, hrun⟩
    · obtain ⟨hall, _⟩ := reach.diagonal_blocks hwf
      obtain ⟨hevents, hjournal⟩ := Worksheet.performAll_events hall
      have hsize := Worksheet.size_of_performAll hall
      refine ⟨_, _, inverseOutcome_of_computed hsq hrun, _, hevents, ?_, ?_⟩
      · have hblocks : (m.augmentIdentity.diagonalClearing m.rows).length = m.rows * m.rows :=
          length_diagonalClearing (Nat.le_refl m.rows)
        exact hsize.trans (congrArg (1 + ·) hblocks)
      · show (w.journal.push (.inverted m.rows w.log.size)).toList = _
        rw [Array.toList_push, hjournal]
        rfl
    · obtain ⟨hall, hstate⟩ := reach.diagonal_blocks hwf
      obtain ⟨_, hjournal⟩ := Worksheet.performAll_events hall
      have hcleared : w.state = m.augmentIdentity.diagonalCleared i := hstate
      rw [hcleared] at hz hrun
      refine ⟨_, _, inverseOutcome_of_singular hsq hrun, hi,
        length_diagonalClearing (Nat.le_of_lt hi), hz, ?_⟩
      show (w.journal.push (.zeroPivot i _)).toList = _
      rw [Array.toList_push, hjournal]
      rfl
  · exact ⟨_, _, inverseOutcome_of_not_isSquare tolerance hsq, hsq, rfl⟩

end DenseMatrix

end GaussJordan
