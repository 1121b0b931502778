import GaussJordan.Proofs.CopiedCells
import GaussJordan.Proofs.DiagonalRun
import GaussJordan.Proofs.ExactArithmetic

namespace GaussJordan

variable {α : Type} [Scalar α]

/-- Each step holds what its operation makes of the matrix before it, and is described in the given
style. -/
inductive Replays (style : TraceStyle) :
    DenseMatrix α → List (Step α) → DenseMatrix α → Prop where
  | done (m : DenseMatrix α) : Replays style m [] m
  | step {m next last : DenseMatrix α} {op : Operation α} {steps : List (Step α)}
    (applied : op.apply m = .ok next) (rest : Replays style next steps last) :
    Replays style m (⟨op, next, op.describe style⟩ :: steps) last

namespace Worksheet

variable {w w' : Worksheet α}

/-- What a derivation records can be replayed from where it began. -/
theorem performAll_replays {ops : List (Operation α)} (h : w.performAll ops = .ok w') :
    ∃ steps, w'.log.steps.toList = w.log.steps.toList ++ steps ∧ w'.log.style = w.log.style ∧
      Replays w.log.style w.state steps w'.state := by
  induction ops generalizing w with
  | nil =>
    cases h
    exact ⟨[], by simp, rfl, .done _⟩
  | cons op ops ih =>
    obtain ⟨v, hv, hrest⟩ := performAll_cons_ok h
    obtain ⟨happly, hlog⟩ := perform_ok hv
    obtain ⟨steps, hsteps, hstyle, hreplays⟩ := ih hrest
    have hv' : v.log.style = w.log.style := by rw [hlog, TraceLog.record]
    rw [hv'] at hstyle hreplays
    refine ⟨⟨op, v.state, op.describe w.log.style⟩ :: steps, ?_, hstyle, .step happly hreplays⟩
    rw [hsteps, hlog]
    simp [TraceLog.record]

end Worksheet

namespace DenseMatrix

variable {m : DenseMatrix α}

theorem reduce_replays (tolerance : α) (hm : m.WellFormed) :
    ∃ w, m.reduce tolerance = .ok w ∧ w.log.style = .reduction ∧
      Replays .reduction m w.log.steps.toList w.state := by
  obtain ⟨answers, w, hrun, reach, _⟩ := reduce_reach tolerance hm
  obtain ⟨ops, hall⟩ := reach.derivation hm
  obtain ⟨steps, hsteps, hstyle, hreplays⟩ := Worksheet.performAll_replays hall
  obtain rfl : w.log.steps.toList = steps := hsteps
  exact ⟨_, hrun, hstyle, hreplays⟩

theorem transposeBySteps_replays (hm : m.WellFormed) :
    ∃ w, m.transposeBySteps = .ok w ∧ w.log.style = .transposition ∧
      Replays .transposition (zeros m.cols m.rows) w.log.steps.toList w.state := by
  obtain ⟨w, hrun, hall⟩ := transposeBySteps_spec hm
  obtain ⟨steps, hsteps, hstyle, hreplays⟩ := Worksheet.performAll_replays hall
  obtain rfl : w.log.steps.toList = steps := hsteps
  exact ⟨w, hrun, hstyle, hreplays⟩

theorem invert_replays {tolerance : α} (hsq : m.IsSquare) (hn : 0 < m.rows)
    {inverse : DenseMatrix α} {sheet : Worksheet α}
    (h : m.invert tolerance = .ok (.computed inverse sheet)) :
    sheet.log.style = .inversion ∧ ∃ steps last,
      sheet.log.steps.toList = ⟨.augment, m.augmentIdentity,
        (Operation.augment : Operation α).describe .inversion⟩ :: steps ∧
      Replays .inversion m.augmentIdentity steps last ∧
      last.columns m.rows (2 * m.rows) = .ok inverse := by
  obtain ⟨w, reach, rfl, rfl⟩ := reach_of_invert_computed hsq hn h
  obtain ⟨ops, hall⟩ := reach.derivation augmentIdentity_wellFormed
  obtain ⟨steps, hsteps, hstyle, hreplays⟩ := Worksheet.performAll_replays hall
  obtain ⟨_, hrows, hcols⟩ := inversion_shape reach
  exact ⟨hstyle, steps, w.state, hsteps, hreplays, columns_right_half hsq hn hrows hcols⟩

end DenseMatrix

end GaussJordan
