import GaussJordan.Proofs.CopiedCells
import GaussJordan.Proofs.SolvingByInverse
import GaussJordan.Solution

namespace GaussJordan

namespace DenseMatrix

section Solve

variable {α : Type} [Scalar α] {m : DenseMatrix α}

theorem solve_of_parts {config : Config α} {reduction transposition : Worksheet α}
    {report : SolutionReport α} {verdict : Event α} {inverse : InverseOutcome α}
    {events : Array (Event α)} (hreduce : m.reduce config.epsilon = .ok reduction)
    (hclassify : reduction.state.classify config.epsilon = .ok (report, verdict))
    (htranspose : m.transposeBySteps = .ok transposition)
    (hinverse : m.inverseOutcome config.epsilon = .ok (inverse, events)) :
    m.solve config = .ok (⟨m, reduction.state, reduction.log, report, transposition.state,
      transposition.log, inverse⟩,
      reduction.journal ++ #[verdict] ++ transposition.journal ++ events) := by
  simp only [solve, hreduce, hclassify, htranspose, hinverse, bind_ok]
  rfl

theorem inverseOutcome_of_computed {tolerance : α} {inverse : DenseMatrix α} {sheet : Worksheet α}
    (hsq : m.IsSquare) (h : m.invert tolerance = .ok (.computed inverse sheet)) :
    m.inverseOutcome tolerance = .ok (.computed inverse sheet.log, sheet.journal) := by
  rw [inverseOutcome, if_neg (fun hne => hne hsq)]
  rw [h]
  rfl

theorem inverseOutcome_of_singular {tolerance : α} {step : Nat} {sheet : Worksheet α}
    (hsq : m.IsSquare) (h : m.invert tolerance = .ok (.singular step sheet)) :
    m.inverseOutcome tolerance = .ok (.singular step, sheet.journal) := by
  rw [inverseOutcome, if_neg (fun hne => hne hsq)]
  rw [h]
  rfl

theorem inverseOutcome_of_not_isSquare (tolerance : α) (hsq : ¬m.IsSquare) :
    m.inverseOutcome tolerance = .ok (.notSquare, #[.inverseSkipped m.rows m.cols]) := by
  rw [inverseOutcome, if_pos hsq]
  rfl

/-- The outcome for a square matrix is that of the inversion, one of two. -/
theorem inverseOutcome_spec (tolerance : α) (hsq : m.IsSquare) (hn : 0 < m.rows) :
    ∃ outcome events, m.inverseOutcome tolerance = .ok (outcome, events) ∧
      ((∃ inverse trace, outcome = .computed inverse trace) ↔
        ∃ inverse sheet, m.invert tolerance = .ok (.computed inverse sheet)) ∧
      ((∃ step, outcome = .singular step) ↔ ¬∃ inverse trace, outcome = .computed inverse trace) := by
  rcases invert_reach tolerance hsq hn with ⟨w, _, hrun⟩ | ⟨i, w, _, _, _, hrun⟩
  · refine ⟨_, _, inverseOutcome_of_computed hsq hrun, ?_, ?_⟩
    · exact iff_of_true ⟨_, _, rfl⟩ ⟨_, _, hrun⟩
    · simp
  · refine ⟨_, _, inverseOutcome_of_singular hsq hrun, ?_, ?_⟩
    · simp [hrun]
    · simp

end Solve

variable {tolerance : ℚ} {m : DenseMatrix ℚ} {n : Nat}

/-- Read as a system of equations, the identity says in its last row that zero is one. -/
theorem classify_identity (hn : 0 < n) (ht : 0 ≤ tolerance) (ht' : tolerance < 1) :
    (identity n : DenseMatrix ℚ).classify tolerance = .ok (.noSolution, .inconsistent (n - 1)) := by
  refine classify_of_contradiction (generate_wellFormed _ _ _) hn ⟨n - 1, Nat.sub_one_lt_of_lt hn,
    fun c hc => ?_, ?_⟩
  · change c < n - 1 at hc
    rw [entry_identity (by omega) (by omega), if_neg (by omega)]
    exact isZero_zero ht
  · change isZero tolerance ((identity n : DenseMatrix ℚ).entry (n - 1) (n - 1)) = false
    rw [entry_identity (by omega) (by omega), if_pos rfl, isZero_eq_false_iff, abs_one]
    exact ht'

end DenseMatrix

namespace PivotReach

open DenseMatrix

variable {tolerance : ℚ} {m : DenseMatrix ℚ} {w : Worksheet ℚ} {answers : List (Nat × Nat)}

theorem eq_identity_of_diagonal (ht : 0 ≤ tolerance) (hm : m.WellFormed) (hsq : m.IsSquare)
    (reach : PivotReach tolerance (reductionSheet m) (diagonal m.rows) w) :
    w.state = identity m.rows := by
  obtain ⟨hw, hr, hc⟩ := reach.shape hm
  have hcols : m.rows = m.cols := hsq
  refine ext_entry hw (generate_wellFormed _ _ _) hr (hc.trans hcols.symm) fun r c hrow hcol => ?_
  have hrm : r < m.rows := hr ▸ hrow
  have hcm : c < m.rows := hcols ▸ hc ▸ hcol
  rw [(reach.pivotsTaken ht hm).entry_diagonal hrow hcm, entry_identity hrm hcm]

/-- A reduction that ends with the identity and never exchanged rows cannot have passed over a
column or stopped early: every pivot is on the diagonal. -/
theorem answers_of_identity (ht : 0 ≤ tolerance) (ht' : tolerance < 1) (hm : m.WellFormed)
    (reach : PivotReach tolerance (reductionSheet m) answers w) (hs : Settled tolerance answers w)
    (hidentity : w.state = identity m.rows) (hbelow : foundBelow answers = 0) :
    ∀ r, r < m.rows → answers[r]? = some (r, r) := by
  have hu := (reach.pivotsTaken ht hm).toUnitColumns
  have hanswer : ∀ (i : Nat) answer, answers[i]? = some answer → answer = (i, i) := by
    intro i answer hi
    have hget : (pivotColumns answers)[i]? = some answer.2 := by
      rw [pivotColumns, List.getElem?_map, hi]
      rfl
    have hrow := hu.lt_rows hget
    have hcol := hu.lt_cols_of_get hget
    have hone := hu.unit i _ hget i hrow
    rw [hidentity] at hrow hcol hone
    change i < m.rows at hrow
    change answer.2 < m.rows at hcol
    rw [entry_identity hrow hcol, if_pos rfl] at hone
    have hcolumn : i = answer.2 := by
      by_contra hne
      rw [if_neg hne] at hone
      exact zero_ne_one hone
    exact Prod.ext (foundBelow_eq_zero_iff.mp hbelow i answer hi) hcolumn.symm
  have hall : m.rows ≤ answers.length := by
    by_contra hlt
    -- the next diagonal cell is still a one
    have hlead : nextLead answers ≤ answers.length := by
      refine nextLead_le fun c hc => ?_
      obtain ⟨i, hi⟩ := List.getElem?_of_mem hc
      rw [pivotColumns, List.getElem?_map, Option.map_eq_some_iff] at hi
      obtain ⟨answer, hget, rfl⟩ := hi
      rw [hanswer i answer hget]
      exact lt_length_of_getElem?_eq_some hget
    have hno := (settled_iff (reach.shape hm).1).mp hs
    rw [hidentity] at hno
    have hz := hno answers.length answers.length (Nat.le_refl _) (Nat.lt_of_not_le hlt) hlead
      (Nat.lt_of_not_le hlt)
    rw [entry_identity (by omega) (by omega), if_pos rfl, isZero_iff, abs_one] at hz
    exact absurd hz (not_le.mpr ht')
  intro r hr
  have hget : answers[r]? = some answers[r] := List.getElem?_eq_getElem (by omega)
  rw [hget, hanswer r _ hget]

end PivotReach

namespace DenseMatrix

variable {m : DenseMatrix ℚ}

theorem agreesUpTo_augmentIdentity (hsq : m.IsSquare) : m.augmentIdentity.AgreesUpTo m.rows m where
  rows_eq := rfl
  le_cols := Nat.le_add_left m.rows m.cols
  le_cols' := Nat.le_of_eq hsq
  entry_eq r c hr hc := by
    have hcols : m.cols = m.rows := hsq.symm
    change r < m.rows at hr
    rw [entry_augmentIdentity_left hr (by omega)]

/-- An inverse is found exactly for what reduces to the identity without exchanging rows. -/
theorem invert_computed_iff_identity {tolerance : ℚ} {w : Worksheet ℚ} {answers : List (Nat × Nat)}
    (ht : 0 ≤ tolerance) (ht' : tolerance < 1) (hm : m.WellFormed) (hsq : m.IsSquare)
    (hn : 0 < m.rows) (reach : PivotReach tolerance (reductionSheet m) answers w)
    (hs : Settled tolerance answers w) :
    (∃ inverse sheet, m.invert tolerance = .ok (.computed inverse sheet)) ↔
      w.state = identity m.rows ∧ w.log.exchanges = 0 := by
  have hfollows := invert_follows_pivots hsq hn hm (agreesUpTo_augmentIdentity hsq) ⟨w, reach, hs⟩
  rw [hfollows.1, (reach.reduction_counts hm).1]
  constructor
  · intro hall
    have hlength : answers.length ≤ m.rows := by
      have hle := (reach.pivotsTaken ht hm).toUnitColumns.length_le
      rw [length_pivotColumns] at hle
      exact (reach.shape hm).2.1 ▸ hle
    obtain rfl := (diagonal_prefix_iff.mpr hall).eq_of_length_le (by rwa [length_diagonal])
    exact ⟨reach.eq_identity_of_diagonal ht hm hsq, foundBelow_diagonal _⟩
  · rintro ⟨hidentity, hbelow⟩
    exact reach.answers_of_identity ht ht' hm hs hidentity hbelow

/-- The inverse of a square matrix is found exactly when its reduction ends with the identity and
exchanges no rows. The report on it is then that there is no solution: the last column, taken for
the right-hand side, holds a pivot. -/
theorem solve_inverse_computed_iff (config : Config ℚ) (hm : m.WellFormed) (hsq : m.IsSquare)
    (hn : 0 < m.rows) (ht : 0 ≤ config.epsilon) (ht' : config.epsilon < 1) :
    ∃ s events, m.solve config = .ok (s, events) ∧
      ((∃ inverse trace, s.inverse = .computed inverse trace) ↔
        s.reduced = identity m.rows ∧ s.reductionTrace.exchanges = 0) ∧
      ((∃ inverse trace, s.inverse = .computed inverse trace) → s.report = .noSolution) ∧
      (s.reduced = identity m.rows →
        ((∃ step, s.inverse = .singular step) ↔ s.reductionTrace.exchanges ≠ 0)) := by
  obtain ⟨answers, w, hreduce, reach, hs⟩ := reduce_reach config.epsilon hm
  obtain ⟨hw, _, hwc⟩ := reach.shape hm
  have hcols : 0 < w.state.cols := by
    rw [hwc]
    exact hsq ▸ hn
  obtain ⟨report, verdict, hclassify, _⟩ :=
    (reach.pivotsTaken ht hm).toUnitColumns.classify_agrees hw hcols ht ht' (reach.zeroTail hm hs)
  obtain ⟨t, htranspose, _⟩ := transposeBySteps_spec hm
  obtain ⟨outcome, events, houtcome, hcomputed, hsingular⟩ :=
    inverseOutcome_spec config.epsilon hsq hn
  have hfound : (∃ inverse trace, outcome = .computed inverse trace) ↔
      w.state = identity m.rows ∧ w.log.exchanges = 0 :=
    hcomputed.trans (invert_computed_iff_identity ht ht' hm hsq hn reach hs)
  refine ⟨_, _, solve_of_parts hreduce hclassify htranspose houtcome, hfound, fun h => ?_,
    fun hidentity => ?_⟩
  · rw [(hfound.mp h).1, classify_identity hn ht ht'] at hclassify
    cases hclassify
    rfl
  · change w.state = identity m.rows at hidentity
    change (∃ step, outcome = .singular step) ↔ w.log.exchanges ≠ 0
    rw [hsingular, hfound]
    simp [hidentity]

/-- The second matrix is its own inverse, but its rows have to be exchanged. -/
theorem solve_inverse_computed_iff_pair :
    (0 : ℚ) ≤ 1 / 10 ^ 10 ∧ (1 / 10 ^ 10 : ℚ) < 1 ∧
    (⟨2, 2, #[1, 2, 3, 4]⟩ : DenseMatrix ℚ).IsSquare ∧
    (∃ s events, (⟨2, 2, #[1, 2, 3, 4]⟩ : DenseMatrix ℚ).solve ⟨1 / 10 ^ 10, 2, 4⟩ =
        .ok (s, events) ∧ s.reduced = identity 2 ∧ s.reductionTrace.exchanges = 0 ∧
      (∃ inverse trace, s.inverse = .computed inverse trace) ∧ s.report = .noSolution) ∧
    (⟨2, 2, #[0, 1, 1, 0]⟩ : DenseMatrix ℚ).IsSquare ∧
    ∃ s events, (⟨2, 2, #[0, 1, 1, 0]⟩ : DenseMatrix ℚ).solve ⟨1 / 10 ^ 10, 2, 4⟩ =
        .ok (s, events) ∧ s.reduced = identity 2 ∧ s.reductionTrace.exchanges = 1 ∧
      ∃ step, s.inverse = .singular step := by
  have ht : (0 : ℚ) ≤ 1 / 10 ^ 10 := by norm_num
  have ht' : (1 / 10 ^ 10 : ℚ) < 1 := by norm_num
  have hkept : ((⟨2, 2, #[1, 2, 3, 4]⟩ : DenseMatrix ℚ).solve ⟨1 / 10 ^ 10, 2, 4⟩).toOption.any
      (fun outcome => decide (outcome.1.reduced = identity 2 ∧
        outcome.1.reductionTrace.exchanges = 0)) = true := by decide +kernel
  have hexchanged : ((⟨2, 2, #[0, 1, 1, 0]⟩ : DenseMatrix ℚ).solve
      ⟨1 / 10 ^ 10, 2, 4⟩).toOption.any
      (fun outcome => decide (outcome.1.reduced = identity 2 ∧
        outcome.1.reductionTrace.exchanges = 1)) = true := by decide +kernel
  obtain ⟨s, events, hsolve, hcomputed, hreport, _⟩ := solve_inverse_computed_iff
    (m := ⟨2, 2, #[1, 2, 3, 4]⟩) ⟨1 / 10 ^ 10, 2, 4⟩ rfl rfl (by decide) ht ht'
  obtain ⟨s', events', hsolve', _, _, hsingular⟩ := solve_inverse_computed_iff
    (m := ⟨2, 2, #[0, 1, 1, 0]⟩) ⟨1 / 10 ^ 10, 2, 4⟩ rfl rfl (by decide) ht ht'
  rw [hsolve] at hkept
  rw [hsolve'] at hexchanged
  obtain ⟨hidentity, hnone⟩ := of_decide_eq_true hkept
  obtain ⟨hidentity', hone⟩ := of_decide_eq_true hexchanged
  have hfound := hcomputed.mpr ⟨hidentity, hnone⟩
  have hstopped := (hsingular hidentity').mpr (by rw [hone]; exact Nat.one_ne_zero)
  exact ⟨ht, ht', rfl, ⟨s, events, hsolve, hidentity, hnone, hfound, hreport hfound⟩, rfl,
    s', events', hsolve', hidentity', hone, hstopped⟩

end DenseMatrix

end GaussJordan
