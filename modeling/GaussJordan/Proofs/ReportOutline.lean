import GaussJordan.Proofs.ReportLayout

namespace GaussJordan

/-- A line of a report before its numbers are printed. -/
inductive ReportLine (α : Type) where
  /-- A heading, a notice, the description of a step or nothing. -/
  | words (text : String)
  /-- A row of a matrix. -/
  | row (cells : List α)
  /-- The value of a variable. -/
  | value (number : Nat) (x : α)

variable {α : Type} [Scalar α]

namespace ReportLine

variable {line : ReportLine α} {matrices : List (DenseMatrix α)} {values : List α}
  {places places' : Nat}

def print (places : Nat) : ReportLine α → String
  | .words text => text
  | .row cells => rowString places cells
  | .value number x => s!"x{number} = {Scalar.fixedText places x}"

theorem map_print_words (places : Nat) (texts : List String) :
    (texts.map (words (α := α))).map (print places) = texts := by
  rw [List.map_map]
  exact List.map_id texts

def IsRowOf (matrices : List (DenseMatrix α)) (line : ReportLine α) : Prop :=
  ∃ m ∈ matrices, ∃ cells ∈ m.toRows, line = .row cells

def IsValueOf (values : List α) (line : ReportLine α) : Prop :=
  ∃ i x, values[i]? = some x ∧ line = .value (i + 1) x

/-- A line whose numbers are cells of the matrices or among the values. -/
def DrawnFrom (matrices : List (DenseMatrix α)) (values : List α) (line : ReportLine α) : Prop :=
  (∃ text, line = .words text) ∨ line.IsRowOf matrices ∨ line.IsValueOf values

theorem drawnFrom_words (matrices : List (DenseMatrix α)) (values : List α) (text : String) :
    (words text).DrawnFrom matrices values := .inl ⟨text, rfl⟩

theorem forall_drawnFrom_cons_words (matrices : List (DenseMatrix α)) (values : List α)
    (text : String) (outline : List (ReportLine α)) :
    (∀ line ∈ words text :: outline, line.DrawnFrom matrices values) ↔
      ∀ line ∈ outline, line.DrawnFrom matrices values := by
  rw [List.forall_mem_cons]
  exact and_iff_right (drawnFrom_words matrices values text)

theorem DrawnFrom.mono {others : List (DenseMatrix α)} (h : line.DrawnFrom matrices values)
    (hsub : matrices ⊆ others) : line.DrawnFrom others values := by
  rcases h with hwords | ⟨m, hm, hrow⟩ | hvalue
  · exact .inl hwords
  · exact .inr (.inl ⟨m, hsub hm, hrow⟩)
  · exact .inr (.inr hvalue)

/-- Only a line with numbers shows how many decimal places there are. -/
theorem DrawnFrom.of_print_ne (h : line.DrawnFrom matrices values)
    (hne : line.print places ≠ line.print places') :
    (line.IsRowOf matrices ∨ line.IsValueOf values) ∧ places ≠ places' := by
  refine ⟨h.resolve_left ?_, fun heq => hne (by rw [heq])⟩
  rintro ⟨text, rfl⟩
  exact hne rfl

end ReportLine

def DenseMatrix.outline (m : DenseMatrix α) : List (ReportLine α) := m.toRows.map .row

def Step.outline (step : Step α) : List (ReportLine α) :=
  .words step.description :: step.snapshot.outline ++ [.words ""]

/-- As `Step.outline`, with an empty line before each scaling. -/
def Step.spacedOutline (step : Step α) : List (ReportLine α) :=
  (scalingGap step.operation).map .words ++ step.outline

def SolutionReport.outline : SolutionReport α → List (ReportLine α)
  | .noSolution => [.words "No solution.", .words "",
      .words ("(Note: The system of equations is inconsistent, " ++
        "but Transpose/Inverse will still be attempted below.)")]
  | .infinite => [.words "Infinite solutions."]
  | .unique values => .words "Unique solution found:" ::
      values.zipIdx.map (fun (x, i) => .value (i + 1) x) ++ [.words ""]

def InverseOutcome.outline : InverseOutcome α → List (ReportLine α)
  | .computed inverse trace => [.words "", .words "=== INVERSE (Step-by-step) ==="] ++
      (trace.steps.toList.map Step.spacedOutline).flatten ++
      .words "Inverse Matrix:" :: inverse.outline ++ [.words ""]
  | .singular _ => [.words "", .words "=== INVERSE (Step-by-step) ===", .words "",
      .words s!"Cannot compute inverse: {singularMessage}"]
  | .notSquare => [.words "", .words "Matrix is not square → cannot compute inverse."]

section Print

variable (places : Nat)

theorem DenseMatrix.map_print_outline (m : DenseMatrix α) :
    m.outline.map (·.print places) = m.printedRows places := by
  rw [outline, List.map_map]
  rfl

theorem Step.map_print_outline (step : Step α) : step.outline.map (·.print places) =
    step.description :: step.snapshot.printedRows places ++ [""] := by
  rw [outline, List.map_append, List.map_cons, DenseMatrix.map_print_outline]
  rfl

theorem Step.map_print_spacedOutline (step : Step α) :
    step.spacedOutline.map (·.print places) = scalingGap step.operation ++
      step.description :: step.snapshot.printedRows places ++ [""] := by
  rw [spacedOutline, List.map_append, ReportLine.map_print_words, step.map_print_outline,
    List.append_assoc]

end Print

section Sources

open ReportLine

variable {matrices : List (DenseMatrix α)} {values : List α}

theorem DenseMatrix.drawnFrom_outline {m : DenseMatrix α} (hm : m ∈ matrices) :
    ∀ line ∈ m.outline, line.DrawnFrom matrices values := by
  intro line hline
  obtain ⟨cells, hcells, rfl⟩ := List.mem_map.mp hline
  exact .inr (.inl ⟨m, hm, cells, hcells, rfl⟩)

theorem Step.drawnFrom_outline {step : Step α} (h : step.snapshot ∈ matrices) :
    ∀ line ∈ step.outline, line.DrawnFrom matrices values := by
  rw [outline, List.forall_mem_append, List.forall_mem_cons, List.forall_mem_singleton]
  exact ⟨⟨drawnFrom_words _ _ _, DenseMatrix.drawnFrom_outline h⟩, drawnFrom_words _ _ _⟩

theorem Step.drawnFrom_spacedOutline {step : Step α} (h : step.snapshot ∈ matrices) :
    ∀ line ∈ step.spacedOutline, line.DrawnFrom matrices values := by
  rw [spacedOutline, List.forall_mem_append, List.forall_mem_map]
  exact ⟨fun text _ => drawnFrom_words _ _ text, Step.drawnFrom_outline h⟩

end Sources

namespace Solution

/-- The steps of the reduction and the reduced matrix. -/
def reductionOutline (s : Solution α) : List (ReportLine α) :=
  .words "=== Step-by-Step RREF Solution ===" ::
    (s.reductionTrace.steps.toList.map Step.outline).flatten ++
    [.words "", .words "=== Final RREF Matrix ==="] ++ s.reduced.outline ++ [.words ""]

def transposeOutline (s : Solution α) : List (ReportLine α) :=
  [.words "", .words "=== TRANSPOSE (Step-by-step) ===", .words "Original Matrix:"] ++
    s.given.outline ++ [.words ""] ++
    s.transposeTrace.steps.toList.map (.words ·.description) ++
    [.words "", .words "Transpose Result:"] ++ s.transposed.outline ++ [.words ""]

/-- What follows the reduction. -/
def resultsOutline (s : Solution α) : List (ReportLine α) :=
  s.report.outline ++ s.transposeOutline ++ s.inverse.outline

/-- The numbers of the reduction have their own count of decimal places. -/
def printed (config : Config α) (s : Solution α) : List String :=
  s.reductionOutline.map (·.print config.stepPrecision) ++
    s.resultsOutline.map (·.print config.valuePrecision)

def reductionMatrices (s : Solution α) : List (DenseMatrix α) :=
  s.reduced :: s.reductionTrace.snapshots

/-- The matrices that are shown after the reduction. -/
def resultMatrices (s : Solution α) : List (DenseMatrix α) :=
  s.given :: s.transposed :: match s.inverse with
    | .computed inverse trace => inverse :: trace.snapshots
    | _ => []

/-- The values of the variables where they have just one each. -/
def values (s : Solution α) : List α :=
  match s.report with
  | .unique values => values
  | _ => []

variable {s : Solution α} {config : Config α}

theorem reductionLines_eq_outline (hp : config.stepPrecision ≤ maxPlaces) (h : s.Printable) :
    reductionLines config s = .ok (s.reductionOutline.map (·.print config.stepPrecision)) := by
  have hsteps : (s.reductionTrace.steps.toList.map Step.outline).map
      (List.map (·.print config.stepPrecision)) = s.reductionTrace.steps.toList.map fun step =>
        step.description :: step.snapshot.printedRows config.stepPrecision ++ [""] := by
    rw [List.map_map]
    exact List.map_congr_left fun step _ => step.map_print_outline _
  rw [reductionLines_eq hp h, reductionOutline]
  simp only [List.map_append, List.map_cons, List.map_flatten, hsteps,
    DenseMatrix.map_print_outline]
  rfl

theorem reportLines_eq_outline (hp : config.valuePrecision ≤ maxPlaces) (s : Solution α) :
    reportLines config s = .ok (s.report.outline.map (·.print config.valuePrecision)) := by
  rw [reportLines]
  cases s.report with
  | noSolution => rfl
  | infinite => rfl
  | unique values =>
    dsimp only
    rw [valueLines_eq hp, SolutionReport.outline, List.zipIdx_map, List.map_map]
    simp only [List.map_append, List.map_cons, List.map_map]
    rfl

theorem transposeLines_eq_outline (hp : config.valuePrecision ≤ maxPlaces) (h : s.Printable) :
    transposeLines config s = .ok (s.transposeOutline.map (·.print config.valuePrecision)) := by
  rw [transposeLines_eq hp h, transposeOutline]
  simp only [List.map_append, List.map_map, DenseMatrix.map_print_outline]
  rfl

theorem inverseLines_eq_outline (hp : config.valuePrecision ≤ maxPlaces) (h : s.Printable) :
    inverseLines config s = .ok (s.inverse.outline.map (·.print config.valuePrecision)) := by
  cases hs : s.inverse with
  | computed inverse trace =>
    obtain ⟨hinverse, htrace⟩ := h.inverse inverse trace hs
    have hsteps : (trace.steps.toList.map Step.spacedOutline).map
        (List.map (·.print config.valuePrecision)) = trace.steps.toList.map fun step =>
          scalingGap step.operation ++
            step.description :: step.snapshot.printedRows config.valuePrecision ++ [""] := by
      rw [List.map_map]
      exact List.map_congr_left fun step _ => step.map_print_spacedOutline _
    rw [inverseLines_of_computed hp hinverse htrace hs, InverseOutcome.outline]
    simp only [List.map_append, List.map_cons, List.map_flatten, hsteps,
      DenseMatrix.map_print_outline]
    rfl
  | singular step =>
    rw [inverseLines, hs]
    rfl
  | notSquare =>
    rw [inverseLines, hs]
    rfl

theorem lines_eq_printed (hconfig : config.Accepted) (h : s.Printable) :
    s.lines config = .ok (s.printed config) := by
  rw [Solution.lines, reductionLines_eq_outline hconfig.step h, bind_ok,
    reportLines_eq_outline hconfig.value, bind_ok, transposeLines_eq_outline hconfig.value h,
    bind_ok, inverseLines_eq_outline hconfig.value h, bind_ok, printed, resultsOutline]
  simp only [List.map_append, List.append_assoc]
  rfl

section Sources

open ReportLine

theorem drawnFrom_reductionOutline (s : Solution α) :
    ∀ line ∈ s.reductionOutline, line.DrawnFrom s.reductionMatrices [] := by
  have hsteps : ∀ step ∈ s.reductionTrace.steps.toList,
      ∀ line ∈ step.outline, line.DrawnFrom s.reductionMatrices [] := fun step hstep =>
    Step.drawnFrom_outline (List.mem_cons_of_mem _ (List.mem_map_of_mem hstep))
  have hreduced : ∀ line ∈ s.reduced.outline, line.DrawnFrom s.reductionMatrices [] :=
    DenseMatrix.drawnFrom_outline List.mem_cons_self
  simp only [reductionOutline, List.forall_mem_append, forall_drawnFrom_cons_words,
    List.not_mem_nil, false_implies, implies_true, and_true, List.forall_mem_flatten,
    List.forall_mem_map]
  exact ⟨hsteps, hreduced⟩

theorem drawnFrom_reportOutline (matrices : List (DenseMatrix α)) (s : Solution α) :
    ∀ line ∈ s.report.outline, line.DrawnFrom matrices s.values := by
  rw [values]
  cases s.report with
  | noSolution => simp [SolutionReport.outline, drawnFrom_words]
  | infinite => simp [SolutionReport.outline, drawnFrom_words]
  | unique values =>
    simp only [SolutionReport.outline, List.forall_mem_append, forall_drawnFrom_cons_words,
      List.not_mem_nil, false_implies, implies_true, and_true, List.forall_mem_map]
    intro ⟨x, i⟩ hmem
    exact .inr (.inr ⟨i, x, List.mk_mem_zipIdx_iff_getElem?.mp hmem, rfl⟩)

theorem drawnFrom_transposeOutline (s : Solution α) :
    ∀ line ∈ s.transposeOutline, line.DrawnFrom s.resultMatrices s.values := by
  have hgiven : ∀ line ∈ s.given.outline, line.DrawnFrom s.resultMatrices s.values :=
    DenseMatrix.drawnFrom_outline List.mem_cons_self
  have htransposed : ∀ line ∈ s.transposed.outline, line.DrawnFrom s.resultMatrices s.values :=
    DenseMatrix.drawnFrom_outline (List.mem_cons_of_mem _ List.mem_cons_self)
  simp only [transposeOutline, List.forall_mem_append, forall_drawnFrom_cons_words,
    List.not_mem_nil, false_implies, implies_true, true_and, and_true, List.forall_mem_map,
    drawnFrom_words]
  exact ⟨hgiven, htransposed⟩

theorem drawnFrom_inverseOutline (s : Solution α) :
    ∀ line ∈ s.inverse.outline, line.DrawnFrom s.resultMatrices s.values := by
  rw [resultMatrices]
  cases s.inverse with
  | computed inverse trace =>
    have hsteps : ∀ step ∈ trace.steps.toList, ∀ line ∈ step.spacedOutline,
        line.DrawnFrom (inverse :: trace.snapshots) s.values := fun step hstep =>
      Step.drawnFrom_spacedOutline (List.mem_cons_of_mem _ (List.mem_map_of_mem hstep))
    have hinverse : ∀ line ∈ inverse.outline,
        line.DrawnFrom (inverse :: trace.snapshots) s.values :=
      DenseMatrix.drawnFrom_outline List.mem_cons_self
    have hshown : ∀ line ∈ (InverseOutcome.computed inverse trace).outline,
        line.DrawnFrom (inverse :: trace.snapshots) s.values := by
      simp only [InverseOutcome.outline, List.forall_mem_append, forall_drawnFrom_cons_words,
        List.not_mem_nil, false_implies, implies_true, true_and, and_true,
        List.forall_mem_flatten, List.forall_mem_map]
      exact ⟨hsteps, hinverse⟩
    intro line hline
    exact (hshown line hline).mono fun m hm =>
      List.mem_cons_of_mem _ (List.mem_cons_of_mem _ hm)
  | singular => simp [InverseOutcome.outline, drawnFrom_words]
  | notSquare => simp [InverseOutcome.outline, drawnFrom_words]

theorem drawnFrom_resultsOutline (s : Solution α) :
    ∀ line ∈ s.resultsOutline, line.DrawnFrom s.resultMatrices s.values := by
  rw [resultsOutline, List.forall_mem_append, List.forall_mem_append]
  exact ⟨⟨drawnFrom_reportOutline _ s, drawnFrom_transposeOutline s⟩, drawnFrom_inverseOutline s⟩

end Sources

section Settings

variable {first second : Config α} {k : Nat}

/-- Two prints of one outline differ in no line but one with numbers. -/
theorem exists_of_print_ne {outline : List (ReportLine α)} {places places' : Nat}
    {matrices : List (DenseMatrix α)} {values : List α}
    (hfrom : ∀ entry ∈ outline, entry.DrawnFrom matrices values)
    (hne : (outline.map (·.print places))[k]? ≠ (outline.map (·.print places'))[k]?) :
    (∃ entry, outline[k]? = some entry ∧
      (entry.IsRowOf matrices ∨ entry.IsValueOf values)) ∧ places ≠ places' := by
  rw [List.getElem?_map, List.getElem?_map] at hne
  cases hentry : outline[k]? with
  | none => exact absurd (by rw [hentry]; rfl) hne
  | some entry =>
    rw [hentry] at hne
    obtain ⟨hnumbers, hplaces⟩ :=
      (hfrom entry (List.mem_of_getElem? hentry)).of_print_ne fun heq =>
        hne (congrArg some heq)
    exact ⟨⟨entry, rfl, hnumbers⟩, hplaces⟩

theorem printed_ne (hne : (s.printed first)[k]? ≠ (s.printed second)[k]?) :
    (∃ entry, s.reductionOutline[k]? = some entry ∧ entry.IsRowOf s.reductionMatrices) ∧
      first.stepPrecision ≠ second.stepPrecision ∨
    (∃ j entry, k = s.reductionOutline.length + j ∧ s.resultsOutline[j]? = some entry ∧
      (entry.IsRowOf s.resultMatrices ∨ entry.IsValueOf s.values)) ∧
      first.valuePrecision ≠ second.valuePrecision := by
  rw [printed, printed] at hne
  rcases Nat.lt_or_ge k s.reductionOutline.length with hk | hk
  · rw [List.getElem?_append_left (by rwa [List.length_map]),
      List.getElem?_append_left (by rwa [List.length_map])] at hne
    obtain ⟨⟨entry, hentry, hnumbers⟩, hplaces⟩ :=
      exists_of_print_ne s.drawnFrom_reductionOutline hne
    have hrow := hnumbers.resolve_right fun ⟨i, x, hvalue, _⟩ => by simp at hvalue
    exact .inl ⟨⟨entry, hentry, hrow⟩, hplaces⟩
  · rw [List.getElem?_append_right (by rwa [List.length_map]),
      List.getElem?_append_right (by rwa [List.length_map]), List.length_map,
      List.length_map] at hne
    obtain ⟨⟨entry, hentry, hnumbers⟩, hplaces⟩ :=
      exists_of_print_ne s.drawnFrom_resultsOutline hne
    exact .inr ⟨⟨k - s.reductionOutline.length, entry, by omega, hentry, hnumbers⟩, hplaces⟩

theorem length_printed (config : Config α) (s : Solution α) :
    (s.printed config).length = s.reductionOutline.length + s.resultsOutline.length := by
  rw [printed, List.length_append, List.length_map, List.length_map]

/-- The empty end of a text is no line of the outline. -/
theorem printed_ne_of_lines_ne
    (hne : ((s.printed first).map String.toList ++ [[]])[k]? ≠
      ((s.printed second).map String.toList ++ [[]])[k]?) :
    (s.printed first)[k]? ≠ (s.printed second)[k]? := by
  intro heq
  rw [List.getElem?_append, List.getElem?_append, List.getElem?_map, List.getElem?_map, heq,
    List.length_map, List.length_map, length_printed, length_printed] at hne
  exact hne rfl

end Settings

section Lines

variable {s : Solution Float} {config : Config Float} {rows cols : Nat}

theorem unbroken_of_laidOut {written : Except Fault (List String)} {kinds : List LineKind}
    {text : List String} (h : written = .ok text)
    (hlaid : ∃ text, written = .ok text ∧ LaidOut kinds text) : ∀ line ∈ text, Unbroken line := by
  obtain ⟨text', htext, hlaid⟩ := hlaid
  obtain rfl : text = text' := Except.ok.inj (h.symm.trans htext)
  exact hlaid.unbroken

theorem Proportioned.printed_unbroken (h : s.Proportioned rows cols) (hs : s.Printable)
    (hconfig : config.Accepted) (hr : 0 < rows) (hc : 0 < cols) :
    ∀ line ∈ s.printed config, Unbroken line := by
  have hreduction := unbroken_of_laidOut (reductionLines_eq_outline hconfig.step hs)
    (h.laidOut_reductionLines hs hconfig hc)
  have hreport := unbroken_of_laidOut (reportLines_eq_outline hconfig.value s)
    (h.laidOut_reportLines hconfig)
  have htranspose := unbroken_of_laidOut (transposeLines_eq_outline hconfig.value hs)
    (h.laidOut_transposeLines hs hconfig hr hc)
  have hinverse := unbroken_of_laidOut (inverseLines_eq_outline hconfig.value hs)
    (h.laidOut_inverseLines hs hconfig hr)
  rw [printed, resultsOutline]
  simp only [List.map_append, List.forall_mem_append]
  exact ⟨hreduction, ⟨hreport, htranspose⟩, hinverse⟩

theorem Proportioned.render_eq (h : s.Proportioned rows cols) (hs : s.Printable)
    (hconfig : config.Accepted) (hr : 0 < rows) (hc : 0 < cols) :
    ∃ text, s.render config = .ok text ∧ text = unlines (s.printed config) ∧
      GaussJordan.lines text.toList = (s.printed config).map String.toList ++ [[]] := by
  refine ⟨unlines (s.printed config), ?_, rfl,
    lines_unlines (h.printed_unbroken hs hconfig hr hc)⟩
  rw [render, lines_eq_printed hconfig hs]
  rfl

end Lines

end Solution

namespace DenseMatrix

variable {m : DenseMatrix Float}

theorem solve_shown (config : Config Float) (hm : m.WellFormed) (hr : 0 < m.rows)
    (hc : 0 < m.cols) : ∃ s events, m.solve config = .ok (s, events) ∧ s.Printable ∧
      s.Proportioned m.rows m.cols := by
  obtain ⟨s, events, hsolve, hs⟩ := exists_solve config hm hr hc
  obtain ⟨s', events', hsolve', h⟩ := solve_proportioned config hm hr hc
  obtain ⟨rfl, rfl⟩ := Prod.mk.inj (Except.ok.inj (hsolve.symm.trans hsolve'))
  exact ⟨s, events, hsolve, hs, h⟩

/-- Under any two settings, the reports on one solution have the same lines but for the numbers in
the rows of matrices and in the values of variables. Those of the reduction depend on one count of
decimal places only, all others on the other, and the tolerance plays no part. -/
theorem render_governed (config : Config Float) (hm : m.WellFormed) (hr : 0 < m.rows)
    (hc : 0 < m.cols) {first second : Config Float} (hfirst : first.Accepted)
    (hsecond : second.Accepted) :
    ∃ s events text text', m.solve config = .ok (s, events) ∧
      s.render first = .ok text ∧ s.render second = .ok text' ∧
      lines text.toList = (s.printed first).map String.toList ++ [[]] ∧
      lines text'.toList = (s.printed second).map String.toList ++ [[]] ∧
      (lines text.toList).length = (lines text'.toList).length ∧
      (∀ k, (lines text.toList)[k]? ≠ (lines text'.toList)[k]? →
        (∃ entry, s.reductionOutline[k]? = some entry ∧ entry.IsRowOf s.reductionMatrices) ∧
          first.stepPrecision ≠ second.stepPrecision ∨
        (∃ j entry, k = s.reductionOutline.length + j ∧ s.resultsOutline[j]? = some entry ∧
          (entry.IsRowOf s.resultMatrices ∨ entry.IsValueOf s.values)) ∧
          first.valuePrecision ≠ second.valuePrecision) ∧
      (first.stepPrecision = second.stepPrecision →
        first.valuePrecision = second.valuePrecision → text = text') := by
  obtain ⟨s, events, hsolve, hs, h⟩ := solve_shown config hm hr hc
  obtain ⟨text, hrender, htext, hlines⟩ := h.render_eq hs hfirst hr hc
  obtain ⟨text', hrender', htext', hlines'⟩ := h.render_eq hs hsecond hr hc
  refine ⟨s, events, text, text', hsolve, hrender, hrender', hlines, hlines', ?_,
    fun k hne => ?_, fun hstep hvalue => ?_⟩
  · rw [hlines, hlines']
    simp only [List.length_append, List.length_map, Solution.length_printed]
  · rw [hlines, hlines'] at hne
    exact Solution.printed_ne (Solution.printed_ne_of_lines_ne hne)
  · rw [htext, htext', Solution.printed, Solution.printed, hstep, hvalue]

/-- The reduction has the same number of places twice, so no line of it differs. -/
theorem render_governed_pair :
    (⟨2, 2, #[1, 2, 3, 4]⟩ : DenseMatrix Float).WellFormed ∧
    (⟨0.0 / 0.0, 2, 0⟩ : Config Float).Accepted ∧
    (⟨1.0e-10, 2, 65535⟩ : Config Float).Accepted ∧
    ∃ s events text text',
      (⟨2, 2, #[1, 2, 3, 4]⟩ : DenseMatrix Float).solve .default = .ok (s, events) ∧
      s.render ⟨0.0 / 0.0, 2, 0⟩ = .ok text ∧ s.render ⟨1.0e-10, 2, 65535⟩ = .ok text' ∧
      (lines text.toList).length = 69 ∧ (lines text'.toList).length = 69 ∧
      ∀ k, (lines text.toList)[k]? ≠ (lines text'.toList)[k]? → 22 ≤ k := by
  have hm : (⟨2, 2, #[1, 2, 3, 4]⟩ : DenseMatrix Float).WellFormed := rfl
  have hfirst : (⟨0.0 / 0.0, 2, 0⟩ : Config Float).Accepted := ⟨by decide, by decide⟩
  have hsecond : (⟨1.0e-10, 2, 65535⟩ : Config Float).Accepted := ⟨by decide, by decide⟩
  have hcounts : ((⟨2, 2, #[1, 2, 3, 4]⟩ : DenseMatrix Float).solve .default).toOption.map
      (fun outcome => (outcome.1.reductionOutline.length, outcome.1.resultsOutline.length)) =
        some (22, 46) := by decide +kernel
  obtain ⟨s, events, text, text', hsolve, hrender, hrender', hlines, hlines', _, hgoverned, _⟩ :=
    render_governed .default hm (by decide) (by decide) hfirst hsecond
  rw [hsolve] at hcounts
  obtain ⟨hreduction, hresults⟩ := Prod.mk.inj (Option.some.inj hcounts)
  have hlength : ∀ config : Config Float,
      ((s.printed config).map String.toList ++ [[]]).length = 69 := by
    intro config
    rw [List.length_append, List.length_map, Solution.length_printed, hreduction, hresults]
    rfl
  refine ⟨hm, hfirst, hsecond, s, events, text, text', hsolve, hrender, hrender',
    hlines ▸ hlength _, hlines' ▸ hlength _, fun k hne => ?_⟩
  rcases hgoverned k hne with ⟨_, hplaces⟩ | ⟨⟨j, entry, hk, _⟩, _⟩
  · exact absurd rfl hplaces
  · rw [hk, hreduction]
    exact Nat.le_add_right 22 j

end DenseMatrix

end GaussJordan
