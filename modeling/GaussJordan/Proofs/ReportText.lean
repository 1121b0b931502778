import GaussJordan.Proofs.PrintedMatrices

namespace GaussJordan

variable {α : Type}

/-- A matrix with a row to print on each of its lines. -/
structure DenseMatrix.Printable (m : DenseMatrix α) : Prop where
  wellFormed : m.WellFormed
  cols_pos : 0 < m.cols

/-- A trace all of whose matrices can be printed. -/
def TraceLog.Printable (log : TraceLog α) : Prop := ∀ m ∈ log.snapshots, m.Printable

theorem TraceLog.Printable.snapshot {log : TraceLog α} (h : log.Printable) {step : Step α}
    (hstep : step ∈ log.steps.toList) : step.snapshot.Printable :=
  h step.snapshot (List.mem_map_of_mem hstep)

structure Solution.Printable (s : Solution α) : Prop where
  given : s.given.Printable
  reduced : s.reduced.Printable
  reductionTrace : s.reductionTrace.Printable
  transposed : s.transposed.Printable
  inverse : ∀ inverse trace, s.inverse = .computed inverse trace →
    inverse.Printable ∧ trace.Printable

/-- No more decimal places are asked for than are accepted. -/
structure Config.Accepted (config : Config α) : Prop where
  step : config.stepPrecision ≤ maxPlaces
  value : config.valuePrecision ≤ maxPlaces

variable [Scalar α] {places : Nat} {config : Config α} {s : Solution α}

theorem matrixLines_of_printable {m : DenseMatrix α} (hp : places ≤ maxPlaces)
    (h : m.Printable) : matrixLines places m = .ok (m.printedRows places) :=
  matrixLines_eq hp h.wellFormed h.cols_pos

theorem stepLines_eq {step : Step α} (hp : places ≤ maxPlaces) (h : step.snapshot.Printable) :
    stepLines places step =
      .ok (step.description :: step.snapshot.printedRows places ++ [""]) := by
  rw [stepLines, matrixLines_of_printable hp h]
  rfl

theorem reductionLines_eq (hp : config.stepPrecision ≤ maxPlaces) (h : s.Printable) :
    reductionLines config s = .ok ("=== Step-by-Step RREF Solution ===" ::
      (s.reductionTrace.steps.toList.map fun step =>
        step.description :: step.snapshot.printedRows config.stepPrecision ++ [""]).flatten ++
      ["", "=== Final RREF Matrix ==="] ++ s.reduced.printedRows config.stepPrecision ++ [""]) := by
  have hsteps := mapM_eq_ok fun step hstep => stepLines_eq hp (h.reductionTrace.snapshot hstep)
  rw [reductionLines, hsteps, bind_ok, matrixLines_of_printable hp h.reduced]
  rfl

theorem valueLines_eq (hp : places ≤ maxPlaces) (values : List α) :
    valueLines places values = .ok ((values.map (Scalar.fixedText places)).zipIdx.map
      fun (number, i) => s!"x{i + 1} = {number}") := by
  rw [valueLines, mapM_eq_ok fun x _ => numberText_eq hp x]
  rfl

theorem transposeLines_eq (hp : config.valuePrecision ≤ maxPlaces) (h : s.Printable) :
    transposeLines config s = .ok (["", "=== TRANSPOSE (Step-by-step) ===", "Original Matrix:"] ++
      s.given.printedRows config.valuePrecision ++ [""] ++
      s.transposeTrace.steps.toList.map (·.description) ++
      ["", "Transpose Result:"] ++ s.transposed.printedRows config.valuePrecision ++ [""]) := by
  rw [transposeLines, matrixLines_of_printable hp h.given, bind_ok,
    matrixLines_of_printable hp h.transposed]
  rfl

/-- The empty line that stands before a scaling. -/
def scalingGap : Operation α → List String
  | .scale _ _ => [""]
  | _ => []

theorem inverseStepLines_eq {step : Step α} (hp : places ≤ maxPlaces)
    (h : step.snapshot.Printable) : inverseStepLines places step =
      .ok (scalingGap step.operation ++
        step.description :: step.snapshot.printedRows places ++ [""]) := by
  rw [inverseStepLines, stepLines_eq hp h, bind_ok]
  cases step.operation <;> rfl

theorem inverseLines_of_computed {inverse : DenseMatrix α} {trace : TraceLog α}
    (hp : config.valuePrecision ≤ maxPlaces) (hinverse : inverse.Printable)
    (htrace : trace.Printable) (h : s.inverse = .computed inverse trace) :
    inverseLines config s = .ok (["", "=== INVERSE (Step-by-step) ==="] ++
      (trace.steps.toList.map fun step => scalingGap step.operation ++
        step.description :: step.snapshot.printedRows config.valuePrecision ++ [""]).flatten ++
      "Inverse Matrix:" :: inverse.printedRows config.valuePrecision ++ [""]) := by
  have hsteps := mapM_eq_ok fun step hstep => inverseStepLines_eq hp (htrace.snapshot hstep)
  rw [inverseLines, h]
  dsimp only
  rw [hsteps, bind_ok, matrixLines_of_printable hp hinverse]
  rfl

theorem exists_reportLines (hp : config.valuePrecision ≤ maxPlaces) (s : Solution α) :
    ∃ lines, reportLines config s = .ok lines := by
  rw [reportLines]
  cases s.report with
  | unique values =>
    dsimp only
    rw [valueLines_eq hp]
    exact ⟨_, rfl⟩
  | infinite => exact ⟨_, rfl⟩
  | noSolution => exact ⟨_, rfl⟩

theorem exists_inverseLines (hp : config.valuePrecision ≤ maxPlaces) (h : s.Printable) :
    ∃ lines, inverseLines config s = .ok lines := by
  cases hs : s.inverse with
  | computed inverse trace =>
    obtain ⟨hinverse, htrace⟩ := h.inverse inverse trace hs
    exact ⟨_, inverseLines_of_computed hp hinverse htrace hs⟩
  | singular step =>
    rw [inverseLines, hs]
    exact ⟨_, rfl⟩
  | notSquare =>
    rw [inverseLines, hs]
    exact ⟨_, rfl⟩

/-- Whatever can be printed is rendered. -/
theorem Solution.Printable.exists_render (h : s.Printable) (hconfig : config.Accepted) :
    ∃ text, s.render config = .ok text := by
  obtain ⟨report, hreport⟩ := exists_reportLines hconfig.value s
  obtain ⟨inverse, hinverse⟩ := exists_inverseLines hconfig.value h
  rw [render, lines, reductionLines_eq hconfig.step h, bind_ok, hreport, bind_ok,
    transposeLines_eq hconfig.value h, bind_ok, hinverse]
  exact ⟨_, rfl⟩

end GaussJordan
