import GaussJordan.Proofs.LeadingMinors
import GaussJordan.Proofs.LineKinds
import GaussJordan.Proofs.PivotBlocks
import GaussJordan.Proofs.Totality

namespace GaussJordan

variable {α : Type} [Scalar α] {tolerance : α} {rows cols : Nat}

namespace DenseMatrix

variable {m : DenseMatrix α}

theorem length_scalings_pivoting (row found col : Nat) :
    ((m.pivoting row found col).filterMap Operation.scaling?).length = 1 := by
  rw [pivoting, List.filterMap_append]
  split <;> simp [clearing, Operation.scaling?, List.filterMap_map, Function.comp_def]

end DenseMatrix

/-- A row is divided once for each pivot. -/
theorem PivotReach.length_scalings {m : DenseMatrix α} {w : Worksheet α}
    {answers : List (Nat × Nat)} (hm : m.WellFormed)
    (reach : PivotReach tolerance (reductionSheet m) answers w) :
    w.log.scalings.length = answers.length := by
  have hstart : (reductionSheet m).state.WellFormed := hm
  obtain ⟨_, ops, hall, hcount⟩ := reach.invariant hstart
    (P := fun answers _ ops => (ops.filterMap Operation.scaling?).length = answers.length) rfl
    (by
      intro answers m ops found col _ _ _ _ _ hcount
      rw [List.filterMap_append, List.length_append, DenseMatrix.length_scalings_pivoting, hcount,
        List.length_append, List.length_singleton])
  obtain hops : w.log.operations = ops := Worksheet.operations_of_performAll hall
  rw [TraceLog.scalings, hops, hcount]

/-- The gap and the lines of a step of an inversion. -/
def Operation.layout (rows cols : Nat) : Operation α → List LineKind
  | .scale _ _ => .gap :: stepLayout rows cols
  | _ => stepLayout rows cols

namespace DenseMatrix

variable {m : DenseMatrix α}

theorem layout_clearing {row : Nat} (hr : row < m.rows) (col : Nat) :
    ((m.clearing row col).map (Operation.layout rows cols)).flatten =
      .gap :: (List.replicate m.rows (stepLayout rows cols)).flatten := by
  have helim : ((otherRows m.rows row).map fun k => .eliminate k row (m.entry k col)).map
      (Operation.layout rows cols) =
        List.replicate (otherRows m.rows row).length (stepLayout rows cols) := by
    rw [List.map_map]
    exact List.map_const'
  have hrows : m.rows = (otherRows m.rows row).length + 1 := (length_otherRows hr).symm
  rw [clearing, List.map_cons, helim]
  conv_rhs => rw [hrows, List.replicate_succ]
  rfl

theorem layout_diagonalClearing {count : Nat} (h : count ≤ m.rows) :
    ((m.diagonalClearing count).map (Operation.layout rows cols)).flatten =
      (List.replicate count
        (.gap :: (List.replicate m.rows (stepLayout rows cols)).flatten)).flatten := by
  induction count with
  | zero => rfl
  | succ i ih =>
    have hi : i < (m.diagonalCleared i).rows := by
      rw [diagonalCleared_rows]
      omega
    rw [diagonalClearing, List.map_append, List.flatten_append, ih (by omega), layout_clearing hi,
      diagonalCleared_rows, List.replicate_succ', List.flatten_concat]

end DenseMatrix

/-- The shapes and numbers of what is computed for a matrix follow from its own shape, the pivots
of its reduction and the exchanges of rows. -/
structure Solution.Proportioned (rows cols : Nat) (s : Solution α) : Prop where
  given : s.given.HasShape rows cols
  reduced : s.reduced.HasShape rows cols
  reductionTrace : s.reductionTrace.Shows rows cols
  reduction_size : s.reductionTrace.size =
    s.reductionTrace.scalings.length * rows + s.reductionTrace.exchanges
  values : ∀ values, s.report = .unique values → values.length = cols - 1
  transposed : s.transposed.HasShape cols rows
  transposeTrace : s.transposeTrace.Shows cols rows
  transpose_size : s.transposeTrace.size = rows * cols
  inverse : ∀ inverse trace, s.inverse = .computed inverse trace →
    inverse.HasShape rows rows ∧ trace.Shows rows (2 * rows) ∧
      trace.operations = .augment :: s.given.augmentIdentity.diagonalClearing rows

namespace DenseMatrix

variable {m : DenseMatrix α}

theorem length_places (rows cols : Nat) : (places rows cols).length = rows * cols := by
  simp [places]

theorem transposeBySteps_shows (hm : m.WellFormed) : ∃ w, m.transposeBySteps = .ok w ∧
    w.state.HasShape m.cols m.rows ∧ w.log.Shows m.cols m.rows ∧
    w.log.size = m.rows * m.cols := by
  obtain ⟨w, hrun, hall⟩ := transposeBySteps_spec hm
  have hops : ∀ op ∈ m.copying, op ≠ .augment := by
    intro op hop
    obtain ⟨place, _, rfl⟩ := List.mem_map.mp hop
    simp [copy]
  obtain ⟨hstate, hlog⟩ := Worksheet.performAll_shows hops
    ⟨generate_wellFormed _ _ _, rfl, rfl⟩ (TraceLog.shows_empty _) hall
  refine ⟨w, hrun, hstate, hlog, ?_⟩
  have hsize : w.log.size = 0 + m.copying.length := Worksheet.size_of_performAll hall
  rw [hsize, copying, List.length_map, length_places, Nat.zero_add, Nat.mul_comm]

theorem inversionSheet_shows (hsq : m.IsSquare) :
    (inversionSheet m).state.HasShape m.rows (2 * m.rows) ∧
      (inversionSheet m).log.Shows m.rows (2 * m.rows) := by
  have hwide : m.cols + m.rows = 2 * m.rows := by
    rw [← show m.rows = m.cols from hsq, Nat.two_mul]
  have hstate : m.augmentIdentity.HasShape m.rows (2 * m.rows) :=
    ⟨augmentIdentity_wellFormed, rfl, hwide⟩
  have hperform := Worksheet.perform_of_apply (w := Worksheet.start .inversion m)
    (rfl : Operation.augment.apply m = .ok m.augmentIdentity)
  have hlog := Worksheet.perform_shows hperform (TraceLog.shows_empty _) hstate
  exact ⟨hstate, hlog⟩

theorem inverseOutcome_shows (tolerance : α) (hn : 0 < m.rows) : ∃ outcome events,
    m.inverseOutcome tolerance = .ok (outcome, events) ∧
    ∀ inverse trace, outcome = .computed inverse trace →
      inverse.HasShape m.rows m.rows ∧ trace.Shows m.rows (2 * m.rows) ∧
        trace.operations = .augment :: m.augmentIdentity.diagonalClearing m.rows := by
  by_cases hsq : m.IsSquare
  · rcases invert_reach tolerance hsq hn with ⟨w, reach, hrun⟩ | ⟨_, _, _, _, _, hrun⟩
    · refine ⟨_, _, inverseOutcome_of_computed hsq hrun, fun inverse trace h => ?_⟩
      cases h
      obtain ⟨hstate, hlog⟩ := inversionSheet_shows hsq
      have hall := (reach.diagonal_blocks augmentIdentity_wellFormed).1
      exact ⟨⟨generate_wellFormed _ _ _, rfl, rfl⟩, (reach.shows hstate hlog).2,
        Worksheet.operations_of_performAll hall⟩
    · exact ⟨_, _, inverseOutcome_of_singular hsq hrun, fun _ _ h => by cases h⟩
  · exact ⟨_, _, inverseOutcome_of_not_isSquare tolerance hsq, fun _ _ h => by cases h⟩

theorem solve_proportioned (config : Config α) (hm : m.WellFormed) (hr : 0 < m.rows)
    (hc : 0 < m.cols) :
    ∃ s events, m.solve config = .ok (s, events) ∧ s.Proportioned m.rows m.cols := by
  obtain ⟨answers, w, hreduce, reach, _⟩ := reduce_reach config.epsilon hm
  obtain ⟨hstate, hlog⟩ := reach.shows ⟨hm, rfl, rfl⟩ (TraceLog.shows_empty _)
  obtain ⟨hexchanges, hsize⟩ := reach.reduction_counts hm
  obtain ⟨report, verdict, hclassify, hvalues⟩ :=
    classify_total config.epsilon hstate.wellFormed (hstate.cols_eq ▸ hc)
  obtain ⟨t, htranspose, htransposed, hcopies, hplaces⟩ := transposeBySteps_shows hm
  obtain ⟨outcome, events, houtcome, hinverse⟩ := inverseOutcome_shows config.epsilon hr
  refine ⟨_, _, solve_of_parts hreduce hclassify htranspose houtcome, ⟨hm, rfl, rfl⟩, hstate, hlog,
    ?_, fun values h => hstate.cols_eq ▸ (hvalues values h).1, htransposed, hcopies, hplaces,
    hinverse⟩
  show w.log.size = w.log.scalings.length * m.rows + w.log.exchanges
  rw [reach.length_scalings hm, hsize, hexchanges]

end DenseMatrix

section Steps

variable {log : TraceLog Float}

theorem laidOut_steps (places : Nat) (h : log.Shows rows cols) (hc : 0 < cols) :
    LaidOut (List.replicate log.size (stepLayout rows cols)).flatten
      (log.steps.toList.map fun step =>
        step.description :: step.snapshot.printedRows places ++ [""]).flatten := by
  have hkinds : (log.steps.toList.map fun _ => stepLayout rows cols) =
      List.replicate log.size (stepLayout rows cols) := by
    rw [List.map_const', Array.length_toList, TraceLog.size]
  rw [← hkinds]
  exact laidOut_flatten fun step hstep =>
    laidOut_step places (h.description_eq step hstep) (h.shape step hstep) hc

theorem laidOut_inverseStep {style : TraceStyle} {step : Step Float} (places : Nat)
    (hdescription : step.description = step.operation.describe style)
    (hshape : step.snapshot.HasShape rows cols) (hc : 0 < cols) :
    LaidOut (step.operation.layout rows cols) (scalingGap step.operation ++
      step.description :: step.snapshot.printedRows places ++ [""]) := by
  have hstep := laidOut_step places hdescription hshape hc
  cases step.operation with
  | scale => exact laidOut_gap.append hstep
  | augment => exact hstep
  | swap => exact hstep
  | eliminate => exact hstep
  | assign => exact hstep

theorem laidOut_inverseSteps {m : DenseMatrix Float} (places : Nat) (h : log.Shows rows cols)
    (hc : 0 < cols) (hrows : m.rows = rows)
    (hoperations : log.operations = .augment :: m.diagonalClearing rows) :
    LaidOut (stepLayout rows cols ++ (List.replicate rows
        (.gap :: (List.replicate rows (stepLayout rows cols)).flatten)).flatten)
      (log.steps.toList.map fun step => scalingGap step.operation ++
        step.description :: step.snapshot.printedRows places ++ [""]).flatten := by
  have hkinds : (log.steps.toList.map fun step => step.operation.layout rows cols).flatten =
      stepLayout rows cols ++ (List.replicate rows
        (.gap :: (List.replicate rows (stepLayout rows cols)).flatten)).flatten := by
    have hmap : (log.steps.toList.map fun step => step.operation.layout rows cols) =
        log.operations.map (Operation.layout rows cols) := by
      rw [TraceLog.operations, List.map_map]
      rfl
    rw [hmap, hoperations, List.map_cons, List.flatten_cons,
      DenseMatrix.layout_diagonalClearing (Nat.le_of_eq hrows.symm), hrows]
    rfl
  rw [← hkinds]
  exact laidOut_flatten fun step hstep =>
    laidOut_inverseStep places (h.description_eq step hstep) (h.shape step hstep) hc

end Steps

namespace Solution

variable {s : Solution Float} {config : Config Float}

theorem Proportioned.laidOut_reductionLines (h : s.Proportioned rows cols) (hs : s.Printable)
    (hconfig : config.Accepted) (hc : 0 < cols) : ∃ text, reductionLines config s = .ok text ∧
      LaidOut (reductionLayout rows cols s.reductionTrace.size) text := by
  refine ⟨_, reductionLines_eq hconfig.step hs, ?_⟩
  have hheading : LaidOut [.words] ["=== Step-by-Step RREF Solution ==="] := by decide
  have hresult : LaidOut [.gap, .words] ["", "=== Final RREF Matrix ==="] := by decide
  exact (((hheading.append (laidOut_steps _ h.reductionTrace hc)).append hresult).append
    (laidOut_printedRows _ h.reduced hc)).append laidOut_gap

theorem Proportioned.laidOut_reportLines (h : s.Proportioned rows cols)
    (hconfig : config.Accepted) :
    ∃ text, reportLines config s = .ok text ∧ LaidOut (s.report.layout cols) text := by
  rw [reportLines]
  cases hreport : s.report with
  | noSolution =>
    rw [SolutionReport.layout]
    exact ⟨_, rfl, by decide⟩
  | infinite =>
    rw [SolutionReport.layout]
    exact ⟨_, rfl, by decide⟩
  | unique values =>
    dsimp only
    rw [valueLines_eq hconfig.value, SolutionReport.layout, ← h.values values hreport]
    have hheading : LaidOut [.words] ["Unique solution found:"] := by decide
    exact ⟨_, rfl, (hheading.append (laidOut_valueLines values)).append laidOut_gap⟩

theorem Proportioned.laidOut_transposeLines (h : s.Proportioned rows cols) (hs : s.Printable)
    (hconfig : config.Accepted) (hr : 0 < rows) (hc : 0 < cols) :
    ∃ text, transposeLines config s = .ok text ∧ LaidOut (transposeLayout rows cols) text := by
  refine ⟨_, transposeLines_eq hconfig.value hs, ?_⟩
  have hheading : LaidOut [.gap, .words, .words]
      ["", "=== TRANSPOSE (Step-by-step) ===", "Original Matrix:"] := by decide
  have hcopies : LaidOut (List.replicate (rows * cols) .words)
      (s.transposeTrace.steps.toList.map (·.description)) := by
    have hlength : (s.transposeTrace.steps.toList.map (·.description)).length = rows * cols := by
      rw [List.length_map, Array.length_toList, ← h.transpose_size, TraceLog.size]
    rw [← hlength]
    refine laidOut_replicate fun line hline => ?_
    obtain ⟨step, hstep, rfl⟩ := List.mem_map.mp hline
    exact words_fits_description (h.transposeTrace.description_eq step hstep)
  have hresult : LaidOut [.gap, .words] ["", "Transpose Result:"] := by decide
  have hgiven := (hheading.append
    (laidOut_printedRows config.valuePrecision h.given hc)).append laidOut_gap
  exact (((hgiven.append hcopies).append hresult).append
    (laidOut_printedRows _ h.transposed hr)).append laidOut_gap

theorem Proportioned.laidOut_inverseLines (h : s.Proportioned rows cols) (hs : s.Printable)
    (hconfig : config.Accepted) (hr : 0 < rows) :
    ∃ text, inverseLines config s = .ok text ∧ LaidOut (s.inverse.layout rows) text := by
  cases hinverse : s.inverse with
  | computed inverse trace =>
    obtain ⟨hprintable, htrace⟩ := hs.inverse inverse trace hinverse
    obtain ⟨hshape, hshows, hoperations⟩ := h.inverse inverse trace hinverse
    refine ⟨_, inverseLines_of_computed hconfig.value hprintable htrace hinverse, ?_⟩
    have hheading : LaidOut [.gap, .words] ["", "=== INVERSE (Step-by-step) ==="] := by decide
    have hrows : s.given.augmentIdentity.rows = rows := h.given.rows_eq
    have hsteps := laidOut_inverseSteps config.valuePrecision hshows (by omega) hrows hoperations
    have hresult : LaidOut [.words] ["Inverse Matrix:"] := by decide
    exact ((hheading.append hsteps).append
      (hresult.append (laidOut_printedRows _ hshape hr))).append laidOut_gap
  | singular step =>
    rw [inverseLines, hinverse, InverseOutcome.layout]
    exact ⟨_, rfl, by decide⟩
  | notSquare =>
    rw [inverseLines, hinverse, InverseOutcome.layout]
    exact ⟨_, rfl, by decide⟩

end Solution

theorem getLast?_unlines {text : List String} (h : text ≠ []) :
    (unlines text).toList.getLast? = some '\n' := by
  obtain ⟨rest, last, rfl⟩ := (List.eq_nil_or_concat text).resolve_left h
  simp [unlines, String.toList_join]

namespace DenseMatrix

variable {m : DenseMatrix Float}

/-- The report on a matrix has four sections, line for line as long as the shape of the matrix, the
pivots and exchanges of its reduction, the number of its solutions and the outcome of its inversion
tell. Every row of a matrix is a line with as many numbers as the matrix has columns. -/
theorem solve_laidOut (config : Config Float) (hm : m.WellFormed) (hr : 0 < m.rows)
    (hc : 0 < m.cols) (hconfig : config.Accepted) :
    ∃ s events text reduction report transpose inverse,
      m.solve config = .ok (s, events) ∧ s.render config = .ok text ∧
      reductionLines config s = .ok reduction ∧ reportLines config s = .ok report ∧
      transposeLines config s = .ok transpose ∧ inverseLines config s = .ok inverse ∧
      lines text.toList =
        (reduction ++ report ++ transpose ++ inverse).map String.toList ++ [[]] ∧
      text.toList.getLast? = some '\n' ∧
      LaidOut (reductionLayout m.rows m.cols s.reductionTrace.size) reduction ∧
      LaidOut (s.report.layout m.cols) report ∧
      LaidOut (transposeLayout m.rows m.cols) transpose ∧
      LaidOut (s.inverse.layout m.rows) inverse ∧
      reduction.length = (s.reductionTrace.scalings.length * m.rows + s.reductionTrace.exchanges) *
        (m.rows + 2) + m.rows + 4 ∧
      report.length = (match s.report with
        | .noSolution => 3
        | .infinite => 1
        | .unique _ => m.cols + 1) ∧
      transpose.length = m.rows * m.cols + m.rows + m.cols + 7 ∧
      inverse.length = match s.inverse with
        | .computed _ _ => (m.rows * m.rows + 1) * (m.rows + 2) + 2 * m.rows + 4
        | .singular _ => 4
        | .notSquare => 2 := by
  obtain ⟨s, events, hsolve, hs⟩ := exists_solve config hm hr hc
  obtain ⟨s', events', hsolve', h⟩ := solve_proportioned config hm hr hc
  obtain ⟨rfl, rfl⟩ : s = s' ∧ events = events' := by
    rw [hsolve] at hsolve'
    exact Prod.mk.inj (Except.ok.inj hsolve')
  obtain ⟨reduction, hreduction, hreductionLayout⟩ := h.laidOut_reductionLines hs hconfig hc
  obtain ⟨report, hreport, hreportLayout⟩ := h.laidOut_reportLines hconfig
  obtain ⟨transpose, htranspose, htransposeLayout⟩ := h.laidOut_transposeLines hs hconfig hr hc
  obtain ⟨inverse, hinverse, hinverseLayout⟩ := h.laidOut_inverseLines hs hconfig hr
  have hrender : s.render config = .ok (unlines (reduction ++ report ++ transpose ++ inverse)) := by
    rw [Solution.render, Solution.lines, hreduction, bind_ok, hreport, bind_ok, htranspose, bind_ok,
      hinverse]
    rfl
  have hall := ((hreductionLayout.append hreportLayout).append htransposeLayout).append
    hinverseLayout
  have hreductionLength := hreductionLayout.length_eq
  rw [length_reductionLayout] at hreductionLength
  have hne : reduction ++ report ++ transpose ++ inverse ≠ [] := by
    refine List.ne_nil_of_length_pos ?_
    simp only [List.length_append]
    omega
  refine ⟨s, events, _, reduction, report, transpose, inverse, hsolve, hrender, hreduction, hreport,
    htranspose, hinverse, lines_unlines hall.unbroken, getLast?_unlines hne, hreductionLayout,
    hreportLayout, htransposeLayout, hinverseLayout, ?_, ?_, ?_, ?_⟩
  · rw [hreductionLength, h.reduction_size]
  · rw [hreportLayout.length_eq]
    cases s.report with
    | noSolution => rfl
    | infinite => rfl
    | unique values =>
      simp [SolutionReport.layout]
      omega
  · rw [htransposeLayout.length_eq, length_transposeLayout]
  · rw [hinverseLayout.length_eq]
    cases s.inverse with
    | computed inverse trace => exact length_inversionLayout m.rows
    | singular step => rfl
    | notSquare => rfl

/-- The rows of the first matrix are exchanged and its solution is unique; the second has an
inverse. -/
theorem solve_laidOut_pair :
    (⟨2, 3, #[0, 1, 2, 1, 0, 3]⟩ : DenseMatrix Float).WellFormed ∧
    (⟨2, 2, #[1, 2, 3, 4]⟩ : DenseMatrix Float).WellFormed ∧ Config.default.Accepted ∧
    (∃ s events text, ∃ reduction report transpose inverse : List String,
      (⟨2, 3, #[0, 1, 2, 1, 0, 3]⟩ : DenseMatrix Float).solve .default = .ok (s, events) ∧
      s.render .default = .ok text ∧
      lines text.toList =
        (reduction ++ report ++ transpose ++ inverse).map String.toList ++ [[]] ∧
      reduction.length = 26 ∧ report.length = 4 ∧ transpose.length = 18 ∧ inverse.length = 2) ∧
    ∃ s events text, ∃ reduction report transpose inverse : List String,
      (⟨2, 2, #[1, 2, 3, 4]⟩ : DenseMatrix Float).solve .default = .ok (s, events) ∧
      s.render .default = .ok text ∧
      lines text.toList =
        (reduction ++ report ++ transpose ++ inverse).map String.toList ++ [[]] ∧
      reduction.length = 22 ∧ report.length = 3 ∧ transpose.length = 15 ∧ inverse.length = 28 := by
  have hm : (⟨2, 3, #[0, 1, 2, 1, 0, 3]⟩ : DenseMatrix Float).WellFormed := rfl
  have hm' : (⟨2, 2, #[1, 2, 3, 4]⟩ : DenseMatrix Float).WellFormed := rfl
  have hconfig : Config.default.Accepted := ⟨by decide, by decide⟩
  have hcounts : ((⟨2, 3, #[0, 1, 2, 1, 0, 3]⟩ : DenseMatrix Float).solve .default).toOption.map
      (fun outcome => (outcome.1.reductionTrace.size, (outcome.1.report.layout 3).length,
        (outcome.1.inverse.layout 2).length)) = some (5, 4, 2) := by decide +kernel
  have hcounts' : ((⟨2, 2, #[1, 2, 3, 4]⟩ : DenseMatrix Float).solve .default).toOption.map
      (fun outcome => (outcome.1.reductionTrace.size, (outcome.1.report.layout 2).length,
        (outcome.1.inverse.layout 2).length)) = some (4, 3, 28) := by decide +kernel
  obtain ⟨s, events, text, reduction, report, transpose, inverse, hsolve, hrender, _, _, _, _,
    hlines, _, hreduction, hreport, htranspose, hinverse, _⟩ :=
    solve_laidOut .default hm (by decide) (by decide) hconfig
  obtain ⟨s', events', text', reduction', report', transpose', inverse', hsolve', hrender', _, _, _,
    _, hlines', _, hreduction', hreport', htranspose', hinverse', _⟩ :=
    solve_laidOut .default hm' (by decide) (by decide) hconfig
  rw [hsolve] at hcounts
  rw [hsolve'] at hcounts'
  obtain ⟨hsize, houtcomes⟩ := Prod.mk.inj (Option.some.inj hcounts)
  obtain ⟨hkind, houtcome⟩ := Prod.mk.inj houtcomes
  obtain ⟨hsize', houtcomes'⟩ := Prod.mk.inj (Option.some.inj hcounts')
  obtain ⟨hkind', houtcome'⟩ := Prod.mk.inj houtcomes'
  refine ⟨hm, hm', hconfig, ⟨s, events, text, reduction, report, transpose, inverse, hsolve,
    hrender, hlines, ?_, hreport.length_eq.trans hkind, htranspose.length_eq,
    hinverse.length_eq.trans houtcome⟩, s', events', text', reduction', report', transpose',
    inverse', hsolve', hrender', hlines', ?_, hreport'.length_eq.trans hkind',
    htranspose'.length_eq, hinverse'.length_eq.trans houtcome'⟩
  · rw [hreduction.length_eq, hsize]
    rfl
  · rw [hreduction'.length_eq, hsize']
    rfl

end DenseMatrix

end GaussJordan
