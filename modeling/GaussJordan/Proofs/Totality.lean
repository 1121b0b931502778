import GaussJordan.Proofs.DiagonalRun
import GaussJordan.Proofs.FlatOperations
import GaussJordan.Proofs.ReportText
import GaussJordan.Proofs.SolvedSquare

namespace GaussJordan

/-- The rows and columns that an operation names are those of a matrix of the given shape. -/
def Operation.InShape {α : Type} (rows cols : Nat) : Operation α → Prop
  | .augment => True
  | .swap first second => first < rows ∧ second < rows
  | .scale row _ => row < rows
  | .eliminate target source _ => target < rows ∧ source < rows ∧ target ≠ source
  | .assign row col _ => row < rows ∧ col < cols

def Inversion.sheet {α : Type} : Inversion α → Worksheet α
  | .computed _ sheet => sheet
  | .singular _ sheet => sheet

variable {α : Type} [Scalar α] {tolerance : α}

namespace DenseMatrix

variable {m : DenseMatrix α}

theorem cell_ok_iff (hm : m.WellFormed) {r c : Nat} :
    (∃ x, m.cell r c = .ok x) ↔ r < m.rows ∧ c < m.cols := by
  constructor
  · rintro ⟨x, hx⟩
    unfold cell at hx
    split at hx
    next hin => exact hin
    next => cases hx
  · rintro ⟨hr, hc⟩
    exact ⟨_, cell_eq_entry hm hr hc⟩

theorem row_ok_iff (hm : m.WellFormed) (hc : 0 < m.cols) {r : Nat} :
    (∃ row, m.row r = .ok row) ↔ r < m.rows := by
  constructor
  · rintro ⟨row, h⟩
    obtain ⟨bounds, h, _⟩ := exists_of_bind_ok h
    obtain ⟨_, hstart, h⟩ := exists_of_bind_ok h
    obtain ⟨_, hnext, h⟩ := exists_of_bind_ok h
    obtain ⟨_, hstop, h⟩ := exists_of_bind_ok h
    cases hstart
    cases hnext
    cases hstop
    split at h
    next hin =>
      have hsize : m.cells.size = m.rows * m.cols := hm
      have hroom := hin.2
      rwa [hsize, Nat.mul_le_mul_right_iff hc] at hroom
    next => cases h
  · exact fun hr => ⟨_, row_eq_entries hm hr⟩

theorem pivoting_inShape {row found : Nat} (hr : row < m.rows) (hf : found < m.rows) (col : Nat) :
    ∀ op ∈ m.pivoting row found col, op.InShape m.rows m.cols := by
  intro op hop
  rcases mem_pivoting_cases hop with rfl | rfl | ⟨k, hlt, hne, rfl⟩
  · exact ⟨hr, hf⟩
  · exact hr
  · exact ⟨hlt, hr, hne⟩

theorem copying_inShape (m : DenseMatrix α) : ∀ op ∈ m.copying, op.InShape m.cols m.rows := by
  intro op hop
  obtain ⟨place, hplace, rfl⟩ := List.mem_map.mp hop
  exact mem_places.mp hplace

/-- However a matrix is classified, its rows are cut to its width; and where variables have values,
there is a row for each of them. -/
theorem classify_total (tolerance : α) (hm : m.WellFormed) (hc : 0 < m.cols) :
    ∃ report verdict, m.classify tolerance = .ok (report, verdict) ∧
      ∀ values, report = .unique values → values.length = m.cols - 1 ∧ m.cols - 1 ≤ m.rows := by
  by_cases hcontra : ∃ r, r < m.rows ∧ m.Contradicts tolerance r
  · exact ⟨_, _, classify_of_contradiction hm hc hcontra, by simp⟩
  · rcases Nat.lt_or_ge (m.occupiedFrom tolerance 0) (m.cols - 1) with hfew | henough
    · exact ⟨_, _, classify_of_few_rows hm hc hcontra hfew, by simp⟩
    · refine ⟨_, _, classify_of_enough_rows hm hc hcontra henough, fun values hvalues => ?_⟩
      have hle : m.occupiedFrom tolerance 0 ≤ m.rows := occupiedFrom_le 0
      cases hvalues
      exact ⟨by simp, by omega⟩

end DenseMatrix

theorem Operation.apply_cols_le {op : Operation α} {m n : DenseMatrix α} (h : op.apply m = .ok n) :
    m.cols ≤ n.cols := by
  by_cases hop : op = .augment
  · cases hop
    cases h
    exact Nat.le_add_right _ _
  · exact Nat.le_of_eq (apply_keepsShape hop h).cols_eq.symm

/-- A derivation records matrices that can be printed, if it starts with one. -/
theorem Worksheet.performAll_printable {w w' : Worksheet α} {ops : List (Operation α)}
    (hstate : w.state.Printable) (hlog : w.log.Printable) (h : w.performAll ops = .ok w') :
    w'.state.Printable ∧ w'.log.Printable :=
  performAll_keeps (fun _ _ _ _ hm happly => ⟨Operation.apply_wellFormed hm.wellFormed happly,
    Nat.lt_of_lt_of_le hm.cols_pos (Operation.apply_cols_le happly)⟩) hstate hlog h

theorem PivotReach.inShape {first w : Worksheet α} {answers : List (Nat × Nat)}
    (hfirst : first.state.WellFormed) (reach : PivotReach tolerance first answers w) :
    ∃ ops, w.log.operations = first.log.operations ++ ops ∧
      ∀ op ∈ ops, op.InShape first.state.rows first.state.cols := by
  obtain ⟨_, ops, hall, hops⟩ := reach.invariant hfirst
    (P := fun _ _ ops => ∀ op ∈ ops, op.InShape first.state.rows first.state.cols)
    (by simp) (by
      intro answers m ops found col _ hrows hcols room hp hops op hop
      rcases List.mem_append.mp hop with hop | hop
      · exact hops op hop
      · rw [← hrows, ← hcols]
        exact DenseMatrix.pivoting_inShape room hp.lt_rows col op hop)
  exact ⟨ops, Worksheet.operations_of_performAll hall, hops⟩

namespace DenseMatrix

variable {m : DenseMatrix α}

theorem reduce_total (tolerance : α) (hm : m.WellFormed) : ∃ w, m.reduce tolerance = .ok w ∧
    (∀ op ∈ w.log.operations, op.InShape m.rows m.cols) ∧
    (m.Printable → w.state.Printable ∧ w.log.Printable) := by
  obtain ⟨answers, w, hrun, reach, _⟩ := reduce_reach tolerance hm
  obtain ⟨ops, hoperations, hops⟩ := reach.inShape hm
  obtain ⟨_, hall⟩ := reach.derivation hm
  have hlog : (reductionSheet m).log.Printable := fun n hn => by cases hn
  refine ⟨_, hrun, ?_, fun h => ?_⟩
  · obtain rfl : w.log.operations = ops := hoperations
    exact hops
  · have hkept := Worksheet.performAll_printable (w := reductionSheet m) h hlog hall
    exact hkept

theorem transposeBySteps_total (hm : m.WellFormed) : ∃ w, m.transposeBySteps = .ok w ∧
    (∀ op ∈ w.log.operations, op.InShape m.cols m.rows) ∧ (0 < m.rows → w.state.Printable) := by
  obtain ⟨w, hrun, hall⟩ := transposeBySteps_spec hm
  refine ⟨w, hrun, ?_, fun hr => ?_⟩
  · obtain hoperations : w.log.operations = m.copying := Worksheet.operations_of_performAll hall
    rw [hoperations]
    exact m.copying_inShape
  · have hlog : m.transpositionSheet.log.Printable := fun n hn => by cases hn
    exact (Worksheet.performAll_printable ⟨generate_wellFormed _ _ _, hr⟩ hlog hall).1

theorem operations_inversionSheet : (inversionSheet m).log.operations = [.augment] := rfl

theorem snapshots_inversionSheet : (inversionSheet m).log.snapshots = [m.augmentIdentity] := rfl

theorem inversionSheet_printable (hn : 0 < m.rows) :
    m.augmentIdentity.Printable ∧ (inversionSheet m).log.Printable := by
  have h : m.augmentIdentity.Printable := ⟨augmentIdentity_wellFormed, Nat.add_pos_right _ hn⟩
  refine ⟨h, fun n hmem => ?_⟩
  rw [snapshots_inversionSheet, List.mem_singleton] at hmem
  rwa [hmem]

theorem invert_total (tolerance : α) (hsq : m.IsSquare) (hn : 0 < m.rows) :
    ∃ result, m.invert tolerance = .ok result ∧
      (∀ op ∈ result.sheet.log.operations, op.InShape m.rows (m.cols + m.rows)) ∧
      ∀ inverse sheet, result = .computed inverse sheet →
        inverse.Printable ∧ sheet.log.Printable := by
  obtain ⟨haugmented, hlog⟩ := inversionSheet_printable hn
  have hinShape : ∀ {answers w}, PivotReach tolerance (inversionSheet m) answers w →
      ∀ op ∈ w.log.operations, op.InShape m.rows (m.cols + m.rows) := by
    intro answers w reach op hop
    obtain ⟨ops, hoperations, hops⟩ := reach.inShape augmentIdentity_wellFormed
    rw [hoperations, operations_inversionSheet, List.mem_append, List.mem_singleton] at hop
    rcases hop with rfl | hop
    · trivial
    · exact hops op hop
  rcases invert_reach tolerance hsq hn with ⟨w, reach, hrun⟩ | ⟨i, w, _, reach, _, hrun⟩
  · obtain ⟨_, hall⟩ := reach.derivation augmentIdentity_wellFormed
    refine ⟨_, hrun, @hinShape _ w reach, fun inverse sheet h => ?_⟩
    cases h
    exact ⟨⟨generate_wellFormed _ _ _, hn⟩, (Worksheet.performAll_printable haugmented hlog hall).2⟩
  · exact ⟨_, hrun, @hinShape _ w reach, fun _ _ h => by cases h⟩

/-- Every matrix with a row and a column has a solution, all of which can be printed. -/
theorem exists_solve (config : Config α) (hm : m.WellFormed) (hr : 0 < m.rows) (hc : 0 < m.cols) :
    ∃ s events, m.solve config = .ok (s, events) ∧ s.Printable := by
  obtain ⟨w, hreduce, _, hreduced⟩ := reduce_total config.epsilon hm
  obtain ⟨hstate, hlog⟩ := hreduced ⟨hm, hc⟩
  obtain ⟨report, verdict, hclassify, _⟩ :=
    classify_total config.epsilon hstate.wellFormed hstate.cols_pos
  obtain ⟨t, htranspose, _, htransposed⟩ := transposeBySteps_total hm
  obtain ⟨outcome, events, houtcome, hprintable⟩ : ∃ outcome events,
      m.inverseOutcome config.epsilon = .ok (outcome, events) ∧
      ∀ inverse trace, outcome = .computed inverse trace →
        inverse.Printable ∧ trace.Printable := by
    by_cases hsq : m.IsSquare
    · obtain ⟨result, hinvert, _, hresult⟩ := invert_total config.epsilon hsq hr
      cases result with
      | computed inverse sheet =>
        refine ⟨_, _, inverseOutcome_of_computed hsq hinvert, fun _ _ h => ?_⟩
        cases h
        exact hresult inverse sheet rfl
      | singular step sheet =>
        exact ⟨_, _, inverseOutcome_of_singular hsq hinvert, fun _ _ h => by cases h⟩
    · exact ⟨_, _, inverseOutcome_of_not_isSquare _ hsq, fun _ _ h => by cases h⟩
  exact ⟨_, _, solve_of_parts hreduce hclassify htranspose houtcome,
    ⟨hm, hc⟩, hstate, hlog, htransposed hr, hprintable⟩

/-- Every text is answered, with a report or with what is wrong with it. -/
theorem exists_solveText {config : Config Float} (hconfig : config.Accepted) (text : String) :
    ∃ answer, solveText config text = .ok answer := by
  rw [solveText]
  cases hread : ofText text with
  | error e => exact ⟨_, rfl⟩
  | ok m =>
    obtain ⟨_, hm, hr, hc, _⟩ := ofText_ok hread
    obtain ⟨s, events, hsolve, hprintable⟩ := exists_solve config hm hr hc
    obtain ⟨report, hrender⟩ := hprintable.exists_render hconfig
    dsimp only
    rw [hsolve, bind_ok]
    dsimp only
    rw [hrender, bind_ok]
    exact ⟨_, rfl⟩

end DenseMatrix

end GaussJordan
