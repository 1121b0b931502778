import GaussJordan.Proofs.Descriptions
import GaussJordan.Proofs.EventStream
import GaussJordan.Proofs.ReportText

namespace GaussJordan

/-- No line feed breaks the text. -/
def Unbroken (text : String) : Prop := '\n' ∉ text.toList

instance (text : String) : Decidable (Unbroken text) :=
  inferInstanceAs (Decidable ('\n' ∉ text.toList))

theorem unbroken_append {text more : String} :
    Unbroken (text ++ more) ↔ Unbroken text ∧ Unbroken more := by
  simp [Unbroken]

theorem unbroken_repr (n : Nat) : Unbroken n.repr := notMem_repr rfl n

theorem unbroken_fixedText (places : Nat) (x : Float) : Unbroken (Scalar.fixedText places x) :=
  fun h => absurd (Binary64.not_isBlank_of_mem_fixedText h) (by decide)

namespace Operation

theorem unbroken_describe (style : TraceStyle) (op : Operation Float) :
    Unbroken (op.describe style) := by
  cases op with
  | augment =>
    rw [describe_augment]
    decide
  | swap =>
    simp only [describe_swap, unbroken_append, unbroken_repr, true_and]
    decide
  | scale =>
    rcases eq_or_ne style .inversion with rfl | hstyle
    · simp only [describe_scale_inversion, unbroken_append, unbroken_repr, unbroken_fixedText,
        true_and, and_true]
      decide
    · simp only [describe_scale hstyle, unbroken_append, unbroken_repr, unbroken_fixedText,
        true_and]
      decide
  | eliminate =>
    rcases eq_or_ne style .inversion with rfl | hstyle
    · simp only [describe_eliminate_inversion, unbroken_append, unbroken_repr, unbroken_fixedText,
        true_and, and_true]
      decide
    · simp only [describe_eliminate hstyle, unbroken_append, unbroken_repr, unbroken_fixedText,
        true_and]
      decide
  | assign =>
    simp only [describe_assign, unbroken_append, unbroken_repr, unbroken_fixedText, true_and,
      and_true]
    decide

theorem describe_ne_empty (style : TraceStyle) (op : Operation Float) :
    op.describe style ≠ "" := by
  intro hempty
  have hhead := head?_describe style op
  rw [hempty] at hhead
  cases hhead

end Operation

/-- What a line of a report holds: nothing, words, or so many numbers set apart by tabs. -/
inductive LineKind where
  | gap
  | words
  | numbers (count : Nat)

def LineKind.Fits : LineKind → String → Prop
  | .gap, line => line = ""
  | .words, line => line ≠ "" ∧ Unbroken line
  | .numbers count, line => Unbroken line ∧ (pieces (· == '\t') line.toList).length = count

instance (kind : LineKind) (line : String) : Decidable (kind.Fits line) :=
  match kind with
  | .gap => inferInstanceAs (Decidable (line = ""))
  | .words => inferInstanceAs (Decidable (line ≠ "" ∧ Unbroken line))
  | .numbers count =>
    inferInstanceAs (Decidable (Unbroken line ∧ (pieces (· == '\t') line.toList).length = count))

theorem LineKind.Fits.unbroken {kind : LineKind} {line : String} (h : kind.Fits line) :
    Unbroken line := by
  cases kind with
  | gap =>
    obtain rfl : line = "" := h
    decide
  | words => exact h.2
  | numbers count => exact h.1

/-- Lines of the given kinds, one after the other. -/
def LaidOut (kinds : List LineKind) (text : List String) : Prop :=
  List.Forall₂ LineKind.Fits kinds text

instance (kinds : List LineKind) (text : List String) : Decidable (LaidOut kinds text) :=
  inferInstanceAs (Decidable (List.Forall₂ LineKind.Fits kinds text))

section LaidOut

variable {kinds more : List LineKind} {text rest : List String}

theorem LaidOut.length_eq (h : LaidOut kinds text) : text.length = kinds.length :=
  (List.Forall₂.length_eq h).symm

theorem LaidOut.append (h : LaidOut kinds text) (hrest : LaidOut more rest) :
    LaidOut (kinds ++ more) (text ++ rest) := List.rel_append h hrest

theorem LaidOut.unbroken (h : LaidOut kinds text) : ∀ line ∈ text, Unbroken line := by
  induction h with
  | nil => simp
  | cons hfits _ ih => exact List.forall_mem_cons.mpr ⟨hfits.unbroken, ih⟩

theorem laidOut_gap : LaidOut [.gap] [""] := by decide

theorem laidOut_replicate {kind : LineKind} (h : ∀ line ∈ text, kind.Fits line) :
    LaidOut (List.replicate text.length kind) text := by
  induction text with
  | nil => exact .nil
  | cons line text ih =>
    obtain ⟨hline, htext⟩ := List.forall_mem_cons.mp h
    exact .cons hline (ih htext)

theorem laidOut_flatten {β : Type} {kinds : β → List LineKind} {text : β → List String}
    {blocks : List β} (h : ∀ block ∈ blocks, LaidOut (kinds block) (text block)) :
    LaidOut (blocks.map kinds).flatten (blocks.map text).flatten := by
  induction blocks with
  | nil => exact .nil
  | cons block blocks ih =>
    obtain ⟨hblock, hblocks⟩ := List.forall_mem_cons.mp h
    exact hblock.append (ih hblocks)

end LaidOut

section Layout

open LineKind

def matrixLayout (rows cols : Nat) : List LineKind := List.replicate rows (numbers cols)

def stepLayout (rows cols : Nat) : List LineKind := words :: matrixLayout rows cols ++ [gap]

def reductionLayout (rows cols steps : Nat) : List LineKind :=
  words :: (List.replicate steps (stepLayout rows cols)).flatten ++
    [gap, words] ++ matrixLayout rows cols ++ [gap]

/-- There is a variable for each column but the last. -/
def SolutionReport.layout {α : Type} (cols : Nat) : SolutionReport α → List LineKind
  | .noSolution => [words, gap, words]
  | .infinite => [words]
  | .unique _ => words :: List.replicate (cols - 1) words ++ [gap]

def transposeLayout (rows cols : Nat) : List LineKind :=
  [gap, words, words] ++ matrixLayout rows cols ++ [gap] ++ List.replicate (rows * cols) words ++
    [gap, words] ++ matrixLayout cols rows ++ [gap]

/-- After the augmentation come as many blocks of steps as there are rows, each of as many steps
and with a gap before it. -/
def inversionLayout (n : Nat) : List LineKind :=
  let step := stepLayout n (2 * n)
  let block := gap :: (List.replicate n step).flatten
  [gap, words] ++ (step ++ (List.replicate n block).flatten) ++ words :: matrixLayout n n ++ [gap]

def InverseOutcome.layout {α : Type} (n : Nat) : InverseOutcome α → List LineKind
  | .computed _ _ => inversionLayout n
  | .singular _ => [gap, words, gap, words]
  | .notSquare => [gap, words]

end Layout

section Length

variable (rows cols n : Nat)

@[simp] theorem length_matrixLayout : (matrixLayout rows cols).length = rows :=
  List.length_replicate

@[simp] theorem length_stepLayout : (stepLayout rows cols).length = rows + 2 := by
  simp [stepLayout]

theorem length_reductionLayout (steps : Nat) :
    (reductionLayout rows cols steps).length = steps * (rows + 2) + rows + 4 := by
  simp [reductionLayout]
  omega

theorem length_transposeLayout :
    (transposeLayout rows cols).length = rows * cols + rows + cols + 7 := by
  simp [transposeLayout]
  omega

theorem length_inversionLayout :
    (inversionLayout n).length = (n * n + 1) * (n + 2) + 2 * n + 4 := by
  simp [inversionLayout]
  ring

end Length

section Printed

variable {rows cols places : Nat}

/-- No tab stands in a number, so there are as many pieces as numbers. -/
theorem numbers_fits_rowString (places : Nat) {row : List Float} (h : row.length = cols)
    (hc : 0 < cols) : (LineKind.numbers cols).Fits (rowString places row) := by
  have htab : ∀ word ∈ row.map fun x => (Binary64.fixedText places x).toList, '\t' ∉ word := by
    intro word hword hmem
    obtain ⟨x, _, rfl⟩ := List.mem_map.mp hword
    exact absurd (Binary64.not_isBlank_of_mem_fixedText hmem) (by decide)
  have hsplit := List.splitOn_intercalate '\t' htab
    (List.ne_nil_of_length_pos (by rwa [List.length_map, h]))
  refine ⟨DenseMatrix.newline_notMem_rowString places row, ?_⟩
  rw [pieces_eq_splitOnP, DenseMatrix.toList_rowString]
  change (List.splitOn _ _).length = _
  rw [hsplit, List.length_map, h]

theorem laidOut_printedRows {m : DenseMatrix Float} (places : Nat) (h : m.HasShape rows cols)
    (hc : 0 < cols) : LaidOut (matrixLayout rows cols) (m.printedRows places) := by
  have hlength : (m.printedRows places).length = rows := by
    rw [DenseMatrix.printedRows, List.length_map, DenseMatrix.toRows, List.length_map,
      List.length_range, h.rows_eq]
  rw [matrixLayout, ← hlength]
  refine laidOut_replicate fun line hline => ?_
  obtain ⟨row, hrow, rfl⟩ := List.mem_map.mp hline
  exact numbers_fits_rowString places
    ((DenseMatrix.length_of_mem_toRows hrow).trans h.cols_eq) hc

theorem words_fits_description {style : TraceStyle} {step : Step Float}
    (h : step.description = step.operation.describe style) :
    LineKind.words.Fits step.description := by
  rw [h]
  exact ⟨Operation.describe_ne_empty style _, Operation.unbroken_describe style _⟩

theorem laidOut_step {style : TraceStyle} {step : Step Float} (places : Nat)
    (hdescription : step.description = step.operation.describe style)
    (hshape : step.snapshot.HasShape rows cols) (hc : 0 < cols) : LaidOut (stepLayout rows cols)
      (step.description :: step.snapshot.printedRows places ++ [""]) :=
  have hrows := laidOut_printedRows places hshape hc
  LaidOut.append (.cons (words_fits_description hdescription) hrows) laidOut_gap

theorem laidOut_valueLines (values : List Float) :
    LaidOut (List.replicate values.length .words)
      ((values.map (Scalar.fixedText places)).zipIdx.map fun (number, i) =>
        s!"x{i + 1} = {number}") := by
  have hlength : ((values.map (Scalar.fixedText places)).zipIdx.map fun (number, i) =>
      s!"x{i + 1} = {number}").length = values.length := by simp
  rw [← hlength]
  refine laidOut_replicate fun line hline => ?_
  obtain ⟨⟨number, i⟩, hmem, rfl⟩ := List.mem_map.mp hline
  obtain ⟨x, _, rfl⟩ := List.mem_map.mp (List.fst_mem_of_mem_zipIdx hmem)
  refine ⟨by simp, ?_⟩
  simp only [unbroken_append]
  exact ⟨⟨⟨by decide, unbroken_repr (i + 1)⟩, by decide⟩, unbroken_fixedText places x⟩

end Printed

end GaussJordan
