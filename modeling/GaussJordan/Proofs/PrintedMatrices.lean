import GaussJordan.Report
import GaussJordan.Proofs.ClassifiedRows
import GaussJordan.Proofs.PrintedNumbers
import GaussJordan.Proofs.TextGrammar

namespace GaussJordan

section Printing

variable {α : Type} [Scalar α] {places : Nat}

def rowString (places : Nat) (row : List α) : String :=
  "\t".intercalate (row.map (Scalar.fixedText places))

theorem numberText_eq (hp : places ≤ maxPlaces) (x : α) :
    numberText places x = .ok (Scalar.fixedText places x) := by
  rw [numberText, if_pos hp]

theorem rowText_eq (hp : places ≤ maxPlaces) (row : List α) :
    rowText places row = .ok (rowString places row) := by
  rw [rowText, mapM_eq_ok fun x _ => numberText_eq hp x, bind_ok]
  rfl

/-- A matrix, one row on each line. -/
def DenseMatrix.printedRows (places : Nat) (m : DenseMatrix α) : List String :=
  m.toRows.map (rowString places)

theorem matrixLines_eq {m : DenseMatrix α} (hp : places ≤ maxPlaces) (hm : m.WellFormed)
    (hc : 0 < m.cols) : matrixLines places m = .ok (m.printedRows places) := by
  rw [matrixLines, DenseMatrix.rowSlices_eq_toRows hm hc, bind_ok]
  exact mapM_eq_ok fun row _ => rowText_eq hp row

end Printing

theorem lines_unlines {rows : List String} (h : ∀ row ∈ rows, '\n' ∉ row.toList) :
    lines (unlines rows).toList = rows.map String.toList ++ [[]] := by
  rw [unlines, String.toList_join, lines_eq_splitOn]
  induction rows with
  | nil => rfl
  | cons row rows ih =>
    have hrow := h row List.mem_cons_self
    have hrest := ih fun other hother => h other (List.mem_cons_of_mem _ hother)
    have hfeed : "\n".toList = ['\n'] := rfl
    rw [List.map_cons, List.flatMap_cons, String.toList_append, hfeed, List.append_assoc,
      List.singleton_append, List.splitOn_append_cons_self_of_not_mem hrow, hrest]
    rfl

namespace DenseMatrix

variable {m : DenseMatrix Float} {places : Nat}

theorem toList_rowString (places : Nat) (row : List Float) : (rowString places row).toList =
    ['\t'].intercalate (row.map fun x => (Binary64.fixedText places x).toList) := by
  rw [rowString, String.toList_intercalate, List.map_map]
  rfl

theorem tokens_rowString (places : Nat) (row : List Float) : tokens (rowString places row).toList =
    row.map fun x => (Binary64.fixedText places x).toList := by
  rw [toList_rowString]
  apply tokens_intercalate
  · intro word hword
    obtain ⟨x, _, rfl⟩ := List.mem_map.mp hword
    exact Binary64.fixedText_ne_nil places x
  · intro word hword
    obtain ⟨x, _, rfl⟩ := List.mem_map.mp hword
    exact fun c => Binary64.not_isBlank_of_mem_fixedText

theorem notMem_intercalate {c : Char} {words : List (List Char)} (hc : c ≠ '\t')
    (h : ∀ word ∈ words, c ∉ word) : c ∉ ['\t'].intercalate words := by
  induction words with
  | nil => simp
  | cons word words ih =>
    have hword := h word List.mem_cons_self
    have hwords := ih fun other hother => h other (List.mem_cons_of_mem _ hother)
    cases words with
    | nil => simpa using hword
    | cons next words => simp [List.intercalate_cons_cons, hword, hc, hwords]

theorem newline_notMem_rowString (places : Nat) (row : List Float) :
    '\n' ∉ (rowString places row).toList := by
  rw [toList_rowString]
  refine notMem_intercalate (by decide) fun word hword hmem => ?_
  obtain ⟨x, _, rfl⟩ := List.mem_map.mp hword
  exact absurd (Binary64.not_isBlank_of_mem_fixedText hmem) (by decide)

/-- A line feed is blank, so it stands in no number; and numbers are set apart by tabs. -/
theorem tokenTable_printedRows (places : Nat) (m : DenseMatrix Float) :
    tokenTable (unlines (m.printedRows places)) =
      m.toRows.map (List.map fun x => (Binary64.fixedText places x).toList) ++ [[]] := by
  rw [tokenTable, lines_unlines fun row hrow => ?_]
  · rw [printedRows, List.map_append, List.map_map, List.map_map]
    congr 1
    exact List.map_congr_left fun row _ => tokens_rowString places row
  · obtain ⟨values, _, rfl⟩ := List.mem_map.mp hrow
    exact newline_notMem_rowString places values

/-- The matrix of the doubles that the printed cells stand for. -/
def reread (places : Nat) (m : DenseMatrix Float) : DenseMatrix Float :=
  generate m.rows m.cols fun r c => (Numeral.printed places (m.entry r c)).value

theorem toRows_reread (places : Nat) (m : DenseMatrix Float) :
    (m.reread places).toRows =
      m.toRows.map (List.map fun x => (Numeral.printed places x).value) := by
  unfold toRows
  rw [List.map_map]
  refine List.map_congr_left fun r hr => ?_
  rw [Function.comp_apply, List.map_map]
  exact List.map_congr_left fun c hc =>
    entry_generate _ (List.mem_range.mp hr) (List.mem_range.mp hc)

theorem filter_printedRows (hc : 0 < m.cols) :
    (tokenTable (unlines (m.printedRows places))).filter (· ≠ []) =
      m.toRows.map (List.map fun x => (Binary64.fixedText places x).toList) := by
  have hnonempty : ∀ row ∈ m.toRows.map (List.map fun x => (Binary64.fixedText places x).toList),
      decide (row ≠ []) = true := by
    intro row hrow
    obtain ⟨values, hvalues, rfl⟩ := List.mem_map.mp hrow
    have hlength := length_of_mem_toRows hvalues
    simpa using List.ne_nil_of_length_pos (hlength ▸ hc)
  rw [tokenTable_printedRows, List.filter_append, List.filter_eq_self.mpr hnonempty]
  simp

/-- What is printed reads as a grid, whose numbers are those that the printed cells stand for. -/
theorem ofText_printedRows (hr : 0 < m.rows) (hc : 0 < m.cols) :
    ofText (unlines (m.printedRows places)) = .ok (m.reread places) := by
  have hfilter := @filter_printedRows m places hc
  have hrow : ∀ row ∈ tokenTable (unlines (m.printedRows places)), row ≠ [] →
      ∃ values ∈ m.toRows, values.map (fun x => (Binary64.fixedText places x).toList) = row := by
    intro row hrow hne
    have hmem : row ∈ (tokenTable (unlines (m.printedRows places))).filter (· ≠ []) :=
      List.mem_filter.mpr ⟨hrow, decide_eq_true hne⟩
    rw [hfilter] at hmem
    exact List.mem_map.mp hmem
  refine ofText_of_reads ⟨?_, ?_, ?_⟩ (generate_wellFormed _ _ _) ?_
  · have hsome : (tokenTable (unlines (m.printedRows places))).filter (· ≠ []) ≠ [] := by
      rw [hfilter]
      exact List.ne_nil_of_length_pos (by simpa [toRows] using hr)
    obtain ⟨row, hmem⟩ := List.exists_mem_of_ne_nil _ hsome
    exact ⟨row, by simpa using List.mem_filter.mp hmem⟩
  · intro row hmem token htoken
    obtain ⟨values, _, rfl⟩ := hrow row hmem (List.ne_nil_of_mem htoken)
    obtain ⟨x, _, rfl⟩ := List.mem_map.mp htoken
    simp [Numeral.read?_fixedText]
  · intro row hmem other hother hne hne'
    obtain ⟨values, hvalues, rfl⟩ := hrow row hmem hne
    obtain ⟨values', hvalues', rfl⟩ := hrow other hother hne'
    rw [List.length_map, List.length_map, length_of_mem_toRows hvalues,
      length_of_mem_toRows hvalues']
  · rw [TokenTable.Reads, hfilter, toRows_reread, List.forall₂_map_left_iff,
      List.forall₂_map_right_iff]
    refine List.forall₂_same.mpr fun row _ => ?_
    rw [List.forall₂_map_left_iff, List.forall₂_map_right_iff]
    exact List.forall₂_same.mpr fun x _ => ⟨_, Numeral.read?_fixedText places x, rfl⟩

theorem printedRows_reread (places : Nat) (m : DenseMatrix Float) :
    (m.reread places).printedRows places = m.printedRows places := by
  rw [printedRows, toRows_reread, printedRows, List.map_map]
  refine List.map_congr_left fun row _ => ?_
  rw [Function.comp_apply, rowString, List.map_map, rowString]
  congr 1
  exact List.map_congr_left fun x _ => Binary64.fixedText_value_printed places x

/-- A printed matrix can be read back, with each cell the double that its text stands for, and is
then printed the same: rounding to doubles and back to decimals moves no digit. -/
theorem printed_reads_back (hm : m.WellFormed) (hr : 0 < m.rows) (hc : 0 < m.cols)
    (hp : places ≤ maxPlaces) :
    ∃ lines m', matrixLines places m = .ok lines ∧ ofText (unlines lines) = .ok m' ∧
      m'.WellFormed ∧ m'.rows = m.rows ∧ m'.cols = m.cols ∧
      (∀ r c, r < m.rows → c < m.cols →
        Denotes (Binary64.fixedText places (m.entry r c)).toList (m'.entry r c)) ∧
      matrixLines places m' = .ok lines := by
  have hm' : (m.reread places).WellFormed := generate_wellFormed _ _ _
  refine ⟨_, _, matrixLines_eq hp hm hc, ofText_printedRows hr hc, hm', rfl, rfl, ?_, ?_⟩
  · intro r c hrow hcol
    rw [reread, entry_generate _ hrow hcol]
    exact ⟨_, Numeral.read?_fixedText places _, rfl⟩
  · rw [matrixLines_eq hp hm' hc, printedRows_reread]

/-- No number, a negative zero, an infinity and the least positive double. -/
theorem printed_reads_back_special :
    (⟨2, 2, #[0.0 / 0.0, -0.0, 1.0 / 0.0, Float.ofBits 1]⟩ : DenseMatrix Float).WellFormed ∧
    (2 : Nat) ≤ maxPlaces ∧
    ∃ lines m', matrixLines 2
        (⟨2, 2, #[0.0 / 0.0, -0.0, 1.0 / 0.0, Float.ofBits 1]⟩ : DenseMatrix Float) = .ok lines ∧
      ofText (unlines lines) = .ok m' ∧ m'.rows = 2 ∧ m'.cols = 2 ∧
      matrixLines 2 m' = .ok lines := by
  have hm : (⟨2, 2, #[0.0 / 0.0, -0.0, 1.0 / 0.0, Float.ofBits 1]⟩ :
      DenseMatrix Float).WellFormed := rfl
  have hp : (2 : Nat) ≤ maxPlaces := by decide
  obtain ⟨lines, m', hlines, hread, _, hrows, hcols, _, hagain⟩ :=
    printed_reads_back hm (by decide) (by decide) hp
  exact ⟨hm, hp, lines, m', hlines, hread, hrows, hcols, hagain⟩

end DenseMatrix

end GaussJordan
