import GaussJordan.MatrixText
import GaussJordan.Proofs.StackedRows
import GaussJordan.Proofs.TokenRuns
import Mathlib.Data.List.Forall2

namespace GaussJordan

/-- The token reads as the number. -/
def Denotes (token : List Char) (x : Float) : Prop :=
  ∃ numeral, Numeral.read? token = some numeral ∧ numeral.value = x

/-- The tokens of each line of a text. -/
abbrev TokenTable := List (List (List Char))

namespace TokenTable

/-- The number of tokens on the first line that has any. -/
def width (table : TokenTable) : Nat := ((table.find? (· ≠ [])).getD []).length

/-- Some line has a token, all tokens read as numbers, and lines with tokens have equally many. -/
structure IsGrid (table : TokenTable) : Prop where
  nonblank : ∃ row ∈ table, row ≠ []
  readable : ∀ row ∈ table, ∀ token ∈ row, Numeral.read? token ≠ none
  even : ∀ row ∈ table, ∀ other ∈ table, row ≠ [] → other ≠ [] → row.length = other.length

/-- The rows of the numbers that the tokens read as. Lines without tokens give no row. -/
def Reads (table : TokenTable) (rows : List (List Float)) : Prop :=
  List.Forall₂ (List.Forall₂ Denotes) (table.filter (· ≠ [])) rows

/-- A line that is blank or has the right number of tokens, all of which read as numbers. -/
structure Sound (cols : Nat) (row : List (List Char)) : Prop where
  readable : ∀ token ∈ row, Numeral.read? token ≠ none
  even : row ≠ [] → row.length = cols

/-- What a line is refused for: its leftmost token that does not read as a number, or, if there is
none, the number of its tokens. -/
inductive RowFault (cols number : Nat) (row : List (List Char)) : InputFormatError → Prop where
  | unreadable {before after : List (List Char)} {token : List Char}
    (split : row = before ++ token :: after)
    (leftmost : ∀ earlier ∈ before, Numeral.read? earlier ≠ none)
    (unreadable : Numeral.read? token = none) :
    RowFault cols number row (.invalidNumber number (String.ofList token))
  | uneven (readable : ∀ token ∈ row, Numeral.read? token ≠ none) (nonblank : row ≠ [])
    (uneven : row.length ≠ cols) : RowFault cols number row (.ragged number cols row.length)

/-- What the first line that is not sound is refused for. The lines have the numbers from `number`
on. -/
def FirstFault (cols number : Nat) (table : TokenTable) (e : InputFormatError) : Prop :=
  ∃ k row, table[k]? = some row ∧ RowFault cols (number + k) row e ∧
    ∀ j < k, ∀ earlier, table[j]? = some earlier → Sound cols earlier

variable {cols number : Nat} {row : List (List Char)} {table : TokenTable}

theorem sound_nil : Sound cols [] := ⟨by simp, by simp⟩

theorem sound_or_rowFault (cols number : Nat) (row : List (List Char)) :
    Sound cols row ∨ ∃ e, RowFault cols number row e := by
  cases hfind : row.find? (fun token => (Numeral.read? token).isNone) with
  | some token =>
    obtain ⟨hnone, before, after, hsplit, hbefore⟩ := List.find?_eq_some_iff_append.mp hfind
    refine .inr ⟨_, .unreadable hsplit (fun earlier he => ?_) (Option.isNone_iff_eq_none.mp hnone)⟩
    simpa [Option.isSome_iff_ne_none] using hbefore earlier he
  | none =>
    have hreadable : ∀ token ∈ row, Numeral.read? token ≠ none := by
      simpa using List.find?_eq_none.mp hfind
    by_cases heven : row ≠ [] → row.length = cols
    · exact .inl ⟨hreadable, heven⟩
    · obtain ⟨hne, hlength⟩ := Classical.not_imp.mp heven
      exact .inr ⟨_, .uneven hreadable hne hlength⟩

theorem firstFault_cons_of_rowFault {e : InputFormatError} (h : RowFault cols number row e) :
    FirstFault cols number (row :: table) e :=
  ⟨0, row, rfl, h, fun _ hj => absurd hj (Nat.not_lt_zero _)⟩

theorem firstFault_cons_of_sound {e : InputFormatError} (hrow : Sound cols row)
    (h : FirstFault cols (number + 1) table e) : FirstFault cols number (row :: table) e := by
  obtain ⟨k, faulty, hk, hfault, hbefore⟩ := h
  refine ⟨k + 1, faulty, hk, ?_, fun j hj earlier hget => ?_⟩
  · rwa [Nat.add_right_comm, Nat.add_assoc] at hfault
  · cases j with
    | zero =>
      cases hget
      exact hrow
    | succ j => exact hbefore j (by omega) earlier hget

theorem FirstFault.cons_cases {e : InputFormatError} (h : FirstFault cols number (row :: table) e) :
    RowFault cols number row e ∨ Sound cols row ∧ FirstFault cols (number + 1) table e := by
  obtain ⟨k, faulty, hk, hfault, hbefore⟩ := h
  cases k with
  | zero =>
    cases hk
    exact .inl hfault
  | succ k =>
    refine .inr ⟨hbefore 0 (by omega) row rfl, k, faulty, hk, ?_, fun j hj earlier hget => ?_⟩
    · rwa [Nat.add_right_comm, Nat.add_assoc]
    · exact hbefore (j + 1) (by omega) earlier hget

theorem FirstFault.ne_empty {e : InputFormatError} (h : FirstFault cols number table e) :
    e ≠ .empty := by
  obtain ⟨_, _, _, hfault, _⟩ := h
  cases hfault <;> simp

/-- Either all lines are sound, or there is a first one that is not. -/
theorem sound_or_firstFault (cols number : Nat) (table : TokenTable) :
    (∀ row ∈ table, Sound cols row) ∨ ∃ e, FirstFault cols number table e := by
  induction table generalizing number with
  | nil => exact .inl fun row hrow => by simp at hrow
  | cons row table ih =>
    rcases sound_or_rowFault cols number row with hrow | ⟨e, hrow⟩
    · rcases ih (number + 1) with htable | ⟨e, htable⟩
      · exact .inl fun other hother => by
          rcases List.mem_cons.mp hother with rfl | hother
          · exact hrow
          · exact htable other hother
      · exact .inr ⟨e, firstFault_cons_of_sound hrow htable⟩
    · exact .inr ⟨e, firstFault_cons_of_rowFault hrow⟩

@[simp] theorem width_nil_cons (table : TokenTable) : width ([] :: table) = width table := by
  simp [width]

theorem width_cons (h : row ≠ []) (table : TokenTable) : width (row :: table) = row.length := by
  simp [width, h]

/-- The lines of a grid are sound, and a table of sound lines with a token somewhere is a grid. -/
theorem isGrid_iff : table.IsGrid ↔
    (∃ row ∈ table, row ≠ []) ∧ ∀ row ∈ table, Sound (width table) row := by
  have hfirst : (∃ row ∈ table, row ≠ []) →
      ∃ first ∈ table, first ≠ [] ∧ width table = first.length := by
    intro hsome
    cases hfind : table.find? (· ≠ []) with
    | none =>
      obtain ⟨row, hrow, hne⟩ := hsome
      exact absurd hne (by simpa using List.find?_eq_none.mp hfind row hrow)
    | some first =>
      refine ⟨first, List.mem_of_find?_eq_some hfind, by simpa using List.find?_some hfind, ?_⟩
      rw [width, hfind]
      rfl
  constructor
  · intro h
    obtain ⟨first, hmem, hne, hwidth⟩ := hfirst h.nonblank
    refine ⟨h.nonblank, fun row hrow => ⟨h.readable row hrow, fun hrow' => ?_⟩⟩
    rw [hwidth]
    exact h.even row hrow first hmem hrow' hne
  · rintro ⟨hsome, hsound⟩
    refine ⟨hsome, fun row hrow => (hsound row hrow).readable, ?_⟩
    intro row hrow other hother hne hne'
    rw [(hsound row hrow).even hne, (hsound other hother).even hne']

end TokenTable

open TokenTable

section Reading

variable {cols number : Nat} {line : List Char} {rest : List (List Char)}

theorem readTokens_of_readable (number : Nat) {row : List (List Char)}
    (h : ∀ token ∈ row, Numeral.read? token ≠ none) :
    ∃ values, row.mapM (readToken number) = .ok values ∧ List.Forall₂ Denotes row values := by
  induction row with
  | nil => exact ⟨[], rfl, .nil⟩
  | cons token row ih =>
    obtain ⟨numeral, hnumeral⟩ := Option.ne_none_iff_exists'.mp (h token List.mem_cons_self)
    obtain ⟨values, hvalues, hdenotes⟩ := ih fun t ht => h t (List.mem_cons_of_mem _ ht)
    refine ⟨numeral.value :: values, ?_, .cons ⟨numeral, hnumeral, rfl⟩ hdenotes⟩
    rw [List.mapM_cons, readToken, hnumeral, hvalues]
    rfl

theorem readTokens_of_unreadable (number : Nat) {before after : List (List Char)}
    {token : List Char} (hbefore : ∀ earlier ∈ before, Numeral.read? earlier ≠ none)
    (htoken : Numeral.read? token = none) :
    (before ++ token :: after).mapM (readToken number) =
      .error (.invalidNumber number (String.ofList token)) := by
  obtain ⟨values, hvalues, _⟩ := readTokens_of_readable number hbefore
  rw [List.mapM_append, hvalues, List.mapM_cons, readToken, htoken]
  rfl

theorem readLines_cons_of_blank (h : tokens line = []) (start : Option Nat) :
    readLines start number (line :: rest) = readLines start (number + 1) rest := by
  rw [readLines, if_pos h]

theorem readLines_cons_of_readRow (h : tokens line ≠ []) {row : List Float}
    (hrow : readRow number line = .ok row) (start : Option Nat) :
    readLines start number (line :: rest) =
      if row.length ≠ start.getD row.length then
        .error (.ragged number (start.getD row.length) row.length)
      else (readLines (some (start.getD row.length)) (number + 1) rest).map (row :: ·) := by
  rw [readLines, if_neg h, hrow]
  split
  next hne =>
    show (if row.length ≠ start.getD row.length then _ else _) = _
    rw [if_pos hne]
    rfl
  next heq =>
    show (if row.length ≠ start.getD row.length then _ else _) = _
    rw [if_neg heq]
    cases readLines (some (start.getD row.length)) (number + 1) rest <;> rfl

theorem readLines_cons_of_error (h : tokens line ≠ []) {e : InputFormatError}
    (hrow : readRow number line = .error e) (start : Option Nat) :
    readLines start number (line :: rest) = .error e := by
  rw [readLines, if_neg h, hrow]
  rfl

theorem readLines_of_sound {lines : List (List Char)}
    (h : ∀ line ∈ lines, Sound cols (tokens line)) :
    ∃ rows, readLines (some cols) number lines = .ok rows ∧ Reads (lines.map tokens) rows ∧
      ∀ row ∈ rows, row.length = cols := by
  induction lines generalizing number with
  | nil => exact ⟨[], rfl, .nil, by simp⟩
  | cons line rest ih =>
    obtain ⟨rows, hrows, hdenotes, heven⟩ := @ih (number + 1) fun other hother =>
      h other (List.mem_cons_of_mem _ hother)
    have hline := h line List.mem_cons_self
    by_cases hblank : tokens line = []
    · refine ⟨rows, ?_, ?_, heven⟩
      · rw [readLines_cons_of_blank hblank, hrows]
      · simpa [Reads, hblank] using hdenotes
    · obtain ⟨row, hrow, hvalues⟩ := readTokens_of_readable number hline.readable
      have hlength : row.length = cols := hvalues.length_eq ▸ hline.even hblank
      refine ⟨row :: rows, ?_, ?_, ?_⟩
      · rw [readLines_cons_of_readRow hblank hrow, Option.getD_some, if_neg (by omega), hrows]
        rfl
      · rw [List.map_cons, Reads, List.filter_cons_of_pos (by simpa using hblank)]
        exact .cons hvalues hdenotes
      · simpa [hlength] using heven

theorem readLines_of_rowFault {e : InputFormatError} (h : RowFault cols number (tokens line) e) :
    readLines (some cols) number (line :: rest) = .error e := by
  cases h with
  | unreadable split leftmost unreadable =>
    have hblank : tokens line ≠ [] := by simp [split]
    refine readLines_cons_of_error hblank ?_ _
    rw [readRow, split]
    exact readTokens_of_unreadable _ leftmost unreadable
  | uneven readable nonblank uneven =>
    obtain ⟨row, hrow, hvalues⟩ := readTokens_of_readable number readable
    have hlength := hvalues.length_eq
    rw [readLines_cons_of_readRow nonblank hrow, Option.getD_some, if_pos (by omega), hlength]

theorem readLines_of_firstFault {lines : List (List Char)} {e : InputFormatError}
    (h : FirstFault cols number (lines.map tokens) e) :
    readLines (some cols) number lines = .error e := by
  induction lines generalizing number with
  | nil =>
    obtain ⟨k, row, hk, _⟩ := h
    simp at hk
  | cons line rest ih =>
    rcases FirstFault.cons_cases h with hfault | ⟨hsound, hrest⟩
    · exact readLines_of_rowFault hfault
    · have hnext := ih hrest
      by_cases hblank : tokens line = []
      · rw [readLines_cons_of_blank hblank, hnext]
      · obtain ⟨row, hrow, hvalues⟩ := readTokens_of_readable number hsound.readable
        have hlength : row.length = cols := hvalues.length_eq ▸ hsound.even hblank
        rw [readLines_cons_of_readRow hblank hrow, Option.getD_some, if_neg (by omega), hnext]
        rfl

/-- Without a width to keep to, the first line that is not blank sets it. -/
theorem readLines_none (number : Nat) (lines : List (List Char)) :
    readLines none number lines = readLines (some (width (lines.map tokens))) number lines := by
  induction lines generalizing number with
  | nil => rfl
  | cons line rest ih =>
    by_cases hblank : tokens line = []
    · rw [readLines_cons_of_blank hblank, readLines_cons_of_blank hblank, ih, List.map_cons, hblank,
        width_nil_cons]
    · rw [List.map_cons, width_cons hblank]
      rcases sound_or_rowFault (tokens line).length number (tokens line) with hsound | ⟨e, hfault⟩
      · obtain ⟨row, hrow, hvalues⟩ := readTokens_of_readable number hsound.readable
        rw [readLines_cons_of_readRow hblank hrow, readLines_cons_of_readRow hblank hrow,
          Option.getD_none, Option.getD_some, hvalues.length_eq]
      · -- the line has its own width, so one of its tokens does not read as a number
        cases hfault with
        | @unreadable before after token split leftmost unreadable =>
          have hrow : readRow number line =
              .error (.invalidNumber number (String.ofList token)) := by
            rw [readRow, split]
            exact readTokens_of_unreadable _ leftmost unreadable
          rw [readLines_cons_of_error hblank hrow, readLines_cons_of_error hblank hrow]
        | uneven _ _ uneven => exact absurd rfl uneven

end Reading

namespace DenseMatrix

variable {text : String} {m : DenseMatrix Float}

/-- The tokens on each line of the text. -/
def tokenTable (text : String) : TokenTable := (lines text.toList).map tokens

theorem readLines_tokenTable_of_firstFault {e : InputFormatError}
    (h : FirstFault (width (tokenTable text)) 1 (tokenTable text) e) :
    readLines none 1 (lines text.toList) = .error e := by
  rw [readLines_none]
  exact readLines_of_firstFault h

theorem ofText_of_firstFault {e : InputFormatError}
    (h : FirstFault (width (tokenTable text)) 1 (tokenTable text) e) : ofText text = .error e := by
  rw [ofText, readLines_tokenTable_of_firstFault h]
  rfl

theorem ofText_of_readLines {rows : List (List Float)}
    (hrows : readLines none 1 (lines text.toList) = .ok rows) :
    ofText text = match ofRows rows with
      | .ok m => .ok m
      | .error _ => .error .empty := by
  rw [ofText, hrows]
  show (match ofRows rows with
    | .ok m => _
    | .error _ => _) = _
  cases ofRows rows <;> rfl

theorem readLines_tokenTable (h : ∀ row ∈ tokenTable text, Sound (width (tokenTable text)) row) :
    ∃ rows, readLines none 1 (lines text.toList) = .ok rows ∧ (tokenTable text).Reads rows ∧
      ∀ row ∈ rows, row.length = width (tokenTable text) := by
  rw [readLines_none]
  exact readLines_of_sound fun line hline => h _ (List.mem_map_of_mem hline)

theorem readLines_of_blank (h : ∀ row ∈ tokenTable text, row = []) :
    readLines none 1 (lines text.toList) = .ok [] := by
  obtain ⟨rows, hrows, hdenotes, _⟩ := readLines_tokenTable fun row hrow => by
    rw [h row hrow]
    exact sound_nil
  have hnone : (tokenTable text).filter (· ≠ []) = [] := by simpa using h
  rw [Reads, hnone, List.forall₂_nil_left_iff] at hdenotes
  rw [hrows, hdenotes]

theorem ofText_of_blank (h : ∀ row ∈ tokenTable text, row = []) : ofText text = .error .empty := by
  rw [ofText_of_readLines (readLines_of_blank h)]
  rfl

theorem readLines_of_isGrid (h : (tokenTable text).IsGrid) :
    ∃ rows, readLines none 1 (lines text.toList) = .ok rows ∧ (tokenTable text).Reads rows ∧
      rows ≠ [] ∧ 0 < width (tokenTable text) ∧
      ∀ row ∈ rows, row.length = width (tokenTable text) := by
  obtain ⟨⟨line, hline, hne⟩, hsound⟩ := isGrid_iff.mp h
  obtain ⟨rows, hrows, hreads, heven⟩ := readLines_tokenTable hsound
  have hsome : 0 < rows.length := by
    rw [← hreads.length_eq]
    exact List.length_pos_of_mem (List.mem_filter.mpr ⟨hline, by simpa using hne⟩)
  refine ⟨rows, hrows, hreads, List.ne_nil_of_length_pos hsome, ?_, heven⟩
  rw [← (hsound line hline).even hne]
  exact List.length_pos_iff.mpr hne

/-- The lines of a grid are read row by row, and the rows stacked. -/
theorem ofText_of_isGrid (h : (tokenTable text).IsGrid) :
    ∃ m, ofText text = .ok m ∧ m.WellFormed ∧ 0 < m.rows ∧ 0 < m.cols ∧
      (tokenTable text).Reads m.toRows := by
  obtain ⟨rows, hrows, hreads, hsome, hwidth, heven⟩ := readLines_of_isGrid h
  refine ⟨stacked (width (tokenTable text)) rows, ?_, stacked_wellFormed heven,
    List.length_pos_iff.mpr hsome, hwidth, ?_⟩
  · rw [ofText_of_readLines hrows, ofRows_eq_stacked hsome hwidth heven]
  · rwa [toRows_stacked heven]

/-- A text is a grid, or blank, or has a first line to refuse. -/
theorem isGrid_or_blank_or_firstFault (table : TokenTable) :
    table.IsGrid ∨ (∀ row ∈ table, row = []) ∨ ∃ e, FirstFault table.width 1 table e := by
  rcases sound_or_firstFault table.width 1 table with hsound | hfault
  · by_cases hblank : ∀ row ∈ table, row = []
    · exact .inr (.inl hblank)
    · refine .inl (isGrid_iff.mpr ⟨?_, hsound⟩)
      simpa using hblank
  · exact .inr (.inr hfault)

/-- What is read as a matrix is a grid, and the matrix is as it should be. -/
theorem ofText_ok (h : ofText text = .ok m) : (tokenTable text).IsGrid ∧ m.WellFormed ∧
    0 < m.rows ∧ 0 < m.cols ∧ (tokenTable text).Reads m.toRows := by
  rcases isGrid_or_blank_or_firstFault (tokenTable text) with hgrid | hblank | ⟨e, hfault⟩
  · obtain ⟨n, hread, hn⟩ := ofText_of_isGrid hgrid
    rw [hread] at h
    cases h
    exact ⟨hgrid, hn⟩
  · rw [ofText_of_blank hblank] at h
    cases h
  · rw [ofText_of_firstFault hfault] at h
    cases h

theorem blank_of_ofText_empty (h : ofText text = .error .empty) :
    ∀ row ∈ tokenTable text, row = [] := by
  rcases isGrid_or_blank_or_firstFault (tokenTable text) with hgrid | hblank | ⟨e, hfault⟩
  · obtain ⟨m, hread, _⟩ := ofText_of_isGrid hgrid
    rw [hread] at h
    cases h
  · exact hblank
  · rw [ofText_of_firstFault hfault] at h
    exact absurd (Except.error.inj h) hfault.ne_empty

theorem firstFault_of_ofText_error {e : InputFormatError} (hne : e ≠ .empty)
    (h : ofText text = .error e) : FirstFault (width (tokenTable text)) 1 (tokenTable text) e := by
  rcases isGrid_or_blank_or_firstFault (tokenTable text) with hgrid | hblank | ⟨_, hfault⟩
  · obtain ⟨m, hread, _⟩ := ofText_of_isGrid hgrid
    rw [hread] at h
    cases h
  · rw [ofText_of_blank hblank] at h
    exact absurd (Except.error.inj h).symm hne
  · rw [ofText_of_firstFault hfault] at h
    cases h
    exact hfault

/-- Rows that were read are as long as the first of them, which is not empty. -/
theorem ofRows_readLines {rows : List (List Float)} {e : ShapeError}
    (hrows : readLines none 1 (lines text.toList) = .ok rows) (h : ofRows rows = .error e) :
    e = .empty := by
  rcases isGrid_or_blank_or_firstFault (tokenTable text) with hgrid | hblank | ⟨_, hfault⟩
  · obtain ⟨_, hrows', _, hsome, hwidth, heven⟩ := readLines_of_isGrid hgrid
    rw [hrows] at hrows'
    cases hrows'
    rw [ofRows_eq_stacked hsome hwidth heven] at h
    cases h
  · rw [readLines_of_blank hblank] at hrows
    cases hrows
    exact (Except.error.inj h).symm
  · rw [readLines_tokenTable_of_firstFault hfault] at hrows
    cases hrows

/-- A grid determines the matrix of its numbers. -/
theorem eq_of_reads {m n : DenseMatrix Float} {table : TokenTable} (hm : m.WellFormed)
    (hn : n.WellFormed) (hrows : 0 < m.rows) (h : table.Reads m.toRows)
    (h' : table.Reads n.toRows) : m = n := by
  have hunique : Relator.RightUnique Denotes := by
    rintro token x y ⟨numeral, hread, rfl⟩ ⟨numeral', hread', rfl⟩
    rw [hread] at hread'
    cases hread'
    rfl
  have htoRows : m.toRows = n.toRows := hunique.forall₂.forall₂ h h'
  have hcols : m.cols = n.cols := by
    have hmem : (List.range m.cols).map (m.entry 0) ∈ m.toRows :=
      List.mem_map_of_mem (List.mem_range.mpr hrows)
    rw [← length_of_mem_toRows hmem]
    exact length_of_mem_toRows (htoRows ▸ hmem)
  rw [← stacked_toRows hm, ← stacked_toRows hn, htoRows, hcols]

theorem ofText_of_reads (hgrid : (tokenTable text).IsGrid) (hm : m.WellFormed)
    (h : (tokenTable text).Reads m.toRows) : ofText text = .ok m := by
  obtain ⟨n, hread, hn, hpos, _, hreads⟩ := ofText_of_isGrid hgrid
  rw [hread, eq_of_reads hn hm hpos hreads h]

/-- A text is read as a matrix exactly if its lines make up a grid, and the matrix then has the
numbers of that grid. Any other text is refused for what comes first in it, unless it is blank.
Stacking the rows that were read fails only if there is none. -/
theorem ofText_grammar (text : String) : ∃ table : TokenTable,
    List.Forall₂ Runs (text.toList.splitOn '\n') table ∧
    ((∃ m, ofText text = .ok m) ↔ table.IsGrid) ∧
    (∀ m, ofText text = .ok m ↔ table.IsGrid ∧ m.WellFormed ∧ table.Reads m.toRows) ∧
    (ofText text = .error .empty ↔ ∀ row ∈ table, row = []) ∧
    (∀ e, e ≠ .empty → (ofText text = .error e ↔ FirstFault table.width 1 table e)) ∧
    ∀ rows e, readLines none 1 (lines text.toList) = .ok rows → ofRows rows = .error e →
      e = .empty := by
  have hruns : List.Forall₂ Runs (text.toList.splitOn '\n') (tokenTable text) := by
    rw [← lines_eq_splitOn, tokenTable, List.forall₂_map_right_iff]
    exact List.forall₂_same.mpr fun line _ => tokens_eq_iff.mp rfl
  refine ⟨tokenTable text, hruns, ⟨?_, fun hgrid => ?_⟩, fun m => ⟨fun h => ?_, ?_⟩,
    ⟨blank_of_ofText_empty, ofText_of_blank⟩,
    fun e hne => ⟨firstFault_of_ofText_error hne, ofText_of_firstFault⟩,
    fun rows e hrows => ofRows_readLines hrows⟩
  · rintro ⟨m, h⟩
    exact (ofText_ok h).1
  · obtain ⟨m, hread, _⟩ := ofText_of_isGrid hgrid
    exact ⟨m, hread⟩
  · obtain ⟨hgrid, hm, _, _, hreads⟩ := ofText_ok h
    exact ⟨hgrid, hm, hreads⟩
  · rintro ⟨hgrid, hm, hreads⟩
    exact ofText_of_reads hgrid hm hreads

/-- The blank line has a number too, and of what is wrong with the last line `x` comes first. -/
example : (match ofText "1 2\n\n3 x y 4" with
    | .ok _ => none
    | .error e => some e) = some (.invalidNumber 3 "x") := by decide

end DenseMatrix

end GaussJordan
