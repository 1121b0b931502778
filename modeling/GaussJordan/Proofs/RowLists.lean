import GaussJordan.Proofs.StackedRows

namespace GaussJordan

section Rows

variable {α : Type} {rows : List (List α)} {cols : Nat}

/-- There is a row, and all rows have one length, which is not zero. -/
structure Rectangular (cols : Nat) (rows : List (List α)) : Prop where
  rows_ne_nil : rows ≠ []
  cols_pos : 0 < cols
  even : ∀ row ∈ rows, row.length = cols

/-- The first row is not empty, and row `r` is the first that is not as long. -/
structure FirstUneven (rows : List (List α)) (r expected found : Nat) : Prop where
  expected_pos : 0 < expected
  first : rows.head?.map List.length = some expected
  uneven : rows[r]?.map List.length = some found
  found_ne : found ≠ expected
  even_before : ∀ i, i < r → rows[i]?.map List.length = some expected

/-- There is no row, or the first is empty. -/
def StartsEmpty (rows : List (List α)) : Prop := rows = [] ∨ rows.head? = some []

theorem Rectangular.not_startsEmpty (h : Rectangular cols rows) : ¬StartsEmpty rows := by
  rintro (hnil | hfirst)
  · exact h.rows_ne_nil hnil
  · have hlength := h.even [] (List.mem_of_mem_head? hfirst)
    have hpos := h.cols_pos
    rw [← hlength] at hpos
    exact absurd hpos (Nat.lt_irrefl 0)

theorem Rectangular.first (h : Rectangular cols rows) : rows.head?.map List.length = some cols := by
  obtain ⟨row, rest, rfl⟩ := List.exists_cons_of_ne_nil h.rows_ne_nil
  exact congrArg some (h.even row List.mem_cons_self)

namespace FirstUneven

variable {r expected found r' expected' found' : Nat}

theorem not_startsEmpty (h : FirstUneven rows r expected found) : ¬StartsEmpty rows := by
  have hfirst := h.first
  have hpos := h.expected_pos
  rintro (rfl | hempty)
  · cases hfirst
  · rw [hempty] at hfirst
    cases hfirst
    exact absurd hpos (Nat.lt_irrefl 0)

theorem not_rectangular (h : FirstUneven rows r expected found) : ¬Rectangular cols rows := by
  intro heven
  obtain ⟨row, hrow, hfound⟩ := Option.map_eq_some_iff.mp h.uneven
  have hcols : expected = cols := Option.some.inj (h.first.symm.trans heven.first)
  have hlength := heven.even row (List.mem_of_getElem? hrow)
  exact h.found_ne (by omega)

theorem not_lt (h : FirstUneven rows r expected found) (h' : FirstUneven rows r' expected found') :
    ¬r < r' := by
  intro hlt
  have heven := h'.even_before r hlt
  rw [h.uneven] at heven
  exact h.found_ne (Option.some.inj heven)

theorem unique (h : FirstUneven rows r expected found)
    (h' : FirstUneven rows r' expected' found') :
    r = r' ∧ expected = expected' ∧ found = found' := by
  obtain rfl : expected = expected' := Option.some.inj (h.first.symm.trans h'.first)
  have hle := h.not_lt h'
  have hge := h'.not_lt h
  obtain rfl : r = r' := by omega
  exact ⟨rfl, rfl, Option.some.inj (h.uneven.symm.trans h'.uneven)⟩

end FirstUneven

end Rows

namespace DenseMatrix

variable {α : Type} {rows : List (List α)}

/-- What can come of rows, and when it does. -/
theorem ofRows_cases (rows : List (List α)) :
    (ofRows rows = .error .empty ∧ StartsEmpty rows) ∨
    (∃ r expected found, ofRows rows = .error (.ragged r expected found) ∧
      FirstUneven rows r expected found) ∨
    ∃ cols, ofRows rows = .ok (stacked cols rows) ∧ Rectangular cols rows := by
  cases rows with
  | nil => exact .inl ⟨rfl, .inl rfl⟩
  | cons first rest =>
    rcases Nat.eq_zero_or_pos first.length with hzero | hpos
    · obtain rfl := List.length_eq_zero_iff.mp hzero
      exact .inl ⟨rfl, .inr rfl⟩
    · cases hfind : (first :: rest).findIdx? fun line => line.length != first.length with
      | none =>
        rw [List.findIdx?_eq_none_iff] at hfind
        have heven : Rectangular first.length (first :: rest) :=
          ⟨List.cons_ne_nil _ _, hpos, fun row hrow => by simpa using hfind row hrow⟩
        exact .inr (.inr ⟨_, ofRows_eq_stacked heven.rows_ne_nil hpos heven.even, heven⟩)
      | some r =>
        obtain ⟨hr, hne, hbefore⟩ := List.findIdx?_eq_some_iff_getElem.mp hfind
        refine .inr (.inl ⟨r, first.length, ((first :: rest)[r]).length, ?_, hpos, rfl, ?_, ?_, ?_⟩)
        · simp [ofRows, hfind, Nat.ne_of_gt hpos, List.getElem?_eq_getElem hr]
        · rw [List.getElem?_eq_getElem hr, Option.map_some]
        · simpa using hne
        · intro i hi
          have heven := hbefore i hi
          rw [List.getElem?_eq_getElem (by omega), Option.map_some]
          simpa using heven

theorem rectangular_of_ofRows {m : DenseMatrix α} (h : ofRows rows = .ok m) :
    Rectangular m.cols rows := by
  rcases ofRows_cases rows with ⟨hrun, _⟩ | ⟨_, _, _, hrun, _⟩ | ⟨cols, hrun, heven⟩
  · rw [hrun] at h
    cases h
  · rw [hrun] at h
    cases h
  · obtain rfl : stacked cols rows = m := Except.ok.inj (hrun.symm.trans h)
    exact heven

theorem length_of_ofRows {m : DenseMatrix α} (h : ofRows rows = .ok m) :
    m.rows = rows.length := by
  rw [(ofRows_eq_ok h).1, stacked]

theorem exists_ofRows_eq_ok_iff :
    (∃ m, ofRows rows = .ok m) ↔ ∃ cols, Rectangular cols rows := by
  constructor
  · rintro ⟨m, h⟩
    exact ⟨m.cols, rectangular_of_ofRows h⟩
  · rintro ⟨cols, heven⟩
    exact ⟨_, ofRows_eq_stacked heven.rows_ne_nil heven.cols_pos heven.even⟩

theorem ofRows_eq_empty_iff : ofRows rows = .error .empty ↔ StartsEmpty rows := by
  rcases ofRows_cases rows with ⟨h, hempty⟩ | ⟨r, expected, found, h, huneven⟩ | ⟨cols, h, heven⟩
  · exact iff_of_true h hempty
  · exact iff_of_false (by simp [h]) huneven.not_startsEmpty
  · exact iff_of_false (by simp [h]) heven.not_startsEmpty

theorem ofRows_eq_ragged_iff {r expected found : Nat} :
    ofRows rows = .error (.ragged r expected found) ↔ FirstUneven rows r expected found := by
  rcases ofRows_cases rows with ⟨h, hempty⟩ | ⟨r', expected', found', h, huneven⟩ | ⟨cols, h, heven⟩
  · exact iff_of_false (by simp [h]) fun huneven => huneven.not_startsEmpty hempty
  · rw [h]
    constructor
    · intro heq
      cases heq
      exact huneven
    · intro hother
      obtain ⟨rfl, rfl, rfl⟩ := huneven.unique hother
      rfl
  · exact iff_of_false (by simp [h]) fun huneven => huneven.not_rectangular heven

variable [Scalar α]

/-- A matrix comes of rows if it has a cell and they are its rows. -/
theorem ofRows_eq_ok_iff {m : DenseMatrix α} : ofRows rows = .ok m ↔
    m.WellFormed ∧ 0 < m.rows ∧ 0 < m.cols ∧ m.toRows = rows := by
  constructor
  · intro h
    have heven := rectangular_of_ofRows h
    have hpos := List.length_pos_iff.mpr heven.rows_ne_nil
    refine ⟨ofRows_wellFormed h, length_of_ofRows h ▸ hpos, heven.cols_pos, ?_⟩
    rw [(ofRows_eq_ok h).1, toRows_stacked heven.even]
  · rintro ⟨hm, hr, hc, rfl⟩
    have hne : m.toRows ≠ [] := List.ne_nil_of_length_pos (by simpa [toRows] using hr)
    rw [ofRows_eq_stacked hne hc fun row => length_of_mem_toRows, stacked_toRows hm]

/-- To build a matrix from rows and to list its rows undo each other, between the matrices with a
cell and the rows of one length. What is wrong with other rows is told. -/
theorem ofRows_inverts_toRows (rows : List (List α)) :
    ((∃ m, ofRows rows = .ok m) ↔ ∃ cols, Rectangular cols rows) ∧
    (∀ m, ofRows rows = .ok m → m.rows = rows.length ∧ Rectangular m.cols rows) ∧
    (∀ m, ofRows rows = .ok m ↔ m.WellFormed ∧ 0 < m.rows ∧ 0 < m.cols ∧ m.toRows = rows) ∧
    (ofRows rows = .error .empty ↔ StartsEmpty rows) ∧
    (∀ r expected found, ofRows rows = .error (.ragged r expected found) ↔
      FirstUneven rows r expected found) ∧
    ∀ error, ofRows rows = .error error →
      StartsEmpty rows ∨ ∃ r expected found, FirstUneven rows r expected found := by
  refine ⟨exists_ofRows_eq_ok_iff, fun m h => ⟨length_of_ofRows h, rectangular_of_ofRows h⟩,
    fun m => ofRows_eq_ok_iff, ofRows_eq_empty_iff,
    fun r expected found => ofRows_eq_ragged_iff, ?_⟩
  intro error h
  rcases ofRows_cases rows with ⟨_, hempty⟩ | ⟨r, expected, found, _, huneven⟩ | ⟨cols, hrun, _⟩
  · exact .inl hempty
  · exact .inr ⟨r, expected, found, huneven⟩
  · rw [hrun] at h
    cases h

end DenseMatrix

end GaussJordan
