import GaussJordan.DenseMatrix

namespace GaussJordan

namespace DenseMatrix

variable {α : Type}

theorem getElem?_flatten {rows : List (List α)} {cols r c : Nat}
    (h : ∀ row ∈ rows, row.length = cols) (hc : c < cols) :
    rows.flatten[r * cols + c]? = rows[r]?.bind fun row => row[c]? := by
  induction rows generalizing r with
  | nil => simp
  | cons row rows ih =>
    have hlength := h row List.mem_cons_self
    rw [List.flatten_cons]
    cases r with
    | zero =>
      rw [Nat.zero_mul, Nat.zero_add, List.getElem?_append_left (by omega)]
      rfl
    | succ r =>
      have hnext : (r + 1) * cols + c - row.length = r * cols + c := by
        rw [Nat.succ_mul, hlength]
        omega
      rw [List.getElem?_append_right (by rw [Nat.succ_mul]; omega), hnext,
        ih fun row hrow => h row (List.mem_cons_of_mem _ hrow)]
      rfl

/-- The matrix with the given rows, which must all be as long as it is wide. -/
def stacked (cols : Nat) (rows : List (List α)) : DenseMatrix α :=
  ⟨rows.length, cols, rows.flatten.toArray⟩

theorem stacked_wellFormed {cols : Nat} {rows : List (List α)}
    (h : ∀ row ∈ rows, row.length = cols) : (stacked cols rows).WellFormed := by
  unfold WellFormed stacked
  rw [List.size_toArray, List.length_flatten, List.map_congr_left h, List.map_const',
    List.sum_replicate_nat]

theorem ofRows_eq_stacked {cols : Nat} {rows : List (List α)} (hrows : rows ≠ [])
    (hcols : 0 < cols) (h : ∀ row ∈ rows, row.length = cols) :
    ofRows rows = .ok (stacked cols rows) := by
  obtain ⟨first, rest, rfl⟩ := List.exists_cons_of_ne_nil hrows
  have hfirst := h first List.mem_cons_self
  have heven : (first :: rest).findIdx? (fun line => line.length != cols) = none := by
    rw [List.findIdx?_eq_none_iff]
    intro row hrow
    simp [h row hrow]
  simp only [ofRows, hfirst, heven, Nat.ne_of_gt hcols, if_false]
  rfl

/-- Rows that make a matrix are all as long as it is wide. -/
theorem ofRows_eq_ok {rows : List (List α)} {m : DenseMatrix α} (h : ofRows rows = .ok m) :
    m = stacked m.cols rows ∧ ∀ row ∈ rows, row.length = m.cols := by
  unfold ofRows at h
  split at h
  next => cases h
  next first rest =>
    dsimp only at h
    split at h
    next => cases h
    next =>
      split at h
      next => cases h
      next hnone =>
        cases h
        rw [List.findIdx?_eq_none_iff] at hnone
        exact ⟨rfl, fun row hrow => by simpa using hnone row hrow⟩

theorem ofRows_wellFormed {rows : List (List α)} {m : DenseMatrix α} (h : ofRows rows = .ok m) :
    m.WellFormed := by
  obtain ⟨hm, heven⟩ := ofRows_eq_ok h
  rw [hm]
  exact stacked_wellFormed heven

variable [Scalar α]

theorem length_toRows (m : DenseMatrix α) : m.toRows.length = m.rows := by simp [toRows]

theorem length_of_mem_toRows {m : DenseMatrix α} {row : List α} (h : row ∈ m.toRows) :
    row.length = m.cols := by
  obtain ⟨r, _, rfl⟩ := List.mem_map.mp h
  simp

theorem getElem?_toRows {m : DenseMatrix α} {r c : Nat} (hr : r < m.rows) (hc : c < m.cols) :
    (m.toRows[r]?.bind fun row => row[c]?) = some (m.entry r c) := by
  simp [toRows, hr, hc]

theorem toRows_stacked {cols : Nat} {rows : List (List α)} (h : ∀ row ∈ rows, row.length = cols) :
    (stacked cols rows).toRows = rows := by
  unfold toRows
  apply List.ext_getElem
  · simp [stacked]
  · intro r hr hr'
    have hlength := h rows[r] (List.getElem_mem hr')
    apply List.ext_getElem
    · simp [stacked, hlength]
    · intro c hc hc'
      have hcell := getElem?_flatten (r := r) (c := c) h (by omega)
      rw [List.getElem?_eq_getElem hr', Option.bind_some, List.getElem?_eq_getElem hc'] at hcell
      simp [entry, stacked, Array.getD_eq_getD_getElem?, hcell]

theorem stacked_toRows {m : DenseMatrix α} (hm : m.WellFormed) : stacked m.cols m.toRows = m := by
  have heven : ∀ row ∈ m.toRows, row.length = m.cols := fun row => length_of_mem_toRows
  have hrows : (stacked m.cols m.toRows).rows = m.rows := by simp [stacked, toRows]
  refine ext_entry (stacked_wellFormed heven) hm hrows rfl fun r c hr hc => ?_
  have hcell := getElem?_toRows hr hc
  rw [toRows_stacked heven, getElem?_toRows (m := m) (by omega) hc] at hcell
  exact (Option.some.inj hcell).symm

end DenseMatrix

end GaussJordan
