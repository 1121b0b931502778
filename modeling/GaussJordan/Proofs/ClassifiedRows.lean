import GaussJordan.Classification
import GaussJordan.Proofs.Derivation

namespace GaussJordan

theorem mapM_eq_ok {β γ : Type} {f : β → Except Fault γ} {g : β → γ} {xs : List β}
    (h : ∀ x ∈ xs, f x = .ok (g x)) : xs.mapM f = .ok (xs.map g) := by
  induction xs with
  | nil => rfl
  | cons x xs ih =>
    have hx := h x List.mem_cons_self
    have hxs := ih fun y hy => h y (List.mem_cons_of_mem x hy)
    rw [List.mapM_cons, hx, bind_ok, hxs]
    rfl

namespace DenseMatrix

variable {α : Type} [Scalar α] {tolerance : α} {m : DenseMatrix α}

theorem rowSlice_eq (hm : m.WellFormed) {r : Nat} (hr : r < m.rows) :
    (m.cells.extract (r * m.cols) ((r + 1) * m.cols)).toList =
      (List.range m.cols).map fun c => m.entry r c := by
  have hsize : m.cells.size = m.rows * m.cols := hm
  have hend : (r + 1) * m.cols ≤ m.rows * m.cols := Nat.mul_le_mul_right m.cols hr
  have hnext : (r + 1) * m.cols = r * m.cols + m.cols := Nat.succ_mul r m.cols
  apply List.ext_getElem
  · simp only [Array.length_toList, Array.size_extract, List.length_map, List.length_range]
    omega
  · intro c hc hc'
    have hcol : c < m.cols := by simpa using hc'
    have hcell : r * m.cols + c < m.cells.size := by omega
    simp [entry, hcell]

theorem rowSlices_eq_toRows (hm : m.WellFormed) (hc : 0 < m.cols) :
    m.rowSlices = .ok m.toRows := by
  have hcount : (m.cells.size + m.cols - 1) / m.cols = m.rows := by
    have hsize : m.cells.size = m.rows * m.cols := hm
    rw [hsize, Nat.add_sub_assoc hc, Nat.mul_comm, Nat.mul_add_div hc,
      Nat.div_eq_of_lt (by omega), Nat.add_zero]
  rw [rowSlices, if_neg (by omega), hcount, toRows]
  congr 1
  exact List.map_congr_left fun r hr => rowSlice_eq hm (List.mem_range.mp hr)

/-- The coefficients of a row count as zero but its right-hand side does not. -/
def Contradicts (tolerance : α) (m : DenseMatrix α) (r : Nat) : Prop :=
  (∀ c, c < m.cols - 1 → isZero tolerance (m.entry r c) = true) ∧
    isZero tolerance (m.entry r (m.cols - 1)) = false

theorem any_isInconsistent_iff (hc : 0 < m.cols) :
    m.toRows.any (isInconsistent tolerance (m.cols - 1)) = true ↔
      ∃ r, r < m.rows ∧ m.Contradicts tolerance r := by
  obtain ⟨unknowns, hcols⟩ := Nat.exists_eq_succ_of_ne_zero (Nat.ne_of_gt hc)
  have hrow : ∀ r, (List.range m.cols).map (m.entry r) =
      (List.range unknowns).map (m.entry r) ++ [m.entry r unknowns] := by
    intro r
    rw [hcols, List.range_succ, List.map_append]
    rfl
  have hiff : ∀ r, isInconsistent tolerance unknowns ((List.range m.cols).map (m.entry r)) = true ↔
      m.Contradicts tolerance r := by
    intro r
    have hlen : ((List.range unknowns).map (m.entry r)).length = unknowns := by simp
    rw [isInconsistent, hrow, List.take_left' hlen, List.drop_left' hlen, Contradicts, hcols]
    simp
  have hsub : m.cols - 1 = unknowns := by omega
  simp only [hsub, toRows, List.any_map, List.any_eq_true, List.mem_range, Function.comp_apply,
    hiff]

/-- Whether a row has a cell that does not count as zero. -/
def isOccupied (tolerance : α) (m : DenseMatrix α) (r : Nat) : Bool :=
  (List.range m.cols).any fun c => !isZero tolerance (m.entry r c)

theorem isOccupied_iff {r : Nat} : m.isOccupied tolerance r = true ↔
    ∃ c, c < m.cols ∧ isZero tolerance (m.entry r c) = false := by
  simp [isOccupied]

def occupiedFrom (tolerance : α) (m : DenseMatrix α) (start : Nat) : Nat :=
  (List.range' start (m.rows - start)).countP (m.isOccupied tolerance)

theorem rowRank_toRows : rowRank tolerance m.toRows = m.occupiedFrom tolerance 0 := by
  rw [rowRank, toRows, List.countP_map, occupiedFrom, Nat.sub_zero, ← List.range_eq_range']
  apply List.countP_congr
  intro r _
  simp [isOccupied]

theorem occupiedFrom_le (start : Nat) : m.occupiedFrom tolerance start ≤ m.rows - start := by
  have h := List.countP_le_length (p := m.isOccupied tolerance)
    (l := List.range' start (m.rows - start))
  rwa [List.length_range'] at h

theorem occupiedFrom_eq_add {n : Nat} (hn : n ≤ m.rows)
    (h : ∀ r, r < n → m.isOccupied tolerance r = true) :
    m.occupiedFrom tolerance 0 = n + m.occupiedFrom tolerance n := by
  have hsplit : List.range' 0 (m.rows - 0) = List.range' 0 n ++ List.range' n (m.rows - n) := by
    have happend := List.range'_append_1 (s := 0) (m := n) (n := m.rows - n)
    rw [Nat.zero_add] at happend
    rw [happend]
    congr 1
    omega
  have hfirst : (List.range' 0 n).countP (m.isOccupied tolerance) = n := by
    have hall := List.countP_eq_length.mpr fun r (hr : r ∈ List.range' 0 n) => by
      have hlt := (List.mem_range'_1.mp hr).2
      exact h r (by omega)
    rwa [List.length_range'] at hall
  rw [occupiedFrom, hsplit, List.countP_append, hfirst, occupiedFrom]

theorem classify_of_contradiction (hm : m.WellFormed) (hc : 0 < m.cols)
    (h : ∃ r, r < m.rows ∧ m.Contradicts tolerance r) :
    m.classify tolerance = .ok (.noSolution, .inconsistent (m.cols - 1)) := by
  have hany := (any_isInconsistent_iff hc).mpr h
  have hne : m.cols ≠ 0 := by omega
  simp only [classify, hne, ↓reduceIte, rowSlices_eq_toRows hm hc, bind_ok, hany]
  rfl

theorem classify_of_few_rows (hm : m.WellFormed) (hc : 0 < m.cols)
    (h : ¬∃ r, r < m.rows ∧ m.Contradicts tolerance r)
    (hfew : m.occupiedFrom tolerance 0 < m.cols - 1) :
    m.classify tolerance = .ok (.infinite,
      .underdetermined (m.occupiedFrom tolerance 0) (m.cols - 1)) := by
  have hany := mt (any_isInconsistent_iff hc).mp h
  have hne : m.cols ≠ 0 := by omega
  simp only [classify, hne, ↓reduceIte, rowSlices_eq_toRows hm hc, bind_ok, hany, rowRank_toRows,
    hfew]
  rfl

/-- The values of the variables, each read off the row of the same number. -/
def valuesReadOff (m : DenseMatrix α) : List α :=
  (List.range (m.cols - 1)).map fun i => m.entry i (m.cols - 1)

@[simp] theorem length_valuesReadOff (m : DenseMatrix α) :
    m.valuesReadOff.length = m.cols - 1 := by
  simp [valuesReadOff]

theorem classify_of_enough_rows (hm : m.WellFormed) (hc : 0 < m.cols)
    (h : ¬∃ r, r < m.rows ∧ m.Contradicts tolerance r)
    (henough : m.cols - 1 ≤ m.occupiedFrom tolerance 0) :
    m.classify tolerance = .ok (.unique m.valuesReadOff, .unique m.valuesReadOff) := by
  have hany := mt (any_isInconsistent_iff hc).mp h
  have hne : m.cols ≠ 0 := by omega
  have hnot : ¬m.occupiedFrom tolerance 0 < m.cols - 1 := by omega
  have hvalues : (List.range (m.cols - 1)).mapM (fun i => m.cell i (m.cols - 1)) =
      .ok m.valuesReadOff := by
    refine mapM_eq_ok fun i hi => cell_eq_entry hm ?_ (by omega)
    -- there are at least as many rows as occupied ones
    have hle : m.occupiedFrom tolerance 0 ≤ m.rows - 0 := occupiedFrom_le 0
    have hlt := List.mem_range.mp hi
    omega
  simp only [classify, hne, ↓reduceIte, rowSlices_eq_toRows hm hc, bind_ok, hany, rowRank_toRows,
    hnot, hvalues]
  rfl

end DenseMatrix

end GaussJordan
