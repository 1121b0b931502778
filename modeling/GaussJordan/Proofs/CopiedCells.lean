import GaussJordan.Proofs.Derivation
import GaussJordan.Transposition

namespace GaussJordan

namespace DenseMatrix

variable {α : Type} {m : DenseMatrix α}

/-- All places of a shape in row-major order. -/
def places (rows cols : Nat) : List (Nat × Nat) :=
  (List.range rows).flatMap fun i => (List.range cols).map fun j => (i, j)

theorem mem_places {rows cols : Nat} {place : Nat × Nat} :
    place ∈ places rows cols ↔ place.1 < rows ∧ place.2 < cols := by
  simp only [places, List.mem_flatMap, List.mem_map, List.mem_range]
  constructor
  · rintro ⟨i, hi, j, hj, rfl⟩
    exact ⟨hi, hj⟩
  · rintro ⟨hi, hj⟩
    exact ⟨place.1, hi, place.2, hj, rfl⟩

def written (m : DenseMatrix α) (row col : Nat) (x : α) : DenseMatrix α :=
  { m with cells := m.cells.setIfInBounds (row * m.cols + col) x }

@[simp] theorem written_rows (row col : Nat) (x : α) : (m.written row col x).rows = m.rows := rfl

@[simp] theorem written_cols (row col : Nat) (x : α) : (m.written row col x).cols = m.cols := rfl

theorem written_wellFormed (hm : m.WellFormed) (row col : Nat) (x : α) :
    (m.written row col x).WellFormed := by
  simpa [WellFormed, written] using hm

theorem write_eq_written {arith : IndexArithmetic} (hm : m.StoredIn arith) {row col : Nat}
    (hr : row < m.rows) (hc : col < m.cols) (x : α) :
    m.write arith row col x = .ok (m.written row col x) := by
  rw [write, hm.product_eq (Nat.le_of_lt hr), bind_ok, hm.sum_eq hr (Nat.le_of_lt hc), bind_ok,
    if_pos (hm.index_lt_size hr hc)]
  rfl

theorem setCell_eq_written (hm : m.WellFormed) {row col : Nat} (hr : row < m.rows)
    (hc : col < m.cols) (x : α) : m.setCell row col x = .ok (m.written row col x) := by
  rw [setCell, if_pos ⟨hr, hc⟩, write_eq_written (.of_wellFormed hm) hr hc]

/-- Two places of a matrix are not at one index. -/
theorem index_eq_iff {cols i j row col : Nat} (hj : j < cols) (hcol : col < cols) :
    i * cols + j = row * cols + col ↔ i = row ∧ j = col := by
  constructor
  · intro h
    have hrow : ∀ {i j : Nat}, j < cols → (i * cols + j) / cols = i := fun hj => by
      rw [Nat.mul_comm, Nat.mul_add_div (by omega), Nat.div_eq_of_lt hj, Nat.add_zero]
    have hi : i = row := by rw [← hrow (i := i) hj, h, hrow hcol]
    subst hi
    exact ⟨rfl, Nat.add_left_cancel h⟩
  · rintro ⟨rfl, rfl⟩
    rfl

end DenseMatrix

variable {α : Type} [Scalar α]

namespace DenseMatrix

theorem entry_written {m : DenseMatrix α} (hm : m.WellFormed) {row col i j : Nat}
    (hi : i < m.rows) (hj : j < m.cols) (hc : col < m.cols) (x : α) :
    (m.written row col x).entry i j = if i = row ∧ j = col then x else m.entry i j := by
  have hindex : i * m.cols + j < m.cells.size := by
    rw [hm]
    exact index_lt hi hj
  rw [entry, written_cols, written, Array.getD_eq_getD_getElem?, Array.getElem?_setIfInBounds]
  split
  next heq =>
    obtain ⟨rfl, rfl⟩ := (index_eq_iff hc hj).mp heq
    simp [hindex]
  next hne =>
    rw [if_neg fun heq => hne ((index_eq_iff hc hj).mpr ⟨heq.1.symm, heq.2.symm⟩)]
    exact (Array.getD_eq_getD_getElem? ..).symm

/-- The operation that copies a cell to its place in the transpose. -/
def copy (m : DenseMatrix α) (place : Nat × Nat) : Operation α :=
  .assign place.1 place.2 (m.entry place.2 place.1)

/-- The operations that write the transpose, cell by cell in row-major order. -/
def copying (m : DenseMatrix α) : List (Operation α) := (places m.cols m.rows).map m.copy

/-- The zero matrix that the transpose is written over. -/
def transpositionSheet (m : DenseMatrix α) : Worksheet α :=
  (Worksheet.start .transposition (.zeros m.cols m.rows)).announce (.transposing m.rows m.cols)

end DenseMatrix

namespace Worksheet

variable {m : DenseMatrix α} {w : Worksheet α}

theorem copyAcross_spec (hm : m.WellFormed) (hw : w.state.WellFormed) {place : Nat × Nat}
    (hrow : place.1 < m.cols) (hcol : place.2 < m.rows) (hr : w.state.rows = m.cols)
    (hc : w.state.cols = m.rows) :
    ∃ w', w.copyAcross m place = .ok w' ∧ w.perform (m.copy place) = .ok w' ∧
      w'.state = w.state.written place.1 place.2 (m.entry place.2 place.1) := by
  have happly : (m.copy place).apply w.state =
      .ok (w.state.written place.1 place.2 (m.entry place.2 place.1)) :=
    DenseMatrix.setCell_eq_written hw (by rwa [hr]) (by rwa [hc]) _
  refine ⟨_, ?_, perform_of_apply happly, rfl⟩
  rw [copyAcross, DenseMatrix.cell_eq_entry hm hcol hrow, bind_ok]
  exact perform_of_apply happly

theorem copyAll_spec (hm : m.WellFormed) {places : List (Nat × Nat)}
    (hin : ∀ place ∈ places, place.1 < m.cols ∧ place.2 < m.rows) (hw : w.state.WellFormed)
    (hr : w.state.rows = m.cols) (hc : w.state.cols = m.rows) :
    ∃ w', places.foldlM (copyAcross m) w = .ok w' ∧ w.performAll (places.map m.copy) = .ok w' := by
  induction places generalizing w with
  | nil => exact ⟨w, rfl, rfl⟩
  | cons place places ih =>
    obtain ⟨hrow, hcol⟩ := hin place List.mem_cons_self
    obtain ⟨v, hcopy, hperform, hstate⟩ := copyAcross_spec hm hw hrow hcol hr hc
    obtain ⟨w', hfold, hall⟩ := ih (w := v) (fun p hp => hin p (List.mem_cons_of_mem _ hp))
      (by rw [hstate]; exact DenseMatrix.written_wellFormed hw _ _ _) (by rwa [hstate])
      (by rwa [hstate])
    refine ⟨w', ?_, ?_⟩
    · rw [List.foldlM_cons, hcopy]
      exact hfold
    · rw [performAll, List.map_cons, List.foldlM_cons, hperform]
      exact hall

end Worksheet

/-- Every matrix can be transposed step by step, and the steps copy its cells in order. -/
theorem DenseMatrix.transposeBySteps_spec {m : DenseMatrix α} (hm : m.WellFormed) :
    ∃ w, m.transposeBySteps = .ok w ∧ m.transpositionSheet.performAll m.copying = .ok w :=
  Worksheet.copyAll_spec hm (fun _ hplace => mem_places.mp hplace) (generate_wellFormed _ _ _)
    rfl rfl

end GaussJordan
