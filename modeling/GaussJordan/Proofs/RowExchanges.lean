import GaussJordan.Proofs.ReductionRun

namespace GaussJordan

def Operation.isExchange {α : Type} : Operation α → Bool
  | .swap _ _ => true
  | _ => false

/-- The number of steps that exchange rows. -/
def TraceLog.exchanges {α : Type} (log : TraceLog α) : Nat :=
  log.operations.countP Operation.isExchange

/-- The number of pivots that the search found below the row they were for. -/
def foundBelow (answers : List (Nat × Nat)) : Nat :=
  answers.zipIdx.countP fun (answer, row) => answer.1 != row

@[simp] theorem foundBelow_nil : foundBelow [] = 0 := rfl

theorem foundBelow_append (answers : List (Nat × Nat)) (found col : Nat) :
    foundBelow (answers ++ [(found, col)]) =
      foundBelow answers + if found = answers.length then 0 else 1 := by
  rw [foundBelow, List.zipIdx_append, List.countP_append]
  simp [foundBelow]

theorem foundBelow_eq_zero_iff {answers : List (Nat × Nat)} : foundBelow answers = 0 ↔
    ∀ (i : Nat) answer, answers[i]? = some answer → answer.1 = i := by
  simp only [foundBelow, List.countP_eq_zero, Bool.not_eq_true, bne_eq_false_iff_eq]
  constructor
  · intro h i answer hi
    exact h (answer, i) (List.mem_zipIdx_iff_getElem?.mpr hi)
  · intro h place hplace
    exact h place.2 place.1 (List.mem_zipIdx_iff_getElem?.mp hplace)

variable {α : Type} [Scalar α] {tolerance : α}

namespace DenseMatrix

variable {m : DenseMatrix α} {row : Nat}

theorem length_otherRows {rows : Nat} (h : row < rows) : (otherRows rows row).length + 1 = rows := by
  have herase : (List.range rows).erase row = otherRows rows row := by
    rw [List.nodup_range.erase_eq_filter]
    exact List.filter_congr fun k _ => Bool.eq_iff_iff.mpr (by simp)
  rw [← herase, List.length_erase_of_mem (List.mem_range.mpr h), List.length_range]
  omega

theorem length_clearing (h : row < m.rows) (col : Nat) : (m.clearing row col).length = m.rows := by
  rw [clearing, List.length_cons, List.length_map, length_otherRows h]

theorem countP_isExchange_clearing (row col : Nat) :
    (m.clearing row col).countP Operation.isExchange = 0 := by
  simp [clearing, Operation.isExchange]

/-- A pivot takes one step for each row, and one more to bring it up. -/
theorem length_pivoting (h : row < m.rows) (found col : Nat) :
    (m.pivoting row found col).length = m.rows + if found = row then 0 else 1 := by
  rw [pivoting, List.length_append, length_clearing (m := m.exchanged row found) h, Nat.add_comm]
  split <;> rfl

theorem countP_isExchange_pivoting (row found col : Nat) :
    (m.pivoting row found col).countP Operation.isExchange = if found = row then 0 else 1 := by
  rw [pivoting, List.countP_append, countP_isExchange_clearing]
  split <;> rfl

end DenseMatrix

theorem PivotReach.exchanges {first w : Worksheet α} {answers : List (Nat × Nat)}
    (hfirst : first.state.WellFormed) (reach : PivotReach tolerance first answers w) :
    ∃ ops, first.performAll ops = .ok w ∧
      ops.countP Operation.isExchange = foundBelow answers ∧
      ops.length = answers.length * first.state.rows + foundBelow answers := by
  obtain ⟨_, ops, hall, hcount, hlength⟩ := reach.invariant hfirst
    (P := fun answers _ ops => ops.countP Operation.isExchange = foundBelow answers ∧
      ops.length = answers.length * first.state.rows + foundBelow answers)
    ⟨rfl, by simp⟩
    (by
      rintro answers m ops found col _ hrows _ room _ ⟨hcount, hlength⟩
      rw [foundBelow_append]
      constructor
      · rw [List.countP_append, hcount, DenseMatrix.countP_isExchange_pivoting]
      · rw [List.length_append, hlength, DenseMatrix.length_pivoting room, hrows,
          List.length_append, List.length_singleton, Nat.succ_mul]
        omega)
  exact ⟨ops, hall, hcount, hlength⟩

/-- A reduction exchanges rows once for each pivot found below its row, and records one step for
each row and each pivot besides. -/
theorem PivotReach.reduction_counts {m : DenseMatrix α} {w : Worksheet α}
    {answers : List (Nat × Nat)} (hm : m.WellFormed)
    (reach : PivotReach tolerance (reductionSheet m) answers w) :
    w.log.exchanges = foundBelow answers ∧
      w.log.size = answers.length * m.rows + foundBelow answers := by
  obtain ⟨ops, hall, hcount, hlength⟩ := reach.exchanges hm
  have hops : w.log.operations = ops := Worksheet.operations_of_performAll hall
  refine ⟨by rw [TraceLog.exchanges, hops, hcount], ?_⟩
  have hsize : w.log.operations.length = w.log.size := by
    simp [TraceLog.operations, TraceLog.size]
  rw [← hsize, hops, hlength]
  rfl

end GaussJordan
