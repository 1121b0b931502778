import GaussJordan.Proofs.Derivation
import GaussJordan.Reduction

namespace GaussJordan

variable {α : Type} [Scalar α]

namespace DenseMatrix

variable {m : DenseMatrix α}

theorem eq_generate {f : Nat → Nat → α} (hm : m.WellFormed)
    (h : ∀ r c, r < m.rows → c < m.cols → m.entry r c = f r c) :
    m = generate m.rows m.cols f := by
  refine ext_entry hm (generate_wellFormed _ _ _) rfl rfl ?_
  intro r c hr hc
  rw [entry_generate _ hr hc, h r c hr hc]

theorem generate_congr {rows cols : Nat} {f g : Nat → Nat → α}
    (h : ∀ r c, r < rows → c < cols → f r c = g r c) :
    generate rows cols f = generate rows cols g := by
  refine eq_generate (generate_wellFormed _ _ _) fun r c hr hc => ?_
  exact (entry_generate f hr hc).trans (h r c hr hc)

def exchanged (m : DenseMatrix α) (a b : Nat) : DenseMatrix α :=
  generate m.rows m.cols fun r c => m.entry (if r = a then b else if r = b then a else r) c

/-- The matrix with a row divided by its cell in `col`, and that column cleared with the divided
row from the targets only. -/
def cleared (m : DenseMatrix α) (row col : Nat) (targets : List Nat) : DenseMatrix α :=
  generate m.rows m.cols fun r c =>
    if r = row then m.entry row c / m.entry row col
    else if r ∈ targets then m.entry r c - m.entry r col * (m.entry row c / m.entry row col)
    else m.entry r c

@[simp] theorem exchanged_rows (a b : Nat) : (m.exchanged a b).rows = m.rows := rfl

@[simp] theorem exchanged_cols (a b : Nat) : (m.exchanged a b).cols = m.cols := rfl

@[simp] theorem cleared_rows (row col : Nat) (targets : List Nat) :
    (m.cleared row col targets).rows = m.rows := rfl

@[simp] theorem cleared_cols (row col : Nat) (targets : List Nat) :
    (m.cleared row col targets).cols = m.cols := rfl

theorem exchanged_wellFormed (a b : Nat) : (m.exchanged a b).WellFormed :=
  generate_wellFormed _ _ _

theorem cleared_wellFormed (row col : Nat) (targets : List Nat) :
    (m.cleared row col targets).WellFormed := generate_wellFormed _ _ _

theorem entry_exchanged {r c : Nat} (hr : r < m.rows) (hc : c < m.cols) (a b : Nat) :
    (m.exchanged a b).entry r c = m.entry (if r = a then b else if r = b then a else r) c :=
  entry_generate _ hr hc

theorem entry_cleared {r c : Nat} (hr : r < m.rows) (hc : c < m.cols) (row col : Nat)
    (targets : List Nat) : (m.cleared row col targets).entry r c =
      if r = row then m.entry row c / m.entry row col
      else if r ∈ targets then m.entry r c - m.entry r col * (m.entry row c / m.entry row col)
      else m.entry r c :=
  entry_generate _ hr hc

theorem exchanged_self (hm : m.WellFormed) (a : Nat) : m.exchanged a a = m := by
  refine (eq_generate hm ?_).symm
  intro r c _ _
  split
  next h => rw [h]
  next => rfl

theorem swapRows_eq_exchanged (hm : m.WellFormed) {a b : Nat} (ha : a < m.rows)
    (hb : b < m.rows) : m.swapRows a b = .ok (m.exchanged a b) := by
  unfold swapRows
  split
  next h =>
    rcases h with h | h
    · rw [← h, exchanged_self hm]
    · have hm' : m = m.exchanged a b := eq_generate hm fun r c _ hc => by omega
      rw [← hm']
  next =>
    rw [if_neg (by omega), if_neg (by omega)]
    rfl

theorem scaleRow_eq_cleared (hm : m.WellFormed) {row : Nat} (hr : row < m.rows) (col : Nat) :
    m.scaleRow row (m.entry row col) = .ok (m.cleared row col []) := by
  unfold scaleRow
  split
  next h =>
    have hm' : m = m.cleared row col [] := eq_generate hm fun r c _ hc => by omega
    rw [← hm']
  next =>
    rw [if_neg (by omega)]
    congr 1
    refine generate_congr fun r c _ _ => ?_
    split
    next h => rw [h]
    next => simp

/-- The row a column is cleared with and the targets still to come have not changed yet. -/
theorem subtractScaledRow_cleared {row target : Nat} (hr : row < m.rows) (ht : target < m.rows)
    (hne : target ≠ row) {targets : List Nat} (hnew : target ∉ targets) (col : Nat) :
    (m.cleared row col targets).subtractScaledRow target row (m.entry target col) =
      .ok (m.cleared row col (targets ++ [target])) := by
  unfold subtractScaledRow
  by_cases h : (m.cleared row col targets).cols = 0
  · rw [if_pos h]
    rw [cleared_cols] at h
    congr 1
    exact generate_congr fun r c _ hc => by omega
  · rw [if_neg h, if_neg (by rw [cleared_rows]; omega), if_neg (by rw [cleared_rows]; omega)]
    congr 1
    refine generate_congr fun r c hrr hc => ?_
    rw [cleared_rows] at hrr
    rw [cleared_cols] at hc
    rw [entry_cleared hrr hc, entry_cleared hr hc]
    by_cases h : r = target
    · subst h
      simp [hne, hnew]
    · simp [h]

def otherRows (rows row : Nat) : List Nat := (List.range rows).filter (· ≠ row)

theorem mem_otherRows {rows row k : Nat} : k ∈ otherRows rows row ↔ k < rows ∧ k ≠ row := by
  simp [otherRows]

theorem otherRows_nodup (rows row : Nat) : (otherRows rows row).Nodup :=
  List.nodup_range.filter _

/-- The operations that make the cell at a row and a column one and the rest of the column zero.
No target is changed before its turn, so the factors stand in the matrix from the start. -/
def clearing (m : DenseMatrix α) (row col : Nat) : List (Operation α) :=
  .scale row (m.entry row col) ::
    (otherRows m.rows row).map fun k => .eliminate k row (m.entry k col)

/-- The operations that bring a pivot up to its row and clear its column. -/
def pivoting (m : DenseMatrix α) (row found col : Nat) : List (Operation α) :=
  (if found = row then [] else [.swap row found]) ++ (m.exchanged row found).clearing row col

theorem mem_pivoting_cases {row found col : Nat} {op : Operation α}
    (h : op ∈ m.pivoting row found col) : op = .swap row found ∨
      op = .scale row ((m.exchanged row found).entry row col) ∨
      ∃ k, k < m.rows ∧ k ≠ row ∧
        op = .eliminate k row ((m.exchanged row found).entry k col) := by
  rcases List.mem_append.mp h with hswap | hclear
  · split at hswap
    next => simp at hswap
    next => exact .inl (List.mem_singleton.mp hswap)
  · rcases List.mem_cons.mp hclear with hscale | heliminate
    · exact .inr (.inl hscale)
    · obtain ⟨k, hk, rfl⟩ := List.mem_map.mp heliminate
      obtain ⟨hlt, hne⟩ := mem_otherRows.mp hk
      exact .inr (.inr ⟨k, hlt, hne, rfl⟩)

def pivoted (m : DenseMatrix α) (row found col : Nat) : DenseMatrix α :=
  (m.exchanged row found).cleared row col (otherRows m.rows row)

@[simp] theorem pivoted_rows (row found col : Nat) : (m.pivoted row found col).rows = m.rows := rfl

@[simp] theorem pivoted_cols (row found col : Nat) : (m.pivoted row found col).cols = m.cols := rfl

theorem pivoted_wellFormed (row found col : Nat) : (m.pivoted row found col).WellFormed :=
  generate_wellFormed _ _ _

theorem entry_pivoted {r c row col : Nat} (hr : r < m.rows) (hc : c < m.cols)
    (hrow : row < m.rows) (hcol : col < m.cols) (found : Nat) :
    (m.pivoted row found col).entry r c =
      if r = row then m.entry found c / m.entry found col
      else m.entry (if r = found then row else r) c -
        m.entry (if r = found then row else r) col * (m.entry found c / m.entry found col) := by
  have hr' : r < (m.exchanged row found).rows := hr
  have hc' : c < (m.exchanged row found).cols := hc
  rw [pivoted, entry_cleared hr' hc', entry_exchanged hrow hc, entry_exchanged hrow hcol]
  by_cases h : r = row
  · simp [h]
  · rw [if_neg h, if_neg h, if_pos (mem_otherRows.mpr ⟨hr, h⟩), entry_exchanged hr hc,
      entry_exchanged hr hcol]
    simp [h]

end DenseMatrix

namespace Worksheet

variable {w : Worksheet α}

theorem clearTargets_spec {m : DenseMatrix α} {row col : Nat} (hr : row < m.rows)
    (hc : col < m.cols) {done targets : List Nat} (hnodup : (done ++ targets).Nodup)
    (hin : ∀ k ∈ targets, k < m.rows ∧ k ≠ row) (hw : w.state = m.cleared row col done) :
    ∃ w', targets.foldlM (clearTarget row col) w = .ok w' ∧
      w.performAll (targets.map fun k => .eliminate k row (m.entry k col)) = .ok w' ∧
      w'.state = m.cleared row col (done ++ targets) := by
  induction targets generalizing w done with
  | nil => exact ⟨w, rfl, rfl, by simpa using hw⟩
  | cons k targets ih =>
    obtain ⟨hk, hne⟩ := hin k List.mem_cons_self
    have hnew : k ∉ done := fun h =>
      (List.nodup_append.mp hnodup).2.2 k h k List.mem_cons_self rfl
    have hfactor : w.state.cell k col = .ok (m.entry k col) := by
      rw [hw, DenseMatrix.cell_eq_entry (DenseMatrix.cleared_wellFormed _ _ _) hk hc,
        DenseMatrix.entry_cleared hk hc]
      simp [hne, hnew]
    have happly : (Operation.eliminate k row (m.entry k col)).apply w.state =
        .ok (m.cleared row col (done ++ [k])) := by
      rw [hw]
      exact DenseMatrix.subtractScaledRow_cleared hr hk hne hnew col
    obtain ⟨v, hv, hvs⟩ : ∃ v, w.perform (.eliminate k row (m.entry k col)) = .ok v ∧
        v.state = m.cleared row col (done ++ [k]) := ⟨_, perform_of_apply happly, rfl⟩
    have happend : done ++ k :: targets = done ++ [k] ++ targets := by simp
    obtain ⟨w', hfold, hall, hstate⟩ := ih (by rwa [happend] at hnodup)
      (fun j hj => hin j (List.mem_cons_of_mem _ hj)) hvs
    refine ⟨w', ?_, ?_, by rw [hstate, happend]⟩
    · simpa [clearTarget, hfactor, hv] using hfold
    · rw [performAll, List.map_cons, List.foldlM_cons, hv]
      exact hall

theorem clearColumn_spec (hw : w.state.WellFormed) {row col : Nat} (hr : row < w.state.rows)
    (hc : col < w.state.cols) :
    ∃ w', w.clearColumn row col = .ok w' ∧
      w.performAll (w.state.clearing row col) = .ok w' ∧
      w'.state = w.state.cleared row col (DenseMatrix.otherRows w.state.rows row) := by
  obtain ⟨v, hv, hvs⟩ : ∃ v, w.perform (.scale row (w.state.entry row col)) = .ok v ∧
      v.state = w.state.cleared row col [] :=
    ⟨_, perform_of_apply (DenseMatrix.scaleRow_eq_cleared hw hr col), rfl⟩
  have hnodup : ([] ++ DenseMatrix.otherRows w.state.rows row).Nodup :=
    DenseMatrix.otherRows_nodup _ _
  obtain ⟨w', hfold, hall, hstate⟩ := clearTargets_spec hr hc hnodup
    (fun k hk => DenseMatrix.mem_otherRows.mp hk) hvs
  refine ⟨w', ?_, ?_, by simpa using hstate⟩
  · have hrows : v.state.rows = w.state.rows := by rw [hvs, DenseMatrix.cleared_rows]
    simp only [clearColumn, DenseMatrix.cell_eq_entry hw hr hc, bind_ok, hv, hrows]
    exact hfold
  · rw [DenseMatrix.clearing, performAll, List.foldlM_cons, hv]
    exact hall

/-- Taking a pivot succeeds, performs the operations of `pivoting` and ends in `pivoted`. -/
theorem takePivot_spec (hw : w.state.WellFormed) {row found col : Nat} (hr : row < w.state.rows)
    (hf : found < w.state.rows) (hc : col < w.state.cols) :
    ∃ w', w.takePivot row found col = .ok w' ∧
      w.performAll (w.state.pivoting row found col) = .ok w' ∧
      w'.state = w.state.pivoted row found col := by
  by_cases h : found = row
  · subst h
    obtain ⟨w', htake, hall, hstate⟩ := clearColumn_spec hw hr hc
    refine ⟨w', ?_, ?_, ?_⟩
    · simpa [takePivot] using htake
    · simpa [DenseMatrix.pivoting, DenseMatrix.exchanged_self hw] using hall
    · rw [hstate, DenseMatrix.pivoted, DenseMatrix.exchanged_self hw]
  · obtain ⟨v, hv, hvs⟩ : ∃ v, w.perform (.swap row found) = .ok v ∧
        v.state = w.state.exchanged row found :=
      ⟨_, perform_of_apply (DenseMatrix.swapRows_eq_exchanged hw hr hf), rfl⟩
    have hvw : v.state.WellFormed := by
      rw [hvs]
      exact DenseMatrix.exchanged_wellFormed _ _
    obtain ⟨w', htake, hall, hstate⟩ := clearColumn_spec hvw
      (show row < v.state.rows by rwa [hvs]) (show col < v.state.cols by rwa [hvs])
    rw [hvs] at hall hstate
    refine ⟨w', ?_, ?_, hstate⟩
    · simpa [takePivot, h, hv] using htake
    · rw [DenseMatrix.pivoting, if_neg h, List.singleton_append, performAll, List.foldlM_cons, hv]
      exact hall

end Worksheet

end GaussJordan
