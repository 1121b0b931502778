import GaussJordan.DenseMatrix

namespace GaussJordan

namespace DenseMatrix

variable {α : Type} [Scalar α]

/-- Exchanges two rows. A row with itself needs no exchange, even if it does not exist. -/
def swapRows (m : DenseMatrix α) (a b : Nat) : Except Fault (DenseMatrix α) :=
  if a = b ∨ m.cols = 0 then .ok m
  else if m.rows ≤ a then .error (.noRow a)
  else if m.rows ≤ b then .error (.noRow b)
  else .ok (generate m.rows m.cols fun r c =>
    m.entry (if r = a then b else if r = b then a else r) c)

def scaleRow (m : DenseMatrix α) (target : Nat) (divisor : α) : Except Fault (DenseMatrix α) :=
  if m.cols = 0 then .ok m
  else if m.rows ≤ target then .error (.noRow target)
  else .ok (generate m.rows m.cols fun r c =>
    if r = target then m.entry r c / divisor else m.entry r c)

/-- Subtracts `factor` times the source row from the target row. -/
def subtractScaledRow (m : DenseMatrix α) (target source : Nat) (factor : α) :
    Except Fault (DenseMatrix α) :=
  if m.cols = 0 then .ok m
  else if m.rows ≤ source then .error (.noRow source)
  else if m.rows ≤ target then .error (.noRow target)
  else .ok (generate m.rows m.cols fun r c =>
    if r = target then m.entry r c - factor * m.entry source c else m.entry r c)

variable {m n : DenseMatrix α}

/-- An operation on rows keeps the matrix or writes all of its cells anew. -/
theorem swapRows_cases {a b : Nat} (h : m.swapRows a b = .ok n) :
    (n = m ∧ (a = b ∨ m.cols = 0)) ∨ a < m.rows ∧ b < m.rows ∧
      n = generate m.rows m.cols fun r c =>
        m.entry (if r = a then b else if r = b then a else r) c := by
  unfold swapRows at h
  split at h
  next hk =>
    cases h
    exact .inl ⟨rfl, hk⟩
  next =>
    split at h
    next => cases h
    next ha =>
      split at h
      next => cases h
      next hb =>
        cases h
        exact .inr ⟨Nat.lt_of_not_le ha, Nat.lt_of_not_le hb, rfl⟩

theorem scaleRow_cases {target : Nat} {divisor : α} (h : m.scaleRow target divisor = .ok n) :
    (n = m ∧ m.cols = 0) ∨ target < m.rows ∧ n = generate m.rows m.cols fun r c =>
      if r = target then m.entry r c / divisor else m.entry r c := by
  unfold scaleRow at h
  split at h
  next hk =>
    cases h
    exact .inl ⟨rfl, hk⟩
  next =>
    split at h
    next => cases h
    next ht =>
      cases h
      exact .inr ⟨Nat.lt_of_not_le ht, rfl⟩

theorem subtractScaledRow_cases {target source : Nat} {factor : α}
    (h : m.subtractScaledRow target source factor = .ok n) :
    (n = m ∧ m.cols = 0) ∨ source < m.rows ∧ target < m.rows ∧
      n = generate m.rows m.cols fun r c =>
        if r = target then m.entry r c - factor * m.entry source c else m.entry r c := by
  unfold subtractScaledRow at h
  split at h
  next hk =>
    cases h
    exact .inl ⟨rfl, hk⟩
  next =>
    split at h
    next => cases h
    next hs =>
      split at h
      next => cases h
      next ht =>
        cases h
        exact .inr ⟨Nat.lt_of_not_le hs, Nat.lt_of_not_le ht, rfl⟩

theorem entry_of_swapRows {a b : Nat} (h : m.swapRows a b = .ok n) {r c : Nat}
    (hr : r < m.rows) (hc : c < m.cols) :
    n.entry r c = m.entry (if r = a then b else if r = b then a else r) c := by
  rcases swapRows_cases h with ⟨he, hk⟩ | ⟨_, _, he⟩
  · have hab : a = b := hk.resolve_right (by omega)
    subst he hab
    split
    next hra => rw [hra]
    next => rfl
  · rw [he, entry_generate _ hr hc]

theorem entry_of_scaleRow {target : Nat} {divisor : α} (h : m.scaleRow target divisor = .ok n)
    {r c : Nat} (hr : r < m.rows) (hc : c < m.cols) :
    n.entry r c = if r = target then m.entry r c / divisor else m.entry r c := by
  rcases scaleRow_cases h with ⟨_, hk⟩ | ⟨_, he⟩
  · omega
  · rw [he, entry_generate _ hr hc]

theorem entry_of_subtractScaledRow {target source : Nat} {factor : α}
    (h : m.subtractScaledRow target source factor = .ok n) {r c : Nat} (hr : r < m.rows)
    (hc : c < m.cols) : n.entry r c =
      if r = target then m.entry r c - factor * m.entry source c else m.entry r c := by
  rcases subtractScaledRow_cases h with ⟨_, hk⟩ | ⟨_, _, he⟩
  · omega
  · rw [he, entry_generate _ hr hc]

end DenseMatrix

end GaussJordan
