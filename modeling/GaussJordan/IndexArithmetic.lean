import GaussJordan.Fault

namespace GaussJordan

/-- How the sizes of matrices and the indices of their cells are computed. -/
inductive IndexArithmetic where
  /-- With numbers of any size. -/
  | unbounded
  /-- With words: a number that reaches the limit is a fault. -/
  | checked (limit : Nat)
  /-- With words: a number that reaches the limit is reduced modulo the limit. -/
  | wrapping (limit : Nat)
deriving DecidableEq

namespace IndexArithmetic

/-- What becomes of a number that has been computed. -/
def hold (arith : IndexArithmetic) (n : Nat) : Except Fault Nat :=
  match arith with
  | .unbounded => .ok n
  | .checked limit => if n < limit then .ok n else .error (.overflow n)
  | .wrapping limit => .ok (n % limit)

def product (arith : IndexArithmetic) (a b : Nat) : Except Fault Nat := arith.hold (a * b)

def sum (arith : IndexArithmetic) (a b : Nat) : Except Fault Nat := arith.hold (a + b)

/-- The number stays as it is. -/
def Holds (arith : IndexArithmetic) (n : Nat) : Prop := arith.hold n = .ok n

variable {arith : IndexArithmetic} {limit n k : Nat}

theorem holds_unbounded (n : Nat) : unbounded.Holds n := rfl

theorem holds_checked_iff : (checked limit).Holds n ↔ n < limit := by
  simp [Holds, hold]

theorem holds_wrapping_of_lt (h : n < limit) : (wrapping limit).Holds n :=
  congrArg Except.ok (Nat.mod_eq_of_lt h)

/-- With a number, all smaller ones stay as they are. -/
theorem Holds.mono (h : arith.Holds n) (hk : k ≤ n) : arith.Holds k := by
  cases arith with
  | unbounded => exact holds_unbounded k
  | checked limit => exact holds_checked_iff.mpr (Nat.lt_of_le_of_lt hk (holds_checked_iff.mp h))
  | wrapping limit =>
    have hmod : n % limit = n := Except.ok.inj h
    rcases Nat.eq_zero_or_pos limit with rfl | hpos
    · exact congrArg Except.ok (Nat.mod_zero k)
    · have hlt : n < limit := hmod ▸ Nat.mod_lt n hpos
      exact holds_wrapping_of_lt (Nat.lt_of_le_of_lt hk hlt)

/-- Only an arithmetic that wraps gives a number in the place of another. -/
theorem holds_of_hold (h : arith.hold n = .ok k)
    (hfit : ∀ limit, arith = .wrapping limit → n < limit) : arith.Holds n := by
  cases arith with
  | unbounded => exact holds_unbounded n
  | checked limit =>
    unfold hold at h
    dsimp only at h
    split at h
    next hlt => exact holds_checked_iff.mpr hlt
    next => cases h
  | wrapping limit => exact holds_wrapping_of_lt (hfit limit rfl)

end IndexArithmetic

end GaussJordan
