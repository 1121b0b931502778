import GaussJordan.Binary64
import Mathlib

namespace GaussJordan

namespace Binary64

section Packing

open Float.Model (Format)
open Float.Model.UnpackedFloat

/-- The fields of a word other than the sign are its remainder. -/
theorem toNat_mod_signBit (b : BitVec Format.binary64.numBits) : b.toNat % signBit =
    (unpackExponent b).toNat * binade + (unpackMantissa b).toNat := by
  have hb : b.toNat < 2 ^ 64 := b.isLt
  simp [unpackExponent, unpackMantissa, signBit, binade, Nat.shiftRight_eq_div_pow]
  omega

/-- The payload of what is no number lies above infinity. -/
theorem not_isNaNBits {b : BitVec Format.binary64.numBits}
    (h : b.toNat % signBit ≤ infinityPattern) : ¬isNaNBits b := by
  rw [isNaNBits, decide_eq_true_iff]
  rintro ⟨hmax, hpayload⟩
  apply hpayload
  apply BitVec.eq_of_toNat_eq
  rw [toNat_mod_signBit, hmax] at h
  change 2047 * binade + (unpackMantissa b).toNat ≤ 2047 * binade at h
  change (unpackMantissa b).toNat = 0
  omega

end Packing

/-- A word is read back from the double it makes, unless it stands for no number. -/
theorem toBits_ofBits {b : UInt64} (h : b.toNat % signBit ≤ infinityPattern) :
    (Float.ofBits b).toBits = b := by
  apply UInt64.toBitVec_inj.mp
  have hpack := @Float.Model.UnpackedFloat.pack_unpack .binary64 b.toBitVec (by decide)
  rwa [if_neg (not_isNaNBits h)] at hpack

/-- A double holds the sign and the magnitude it was assembled from. -/
theorem datum_assemble (negative : Bool) {pattern : Nat} (h : pattern ≤ infinityPattern) :
    datum (assemble negative pattern) =
      if pattern = infinityPattern then .infinity negative
      else .finite negative (units pattern) := by
  have hinfinity : infinityPattern < signBit := by decide
  have hword : 2 * signBit = UInt64.size := rfl
  have hbits : (assemble negative pattern).toBits.toNat =
      if negative then signBit + pattern else pattern := by
    have hvalue : (UInt64.ofNat (if negative then signBit + pattern else pattern)).toNat =
        if negative then signBit + pattern else pattern := by
      refine UInt64.toNat_ofNat_of_lt ?_
      split <;> omega
    rw [assemble, toBits_ofBits, hvalue]
    rw [hvalue]
    cases negative with
    | false => simpa using Nat.le_trans (Nat.mod_le _ _) h
    | true => simpa using Nat.le_trans (Nat.mod_le _ _) h
  have hpattern : (assemble negative pattern).toBits.toNat % signBit = pattern := by
    rw [hbits]
    cases negative with
    | false => simpa using Nat.mod_eq_of_lt (by omega)
    | true => simpa using Nat.mod_eq_of_lt (by omega)
  have hsign : decide (signBit ≤ (assemble negative pattern).toBits.toNat) = negative := by
    rw [hbits]
    cases negative with
    | false => simpa using by omega
    | true => simp
  unfold datum
  dsimp only
  rw [hpattern, hsign, if_neg (by omega)]

theorem datum_nan : datum (0.0 / 0.0) = .nan := by decide

/-- Every double is what its datum says: no number, an infinity, or one of the finite patterns. -/
theorem datum_cases (x : Float) : datum x = .nan ∨ (∃ negative, datum x = .infinity negative) ∨
    ∃ negative pattern, pattern < infinityPattern ∧ datum x = .finite negative (units pattern) := by
  unfold datum
  dsimp only
  split
  next => exact .inl rfl
  next hle =>
    split
    next => exact .inr (.inl ⟨_, rfl⟩)
    next hne => exact .inr (.inr ⟨_, _, by omega, rfl⟩)

end Binary64

end GaussJordan
