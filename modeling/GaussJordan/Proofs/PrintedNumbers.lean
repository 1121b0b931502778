import GaussJordan.Blank
import GaussJordan.Numeral
import GaussJordan.Proofs.DoubleBits
import GaussJordan.Proofs.NearestDouble
import Mathlib.Data.List.TakeWhile

namespace GaussJordan

section Digits

variable {n places : Nat}

theorem isDigit_of_mem_leftpad {c : Char} (h : c ∈ (Nat.toDigits 10 n).leftpad places '0') :
    c.isDigit = true := by
  unfold List.leftpad at h
  rcases List.mem_append.mp h with hzero | hdigit
  · obtain ⟨_, rfl⟩ := List.mem_replicate.mp hzero
    decide
  · exact Nat.isDigit_of_mem_toDigits (by decide) (by decide) hdigit

theorem length_leftpad_toDigits (h : n < 10 ^ places) (hplaces : 0 < places) :
    ((Nat.toDigits 10 n).leftpad places '0').length = places := by
  have hlength := (Nat.length_toDigits_le_iff (b := 10) (by decide) hplaces).mpr h
  rw [List.length_leftpad]
  omega

/-- Leading zeros count for nothing. -/
theorem ofDigitChars_leftpad :
    Nat.ofDigitChars 10 ((Nat.toDigits 10 n).leftpad places '0') 0 = n := by
  unfold List.leftpad
  rw [Nat.ofDigitChars_append, Nat.ofDigitChars_replicate_zero, Nat.mul_zero,
    Nat.ofDigitChars_ten_toDigits]

end Digits

namespace Numeral

/-- The digits of a fixed-point text, read back, give the number they were written for. -/
theorem decimal?_fixedDigits (places scaled : Nat) :
    decimal? (fixedDigits places scaled) = some (.decimal scaled (-places)) := by
  have hdigit : ∀ n, ∀ c ∈ Nat.toDigits 10 n, c.isDigit = true := fun n c hc =>
    Nat.isDigit_of_mem_toDigits (by decide) (by decide) hc
  have hall : ∀ n, (Nat.toDigits 10 n).takeWhile Char.isDigit = Nat.toDigits 10 n := fun n =>
    List.takeWhile_eq_self_iff.mpr (hdigit n)
  unfold decimal? fixedDigits
  rcases Nat.eq_zero_or_pos places with rfl | hplaces
  · have hnone : (Nat.toDigits 10 scaled).dropWhile Char.isDigit = [] :=
      List.dropWhile_eq_nil_iff.mpr (hdigit scaled)
    simp [hall, hnone, fraction, exponent?]
  · have hpos : 0 < 10 ^ places := Nat.pow_pos (by decide)
    have hdecimals : ∀ c ∈ (Nat.toDigits 10 (scaled % 10 ^ places)).leftpad places '0',
        c.isDigit = true := fun c hc => isDigit_of_mem_leftpad hc
    have hlength := length_leftpad_toDigits (Nat.mod_lt scaled hpos) hplaces
    have hvalue := @ofDigitChars_leftpad (scaled % 10 ^ places) places
    simp only [Nat.pow_eq, show places ≠ 0 by omega, if_false]
    generalize (Nat.toDigits 10 (scaled % 10 ^ places)).leftpad places '0' = decimals at *
    have hpoint : Char.isDigit '.' = false := by decide
    rw [List.takeWhile_append_of_pos (hdigit _), List.dropWhile_append_of_pos (hdigit _)]
    have hread :
        Nat.ofDigitChars 10 (Nat.toDigits 10 (scaled / 10 ^ places) ++ decimals) 0 = scaled := by
      rw [Nat.ofDigitChars_append, Nat.ofDigitChars_ten_toDigits,
        Nat.ofDigitChars_eq_ofDigitChars_zero, hlength, hvalue, Nat.div_add_mod]
    have htake := List.takeWhile_eq_self_iff.mpr hdecimals
    have hdrop := List.dropWhile_eq_nil_iff.mpr hdecimals
    simp [hpoint, fraction, htake, hdrop, exponent?, hread, hlength]

theorem fixedDigits_eq_cons (places scaled : Nat) :
    ∃ c rest, fixedDigits places scaled = c :: rest ∧ c.isDigit = true := by
  obtain ⟨c, rest, hwhole⟩ := List.exists_cons_of_ne_nil
    (Nat.toDigits_ne_nil (b := 10) (n := scaled / 10 ^ places))
  have hc : c.isDigit = true :=
    Nat.isDigit_of_mem_toDigits (by decide) (by decide) (hwhole ▸ List.mem_cons_self)
  unfold fixedDigits
  dsimp only
  rw [Nat.pow_eq, hwhole]
  split
  next => exact ⟨c, rest, rfl, hc⟩
  next => exact ⟨c, _, rfl, hc⟩

theorem mem_fixedDigits {places scaled : Nat} {c : Char} (h : c ∈ fixedDigits places scaled) :
    c.isDigit = true ∨ c = '.' := by
  have hdigit : ∀ n, c ∈ Nat.toDigits 10 n → c.isDigit = true := fun n hc =>
    Nat.isDigit_of_mem_toDigits (by decide) (by decide) hc
  unfold fixedDigits at h
  dsimp only at h
  split at h
  next => exact .inl (hdigit _ h)
  next =>
    rcases List.mem_append.mp h with h | h
    · exact .inl (hdigit _ h)
    · rcases List.mem_cons.mp h with h | h
      · exact .inr h
      · exact .inl (isDigit_of_mem_leftpad h)

theorem magnitude?_fixedDigits (places scaled : Nat) :
    magnitude? (fixedDigits places scaled) = some (.decimal scaled (-places)) := by
  obtain ⟨c, rest, hcons, hc⟩ := fixedDigits_eq_cons places scaled
  -- a digit starts none of the words
  have hle : c.val ≤ '9'.val := of_decide_eq_true (Bool.and_eq_true_iff.mp hc).2
  have hupper : ¬(c.val ≥ 'A'.val ∧ c.val ≤ 'Z'.val) := fun h =>
    absurd (UInt32.le_trans h.1 hle) (by decide)
  have hlower : c.toLower = c := dif_neg hupper
  have hword : ∀ d word, d.isDigit = false →
      (fixedDigits places scaled).map Char.toLower ≠ d :: word := by
    intro d word hd heq
    rw [hcons, List.map_cons, List.cons.injEq, hlower] at heq
    rw [← heq.1, hc] at hd
    cases hd
  unfold magnitude?
  dsimp only
  rw [if_neg (hword _ _ (by decide)), if_neg, decimal?_fixedDigits]
  rintro (heq | heq) <;> exact hword _ _ (by decide) heq

/-- What a double is printed as. -/
def printed (places : Nat) (x : Float) : Numeral :=
  match Binary64.datum x with
  | .nan => ⟨false, .nan⟩
  | .infinity negative => ⟨negative, .infinity⟩
  | .finite negative n =>
    ⟨negative, .decimal (roundHalfEven (n * Nat.pow 10 places) Binary64.unitsInOne) (-places)⟩

theorem signed_fixedDigits (places scaled : Nat) :
    signed (fixedDigits places scaled) = (false, fixedDigits places scaled) := by
  obtain ⟨c, rest, hcons, hc⟩ := fixedDigits_eq_cons places scaled
  rw [hcons]
  unfold signed
  split
  next heq =>
    cases heq
    exact absurd hc (by decide)
  next heq =>
    cases heq
    exact absurd hc (by decide)
  next => rfl

theorem read?_fixedText (places : Nat) (x : Float) :
    read? (Binary64.fixedText places x).toList = some (printed places x) := by
  unfold Binary64.fixedText printed
  cases Binary64.datum x with
  | nan =>
    show read? "NaN".toList = some ⟨false, .nan⟩
    decide
  | infinity negative =>
    show read? (if negative then "-inf" else "inf").toList = some ⟨negative, .infinity⟩
    revert negative
    decide
  | finite negative n =>
    dsimp only
    unfold fixedFraction
    dsimp only
    generalize roundHalfEven (n * Nat.pow 10 places) Binary64.unitsInOne = scaled
    rw [String.toList_ofList]
    cases negative with
    | true => simp [read?, signed, magnitude?_fixedDigits]
    | false => simp [read?, signed_fixedDigits, magnitude?_fixedDigits]

end Numeral

namespace Binary64

/-- A number less than half of the least positive double has the pattern of zero for its nearest. -/
theorem nearestPattern_eq_zero {num den : Nat} (h : 2 * (num * unitsInOne) < den) :
    nearestPattern num den = 0 := by
  have hquotient : num * unitsInOne / den = 0 := Nat.div_eq_of_lt (by omega)
  have hrounded : roundHalfEven (num * unitsInOne) den = 0 := by
    have hrest : num * unitsInOne % den = num * unitsInOne := Nat.mod_eq_of_lt (by omega)
    unfold roundHalfEven
    rw [hquotient, hrest]
    simp
    omega
  simp [nearestPattern, hquotient, hrounded]

theorem two_mul_lt_of_log2 {coefficient places : Nat}
    (h : coefficient.log2 + 1081 < 3 * places) : 2 * (coefficient * unitsInOne) < 10 ^ places := by
  obtain ⟨one, hunits, hone⟩ : ∃ one, unitsInOne = 1 <<< one ∧ one = 1074 := ⟨_, rfl, rfl⟩
  rw [hunits, Nat.one_shiftLeft]
  calc 2 * (coefficient * 2 ^ one)
      < 2 * (2 ^ (coefficient.log2 + 1) * 2 ^ one) := by
        have hpow := Nat.mul_lt_mul_of_pos_right (@Nat.lt_log2_self coefficient)
          (Nat.two_pow_pos one)
        omega
    _ = 2 ^ (coefficient.log2 + 1 + one + 1) := by rw [← Nat.pow_add, ← Nat.pow_succ']
    _ ≤ 2 ^ (3 * places) := Nat.pow_le_pow_right (by decide) (by omega)
    _ = 8 ^ places := Nat.pow_mul 2 3 places
    _ ≤ 10 ^ places := Nat.pow_le_pow_left (by decide) places

/-- Where a power of ten is not computed, the nearest double is zero all the same. -/
theorem ofDecimal_neg (negative : Bool) (coefficient places : Nat) :
    ofDecimal negative coefficient (-places) =
      assemble negative (nearestPattern coefficient (10 ^ places)) := by
  cases places with
  | zero =>
    show (if coefficient = 0 then assemble negative 0
      else if 310 ≤ 0 then assemble negative infinityPattern
      else nearest negative (coefficient * Nat.pow 10 0) 1) = _
    split
    next hzero => rw [hzero, nearestPattern_eq_zero (by simp)]
    next hsome => simp [nearest]
  | succ e =>
    show (if coefficient.log2 + 1081 < 3 * (e + 1) then assemble negative 0
      else nearest negative coefficient (Nat.pow 10 (e + 1))) = _
    split
    next hsmall => rw [nearestPattern_eq_zero (two_mul_lt_of_log2 hsmall)]
    next => rfl

theorem fixedText_ne_nil (places : Nat) (x : Float) : (fixedText places x).toList ≠ [] := by
  intro hnil
  have hread := Numeral.read?_fixedText places x
  have hnone : Numeral.read? [] = none := by decide
  rw [hnil, hnone] at hread
  cases hread

theorem isBlank_eq_false {c : Char} (hlow : 0x20 < c.toNat) (hhigh : c.toNat < 0x80) :
    isBlank c = false := by
  simp [isBlank, blankRanges]
  omega

/-- A number is printed in one piece. -/
theorem not_isBlank_of_mem_fixedText {places : Nat} {x : Float} {c : Char}
    (h : c ∈ (fixedText places x).toList) : isBlank c = false := by
  unfold fixedText at h
  cases hdatum : datum x with
  | nan =>
    rw [hdatum] at h
    have hword : ("NaN".toList.all fun c => !isBlank c) = true := by decide
    simpa using List.all_eq_true.mp hword c h
  | infinity negative =>
    rw [hdatum] at h
    have hword : ((if negative then "-inf" else "inf").toList.all fun c => !isBlank c) = true := by
      cases negative <;> decide
    simpa using List.all_eq_true.mp hword c h
  | finite negative n =>
    rw [hdatum] at h
    dsimp only at h
    unfold fixedFraction at h
    dsimp only at h
    rw [String.toList_ofList] at h
    have hdigits : ∀ c ∈ fixedDigits places (roundHalfEven (n * Nat.pow 10 places) unitsInOne),
        isBlank c = false := fun c hc => by
      rcases Numeral.mem_fixedDigits hc with hdigit | rfl
      · obtain ⟨hlow, hhigh⟩ := Char.isDigit_iff_toNat.mp hdigit
        exact isBlank_eq_false (Nat.lt_of_lt_of_le (by decide) hlow)
          (Nat.lt_of_le_of_lt hhigh (by decide))
      · decide
    cases negative with
    | false => exact hdigits c h
    | true =>
      rcases List.mem_cons.mp h with rfl | h
      · decide
      · exact hdigits c h

/-- What a double is printed as stands for a double that is printed the same. -/
theorem fixedText_value_printed (places : Nat) (x : Float) :
    fixedText places (Numeral.printed places x).value = fixedText places x := by
  unfold Numeral.printed
  rcases datum_cases x with hnan | ⟨negative, hinfinity⟩ | ⟨negative, pattern, hlt, hfinite⟩
  · have hvalue : datum (Numeral.value ⟨false, .nan⟩) = .nan := datum_nan
    simp only [fixedText, hnan, hvalue]
  · have hvalue : datum (Numeral.value ⟨negative, .infinity⟩) = .infinity negative := by
      show datum (assemble negative infinityPattern) = .infinity negative
      rw [datum_assemble negative (Nat.le_refl _), if_pos rfl]
    simp only [fixedText, hinfinity, hvalue]
  · -- the text is read as the double nearest to it, whose own decimals are those of the text
    have hpos : 0 < 10 ^ places := Nat.pow_pos (by decide)
    obtain ⟨hfinite', hagain⟩ := roundHalfEven_nearestPattern hlt hpos
    rw [hfinite]
    dsimp only [Numeral.value]
    rw [ofDecimal_neg, Nat.pow_eq, fixedText, datum_assemble _ (Nat.le_of_lt hfinite'),
      if_neg (Nat.ne_of_lt hfinite')]
    simp only [fixedText, hfinite, fixedFraction, Nat.pow_eq, hagain]

end Binary64

end GaussJordan
