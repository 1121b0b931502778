import GaussJordan.Binary64
import Mathlib.Data.Nat.Dist
import Mathlib.Tactic.Ring

namespace GaussJordan

section Rounding

variable {num den : Nat}

/-- Twice the distance to the rounded number is at most the unit, and exactly the unit only if the
number was halfway between two, of which the even one is taken. -/
theorem dist_roundHalfEven (num : Nat) (hd : 0 < den) :
    2 * Nat.dist num (roundHalfEven num den * den) ≤ den ∧
      (2 * Nat.dist num (roundHalfEven num den * den) = den → roundHalfEven num den % 2 = 0) := by
  have hs := Nat.div_add_mod num den
  have hr := Nat.mod_lt num hd
  rw [Nat.mul_comm] at hs
  unfold roundHalfEven Nat.dist
  dsimp only
  split
  next hup =>
    rw [Nat.succ_mul (num / den) den]
    omega
  next hdown => omega

/-- Two different multiples of a number are at least that number apart. -/
theorem le_dist_mul {a b : Nat} (h : a ≠ b) (den : Nat) : den ≤ Nat.dist (a * den) (b * den) := by
  rw [Nat.dist_mul_right]
  have hpos : 0 < Nat.dist a b := Nat.dist_pos_of_ne h
  exact Nat.le_mul_of_pos_left den hpos

theorem roundHalfEven_nearest (num : Nat) (hd : 0 < den) (k : Nat) :
    Nat.dist num (roundHalfEven num den * den) ≤ Nat.dist num (k * den) := by
  by_cases h : roundHalfEven num den = k
  · rw [h]
  · have hnear := (dist_roundHalfEven num hd).1
    have hfar := le_dist_mul h den
    have htri := Nat.dist.triangle_inequality (roundHalfEven num den * den) num (k * den)
    rw [Nat.dist_comm (roundHalfEven num den * den) num] at htri
    omega

/-- What is at most half a unit away, and even if it is exactly that far, is the rounded number. -/
theorem roundHalfEven_eq {k : Nat} (hd : 0 < den) (hnear : 2 * Nat.dist num (k * den) ≤ den)
    (htie : 2 * Nat.dist num (k * den) = den → k % 2 = 0) : roundHalfEven num den = k := by
  obtain ⟨hnear', htie'⟩ := dist_roundHalfEven num hd
  generalize roundHalfEven num den = r at *
  by_contra hne
  have hfar := le_dist_mul hne den
  have htri := Nat.dist.triangle_inequality (r * den) num (k * den)
  rw [Nat.dist_comm (r * den) num] at htri
  -- both are half a unit away, so they are neighbours and one of them is odd
  have hr := htie' (by omega)
  have hk := htie (by omega)
  have hgap : Nat.dist (r * den) (k * den) ≤ den := by omega
  rw [Nat.dist_mul_right] at hgap
  have hone : Nat.dist r k ≤ 1 := Nat.le_of_mul_le_mul_right (by omega) hd
  unfold Nat.dist at hone
  omega

/-- A number no further from a rounded one than the number that was rounded is rounded to the same:
if both are halfway, the tie goes the same way again. -/
theorem roundHalfEven_of_dist_le {a b : Nat} (hd : 0 < den)
    (h : Nat.dist b (roundHalfEven a den * den) ≤ Nat.dist a (roundHalfEven a den * den)) :
    roundHalfEven b den = roundHalfEven a den := by
  obtain ⟨hnear, htie⟩ := dist_roundHalfEven a hd
  exact roundHalfEven_eq hd (by omega) fun heq => htie (by omega)

theorem roundHalfEven_le {k : Nat} (hd : 0 < den) (h : num ≤ k * den) :
    roundHalfEven num den ≤ k := by
  have hnear := (dist_roundHalfEven num hd).1
  by_contra hgt
  have hmul := Nat.mul_le_mul_right den (Nat.lt_of_not_le hgt)
  rw [Nat.succ_mul] at hmul
  unfold Nat.dist at hnear
  omega

theorem le_roundHalfEven {k : Nat} (hd : 0 < den) (h : k * den ≤ num) :
    k ≤ roundHalfEven num den := by
  have hnear := (dist_roundHalfEven num hd).1
  by_contra hlt
  have hmul := Nat.mul_le_mul_right den (Nat.lt_of_not_le hlt)
  rw [Nat.succ_mul] at hmul
  unfold Nat.dist at hnear
  omega

end Rounding

namespace Binary64

theorem units_add {further r : Nat}
    (h : further = 0 ∧ r ≤ 2 * binade ∨ binade ≤ r ∧ r ≤ 2 * binade) :
    units (further * binade + r) = r * 2 ^ further := by
  have hpos : 0 < binade := by decide
  -- the exponent field counts the further bits and how often `binade` fits into `r`
  have split : ∀ carry rest, rest < binade → r = carry * binade + rest →
      (further * binade + r) / binade = further + carry ∧
        (further * binade + r) % binade = rest := by
    intro carry rest hrest hr
    have hsum : further * binade + r = rest + binade * (further + carry) := by
      rw [hr, Nat.mul_add, Nat.mul_comm binade, Nat.mul_comm binade]
      omega
    rw [hsum, Nat.add_mul_div_left _ _ hpos, Nat.add_mul_mod_self_left, Nat.div_eq_of_lt hrest,
      Nat.mod_eq_of_lt hrest, Nat.zero_add]
    exact ⟨rfl, rfl⟩
  unfold units
  dsimp only
  rcases Nat.lt_or_ge r binade with hlow | hlow
  · obtain ⟨hdiv, hmod⟩ := split 0 r hlow (by omega)
    obtain rfl : further = 0 := by omega
    rw [hdiv, hmod, if_pos rfl, Nat.pow_zero, Nat.mul_one]
  · rcases Nat.lt_or_ge r (2 * binade) with hhigh | hhigh
    · obtain ⟨hdiv, hmod⟩ := split 1 (r - binade) (by omega) (by omega)
      rw [hdiv, hmod, if_neg (by omega), Nat.add_sub_cancel, Nat.shiftLeft_eq,
        show binade + (r - binade) = r by omega]
    · obtain ⟨hdiv, hmod⟩ := split 2 0 hpos (by omega)
      have hr : r = 2 * binade := by omega
      rw [hdiv, hmod, if_neg (by omega), Nat.shiftLeft_eq, hr, Nat.add_zero,
        show further + 2 - 1 = further + 1 from rfl, Nat.pow_succ]
      ring

/-- Doubles are multiples of the spacing around a number, or smaller than the doubles spaced so. -/
theorem units_spaced (pattern further : Nat) :
    (∃ k, units pattern = k * 2 ^ further) ∨
      0 < further ∧ units pattern < binade * 2 ^ further := by
  have hmod : pattern % binade < binade := Nat.mod_lt _ (by decide)
  unfold units
  dsimp only
  generalize pattern / binade = exponent at *
  generalize pattern % binade = fraction at *
  rcases Nat.eq_zero_or_pos further with rfl | hpos
  · exact .inl ⟨_, (Nat.mul_one _).symm⟩
  · split
    next hsub =>
      refine .inr ⟨hpos, Nat.lt_of_lt_of_le hmod (Nat.le_mul_of_pos_right _ (Nat.two_pow_pos _))⟩
    next hnormal =>
      rw [Nat.shiftLeft_eq]
      rcases Nat.lt_or_ge (exponent - 1) further with hlt | hge
      · have hstep : 2 * 2 ^ (exponent - 1) ≤ 2 ^ further := by
          rw [Nat.mul_comm, ← Nat.pow_succ]
          exact Nat.pow_le_pow_right (by omega) hlt
        have hsum : (binade + fraction) * 2 ^ (exponent - 1) < 2 * binade * 2 ^ (exponent - 1) :=
          Nat.mul_lt_mul_of_pos_right (by omega) (Nat.two_pow_pos _)
        refine .inr ⟨hpos, Nat.lt_of_lt_of_le hsum ?_⟩
        rw [Nat.mul_comm 2, Nat.mul_assoc]
        exact Nat.mul_le_mul_left binade hstep
      · refine .inl ⟨(binade + fraction) * 2 ^ (exponent - 1 - further), ?_⟩
        rw [Nat.mul_assoc, ← Nat.pow_add, Nat.sub_add_cancel hge]

/-- The number of bits that a quotient has beyond the 53 of a double fixes the spacing around it. -/
theorem further_bits (scaled : Nat) {den : Nat} (hd : 0 < den) :
    scaled < 2 * binade * (den * 2 ^ ((scaled / den).log2 - 52)) ∧
      ((scaled / den).log2 - 52 = 0 ∨
        binade * (den * 2 ^ ((scaled / den).log2 - 52)) ≤ scaled) := by
  have hbinade : binade = 2 ^ 52 := by decide
  generalize hbits : (scaled / den).log2 = bits
  have hspan : ∀ n, n * (den * 2 ^ (bits - 52)) = n * 2 ^ (bits - 52) * den := fun n => by ring
  rw [hspan, hspan, hbinade]
  constructor
  · rw [← Nat.div_lt_iff_lt_mul hd]
    refine Nat.lt_of_lt_of_le Nat.lt_log2_self ?_
    rw [hbits, ← Nat.pow_succ', ← Nat.pow_add]
    exact Nat.pow_le_pow_right (by omega) (by omega)
  · rcases Nat.eq_zero_or_pos (bits - 52) with hzero | hpos
    · exact .inl hzero
    · right
      rw [← Nat.le_div_iff_mul_le hd, ← Nat.pow_add, show 52 + (bits - 52) = bits by omega, ← hbits]
      refine Nat.log2_self_le fun hq => ?_
      rw [hq] at hbits
      simp at hbits
      omega

/-- The pattern that is nearest to `num / den` among patterns of any size. -/
def openPattern (num den : Nat) : Nat :=
  let scaled := num * unitsInOne
  let further := (scaled / den).log2 - 52
  further * binade + roundHalfEven scaled (den <<< further)

theorem nearestPattern_eq (num den : Nat) : nearestPattern num den =
    if openPattern num den < infinityPattern then openPattern num den else infinityPattern := rfl

theorem units_openPattern_nearest (num : Nat) {den : Nat} (hd : 0 < den) (pattern : Nat) :
    Nat.dist (num * unitsInOne) (units (openPattern num den) * den) ≤
      Nat.dist (num * unitsInOne) (units pattern * den) := by
  unfold openPattern
  dsimp only
  generalize num * unitsInOne = scaled
  obtain ⟨hupper, hlower⟩ := further_bits scaled hd
  generalize (scaled / den).log2 - 52 = further at *
  rw [Nat.shiftLeft_eq]
  have hstep : 0 < den * 2 ^ further := Nat.mul_pos hd (Nat.two_pow_pos _)
  have hspan : ∀ k, k * 2 ^ further * den = k * (den * 2 ^ further) := fun k => by ring
  have hbound : roundHalfEven scaled (den * 2 ^ further) ≤ 2 * binade :=
    roundHalfEven_le hstep (Nat.le_of_lt hupper)
  have hnormal : further = 0 ∨ binade ≤ roundHalfEven scaled (den * 2 ^ further) :=
    hlower.imp_right (le_roundHalfEven hstep)
  rw [units_add (by omega), hspan]
  rcases units_spaced pattern further with ⟨k, hk⟩ | ⟨hpos, hlt⟩
  · rw [hk, hspan]
    exact roundHalfEven_nearest scaled hstep k
  · -- the least double with this spacing lies between the smaller one and the number
    have hless : units pattern * den < binade * 2 ^ further * den :=
      Nat.mul_lt_mul_of_pos_right hlt hd
    have hleast := roundHalfEven_nearest scaled hstep binade
    have hle := hlower.resolve_left (by omega)
    rw [hspan] at hless
    unfold Nat.dist at hleast ⊢
    omega

theorem unitsInOne_pos : 0 < unitsInOne := by decide

/-- The pattern of infinity, taken for a number, is more than one away from any finite double. -/
theorem units_gap {pattern other : Nat} (h : pattern < infinityPattern)
    (hother : infinityPattern ≤ other) : units pattern + unitsInOne < units other := by
  have hpattern : pattern / binade < 2047 := Nat.div_lt_of_lt_mul h
  have hexponent : 2047 ≤ other / binade := (Nat.le_div_iff_mul_le (by decide)).mpr hother
  have hmod : pattern % binade < binade := Nat.mod_lt _ (by decide)
  -- the largest doubles are multiples of two to the power `top`
  obtain ⟨one, top, hunits, hlt, htop⟩ :
      ∃ one top, unitsInOne = 1 <<< one ∧ one < top ∧ top = 2045 := ⟨_, _, rfl, by omega, rfl⟩
  have hpos : 0 < 2 ^ top := Nat.two_pow_pos top
  have hone : unitsInOne < 2 ^ top := by
    rw [hunits, Nat.one_shiftLeft]
    exact Nat.pow_lt_pow_right Nat.one_lt_two hlt
  unfold units
  dsimp only
  generalize pattern / binade = exponent at *
  generalize pattern % binade = fraction at *
  have hlow : (if exponent = 0 then fraction else (binade + fraction) <<< (exponent - 1)) ≤
      (2 * binade - 1) * 2 ^ top := by
    split
    next => exact Nat.le_trans (by omega) (Nat.le_mul_of_pos_right _ hpos)
    next =>
      rw [Nat.shiftLeft_eq]
      exact Nat.mul_le_mul (by omega) (Nat.pow_le_pow_right (by omega) (by omega))
  have hhigh : binade * (2 ^ top * 2) ≤ (binade + other % binade) <<< (other / binade - 1) := by
    rw [Nat.shiftLeft_eq]
    refine Nat.mul_le_mul (Nat.le_add_right _ _) ?_
    rw [← Nat.pow_succ]
    exact Nat.pow_le_pow_right (by omega) (by omega)
  rw [if_neg (show other / binade ≠ 0 by omega)]
  have hsum : (2 * binade - 1) * 2 ^ top + 2 ^ top = binade * (2 ^ top * 2) := by
    rw [← Nat.succ_mul, Nat.mul_left_comm, Nat.mul_comm]
    rfl
  omega

/-- The double nearest to a rounded double is rounded to the same number: it is no further from the
rounded number than the double that was rounded, and in particular not infinite. -/
theorem roundHalfEven_nearestPattern {pattern : Nat} (h : pattern < infinityPattern) {scale : Nat}
    (hscale : 0 < scale) :
    nearestPattern (roundHalfEven (units pattern * scale) unitsInOne) scale < infinityPattern ∧
      roundHalfEven (units (nearestPattern
        (roundHalfEven (units pattern * scale) unitsInOne) scale) * scale) unitsInOne =
      roundHalfEven (units pattern * scale) unitsInOne := by
  obtain ⟨hhalf, _⟩ := dist_roundHalfEven (units pattern * scale) unitsInOne_pos
  have hnear := units_openPattern_nearest (roundHalfEven (units pattern * scale) unitsInOne) hscale
    pattern
  rw [Nat.dist_comm, Nat.dist_comm _ (units pattern * scale)] at hnear
  have hagain := roundHalfEven_of_dist_le unitsInOne_pos hnear
  rw [nearestPattern_eq]
  generalize hsame : roundHalfEven (units pattern * scale) unitsInOne = rounded at *
  have hfinite : openPattern rounded scale < infinityPattern := by
    by_contra hge
    have hgap := units_gap h (Nat.le_of_not_lt hge)
    have htri := Nat.dist.triangle_inequality (units (openPattern rounded scale) * scale)
      (rounded * unitsInOne) (units pattern * scale)
    rw [Nat.dist_comm (rounded * unitsInOne), Nat.dist_mul_right] at htri
    have hfar : unitsInOne < Nat.dist (units (openPattern rounded scale)) (units pattern) := by
      unfold Nat.dist
      omega
    have hmul := Nat.le_mul_of_pos_right
      (Nat.dist (units (openPattern rounded scale)) (units pattern)) hscale
    omega
  rw [if_pos hfinite]
  exact ⟨hfinite, hagain⟩

end Binary64

end GaussJordan
