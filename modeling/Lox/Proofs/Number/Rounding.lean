import Mathlib.Algebra.Order.Field.Power
import Mathlib.Data.Nat.Log
import Mathlib.Data.Rat.Cast.Order
import Mathlib.Tactic.FieldSimp
import Mathlib.Tactic.Linarith
import Mathlib.Tactic.Positivity
import Mathlib.Tactic.Ring
import Lox.Proofs.Number.Text

/-!
# Reading fractions

A finite magnitude is a significand below `2 ^ 53` times a power of two, and its
pattern is the exponent of that power times `2 ^ 52` plus the significand.  What
is read from a fraction depends on the fraction alone.  A larger fraction never
gives a smaller number, and a fraction that is the magnitude of a number gives
this number.
-/

namespace Lox

theorem twoTo_eq (n : Nat) : twoTo n = 2 ^ n := rfl

theorem tenTo_eq (n : Nat) : tenTo n = 10 ^ n := rfl

theorem twoTo_pos (n : Nat) : 0 < twoTo n := Nat.two_pow_pos n

theorem twoTo_add (m n : Nat) : twoTo (m + n) = twoTo m * twoTo n := Nat.pow_add 2 m n

theorem twoTo_le_twoTo {m n : Nat} (h : m ≤ n) : twoTo m ≤ twoTo n :=
  Nat.pow_le_pow_right (Nat.succ_pos 1) h

theorem tenTo_pos (n : Nat) : 0 < tenTo n := Nat.pow_pos (Nat.succ_pos 9)

theorem cast_twoTo (n : Nat) : (twoTo n : ℚ) = 2 ^ (n : Int) := by
  rw [twoTo_eq, Nat.cast_pow, Nat.cast_ofNat, zpow_natCast]

theorem cast_tenTo (n : Nat) : (tenTo n : ℚ) = 10 ^ (n : Int) := by
  rw [tenTo_eq, Nat.cast_pow, Nat.cast_ofNat, zpow_natCast]

theorem tenTo_div_tenTo (k : Int) : (tenTo k.toNat : ℚ) / tenTo (-k).toNat = 10 ^ k := by
  rw [cast_tenTo, cast_tenTo, ← zpow_sub₀ (by norm_num), Int.toNat_sub_toNat_neg]

namespace Number

/-- A number that is not infinite, and is a number. -/
def Finite (x : Number) : Prop := x.exponent ≠ 2047

instance (x : Number) : Decidable x.Finite := inferInstanceAs (Decidable (_ ≠ _))

def size (x : Number) : ℚ := x.units / one

def value (x : Number) : ℚ := if x.negative then -x.size else x.size

/-!
# Significands
-/

def significand (x : Number) : Nat :=
  if x.exponent = 0 then x.fraction else twoTo 52 + x.fraction

def shift (x : Number) : Nat := x.exponent - 1

theorem one_pos : 0 < one := twoTo_pos 1074

theorem units_eq (x : Number) : x.units = x.significand * 2 ^ x.shift := by
  unfold units significand shift
  by_cases hzero : x.exponent = 0
  · simp [hzero]
  · simp only [hzero, if_false]
    rfl

theorem fraction_lt (x : Number) : x.fraction < twoTo 52 := Nat.mod_lt _ (twoTo_pos 52)

theorem exponent_lt (x : Number) : x.exponent < 2048 := Nat.mod_lt _ (twoTo_pos 11)

theorem significand_lt (x : Number) : x.significand < 2 ^ 53 := by
  have hfraction := x.fraction_lt
  rw [twoTo_52] at hfraction
  unfold significand
  rw [twoTo_52]
  split <;> omega

/-- Only the smallest numbers have a significand that does not use all its bits. -/
theorem shift_eq_zero_or (x : Number) : x.shift = 0 ∨ 2 ^ 52 ≤ x.significand := by
  unfold shift significand
  by_cases hzero : x.exponent = 0
  · exact Or.inl (by rw [hzero])
  · rw [if_neg hzero, twoTo_eq]
    exact Or.inr (Nat.le_add_right _ _)

theorem shift_le {x : Number} (hx : x.Finite) : x.shift ≤ 2045 := by
  have hlt := x.exponent_lt
  unfold Finite at hx
  unfold shift
  omega

theorem ext_toNat {x y : Number} (h : x.bits.toNat = y.bits.toNat) : x = y := by
  cases x
  cases y
  exact congrArg Number.mk (UInt64.toNat_inj.mp h)

theorem toNat_abs (x : Number) : x.abs.bits.toNat = x.shift * 2 ^ 52 + x.significand := by
  have hsize : x.bits.toNat % twoTo 63 < twoTo 64 :=
    Nat.lt_trans (Nat.mod_lt _ (twoTo_pos 63)) (by decide)
  have h63 : twoTo 63 = 2048 * 4503599627370496 := rfl
  have h11 : twoTo 11 = 2048 := rfl
  unfold abs
  rw [toNat_toUInt64 hsize]
  unfold shift significand exponent fraction
  rw [twoTo_52, h11, h63]
  split <;> omega

theorem toNat_abs_lt {x : Number} (hx : x.Finite) : x.abs.bits.toNat < infinityBits := by
  have hshift := shift_le hx
  have hsignificand := x.significand_lt
  rw [toNat_abs, infinityBits_eq]
  omega

theorem abs_of_not_negative {x : Number} (hx : x.negative = false) : x.abs = x := by
  unfold negative at hx
  rw [decide_eq_false_iff_not, Nat.not_le] at hx
  apply ext_toNat
  unfold abs
  rw [Nat.mod_eq_of_lt hx]
  exact toNat_toUInt64 (Nat.lt_trans hx (by decide))

/-- The fields of a pattern that is put together from a significand and a power of two. -/
theorem pattern_fields {m s : Nat} (hm : m ≤ 2 ^ 53) (hs : s = 0 ∨ 2 ^ 52 ≤ m)
    (hfinite : s * 2 ^ 52 + m < infinityBits) {x : Number}
    (hx : x.bits.toNat = s * 2 ^ 52 + m) : x.Finite ∧ x.units = m * 2 ^ s := by
  have h11 : twoTo 11 = 2048 := rfl
  rw [infinityBits_eq] at hfinite
  have hexponent : x.exponent = x.bits.toNat / 4503599627370496 := by
    unfold exponent
    rw [twoTo_52, h11]
    omega
  have hfraction : x.fraction = x.bits.toNat % 4503599627370496 := rfl
  constructor
  · unfold Finite
    omega
  · unfold units
    rw [twoTo_eq, twoTo_eq]
    by_cases hsmall : m < 2 ^ 52
    · have hs : s = 0 := by omega
      subst hs
      have hzero : x.exponent = 0 := by omega
      rw [if_pos hzero]
      omega
    · by_cases htop : m = 2 ^ 53
      · -- The significand has one bit too many: it is one step of the next power.
        have hone : x.exponent = s + 2 := by omega
        have hzero : x.fraction = 0 := by omega
        have hpower : s + 2 - 1 = s + 1 := rfl
        rw [if_neg (by omega), hone, hzero, htop, hpower]
        ring
      · have hone : x.exponent = s + 1 := by omega
        have hrest : 2 ^ 52 + x.fraction = m := by omega
        rw [if_neg (by omega), hone, hrest, Nat.add_sub_cancel]

theorem negative_abs (x : Number) : x.abs.negative = false := by
  have hlt : x.bits.toNat % twoTo 63 < twoTo 63 := Nat.mod_lt _ (twoTo_pos 63)
  unfold negative abs
  rw [decide_eq_false_iff_not, Nat.not_le, toNat_toUInt64 (Nat.lt_trans hlt (by decide))]
  exact hlt

theorem fields_abs {x : Number} (hx : x.Finite) : x.abs.Finite ∧ x.abs.units = x.units := by
  have hlt := toNat_abs_lt hx
  rw [toNat_abs] at hlt
  have hfields := pattern_fields (Nat.le_of_lt x.significand_lt) x.shift_eq_zero_or hlt x.toNat_abs
  rw [units_eq x]
  exact hfields

theorem size_nonneg (x : Number) : 0 ≤ x.size := by
  unfold size
  positivity

theorem value_of_not_negative {x : Number} (hx : x.negative = false) : x.value = x.size := by
  unfold value
  rw [hx]
  rfl

theorem value_abs {x : Number} (hx : x.Finite) : x.abs.value = x.size := by
  rw [value_of_not_negative x.negative_abs, size, (fields_abs hx).2, size]

theorem log2_units (x : Number) : x.units.log2 - 52 = x.shift := by
  have hlt := x.significand_lt
  rw [units_eq]
  rcases x.shift_eq_zero_or with hshift | hshift
  · rw [hshift, Nat.pow_zero, Nat.mul_one]
    by_cases hzero : x.significand = 0
    · rw [hzero]
      rfl
    · have hlog := (Nat.log2_lt hzero).mpr hlt
      omega
  · have hne : x.significand * 2 ^ x.shift ≠ 0 :=
      Nat.mul_ne_zero (by omega) (Nat.ne_of_gt (Nat.two_pow_pos _))
    have hlog : (x.significand * 2 ^ x.shift).log2 = 52 + x.shift := by
      rw [Nat.log2_eq_iff hne, Nat.pow_add, show 52 + x.shift + 1 = 53 + x.shift by omega,
        Nat.pow_add 2 53]
      constructor
      · exact Nat.mul_le_mul_right _ hshift
      · exact Nat.mul_lt_mul_of_pos_right hlt (Nat.two_pow_pos _)
    omega

/-!
# Division with rounding
-/

/-- The three cases: below one half, above it, and a tie, which goes to the even neighbour. -/
theorem roundDiv_cases (a b : Nat) :
    2 * (a % b) < b ∧ roundDiv a b = a / b ∨ b < 2 * (a % b) ∧ roundDiv a b = a / b + 1 ∨
      2 * (a % b) = b ∧ roundDiv a b = a / b + a / b % 2 := by
  unfold roundDiv
  dsimp only
  by_cases hsmall : 2 * (a % b) < b
  · exact Or.inl ⟨hsmall, if_pos hsmall⟩
  · rw [if_neg hsmall]
    by_cases hlarge : b < 2 * (a % b)
    · exact Or.inr (Or.inl ⟨hlarge, if_pos hlarge⟩)
    · exact Or.inr (Or.inr ⟨by omega, if_neg hlarge⟩)

theorem le_roundDiv (a b : Nat) : a / b ≤ roundDiv a b := by
  have hcases := roundDiv_cases a b
  omega

theorem roundDiv_le (a b : Nat) : roundDiv a b ≤ a / b + 1 := by
  have hcases := roundDiv_cases a b
  omega

theorem roundDiv_mul_left {c : Nat} (hc : 0 < c) (a b : Nat) :
    roundDiv (c * a) (c * b) = roundDiv a b := by
  unfold roundDiv
  dsimp only
  rw [Nat.mul_div_mul_left _ _ hc, Nat.mul_mod_mul_left, Nat.mul_left_comm 2 c]
  simp only [Nat.mul_lt_mul_left hc]

theorem roundDiv_mul {b : Nat} (hb : 0 < b) (n : Nat) : roundDiv (b * n) b = n := by
  unfold roundDiv
  rw [Nat.mul_mod_right, Nat.mul_div_cancel_left _ hb]
  exact if_pos hb

theorem roundDiv_mono {a a' : Nat} (b : Nat) (h : a ≤ a') : roundDiv a b ≤ roundDiv a' b := by
  have hfloor : a / b ≤ a' / b := Nat.div_le_div_right h
  by_cases hlt : a / b < a' / b
  · calc roundDiv a b ≤ a / b + 1 := roundDiv_le a b
      _ ≤ a' / b := hlt
      _ ≤ roundDiv a' b := le_roundDiv a' b
  · have heq : a / b = a' / b := by omega
    have hrest : a % b ≤ a' % b := by
      have hsplit := Nat.div_add_mod a b
      have hsplit' := Nat.div_add_mod a' b
      rw [heq] at hsplit
      omega
    have hcases := roundDiv_cases a b
    have hcases' := roundDiv_cases a' b
    omega

theorem cast_div_eq {b : Nat} (hb : 0 < b) (a : Nat) :
    (a : ℚ) / b = (a / b : ℕ) + ((a % b : ℕ) : ℚ) / b := by
  have hpos : (b : ℚ) ≠ 0 := Nat.cast_ne_zero.mpr (Nat.ne_of_gt hb)
  have hcast : ((b * (a / b) + a % b : ℕ) : ℚ) = a := by rw [Nat.div_add_mod]
  rw [← hcast]
  push_cast
  field_simp

/-- The rounded quotient is less than one half away, or one half and even. -/
theorem roundDiv_near {b : Nat} (hb : 0 < b) (a : Nat) :
    |(a : ℚ) / b - roundDiv a b| < 1 / 2 ∨
      |(a : ℚ) / b - roundDiv a b| = 1 / 2 ∧ roundDiv a b % 2 = 0 := by
  have hpos : (0 : ℚ) < b := Nat.cast_pos.mpr hb
  have hrest : (0 : ℚ) ≤ ((a % b : ℕ) : ℚ) / b := by positivity
  have hrest' : ((a % b : ℕ) : ℚ) / b < 1 := by
    rw [div_lt_one hpos]
    exact_mod_cast Nat.mod_lt a hb
  rw [cast_div_eq hb]
  rcases roundDiv_cases a b with ⟨hsmall, hround⟩ | ⟨hlarge, hround⟩ | ⟨htie, hround⟩
  · have hhalf : ((a % b : ℕ) : ℚ) / b < 1 / 2 := by
      rw [div_lt_iff₀ hpos]
      have hcast : (2 : ℚ) * (a % b : ℕ) < b := by exact_mod_cast hsmall
      linarith
    left
    rw [hround, add_sub_cancel_left, abs_of_nonneg hrest]
    exact hhalf
  · have hhalf : 1 / 2 < ((a % b : ℕ) : ℚ) / b := by
      rw [lt_div_iff₀ hpos]
      have hcast : (b : ℚ) < 2 * (a % b : ℕ) := by exact_mod_cast hlarge
      linarith
    left
    rw [hround, Nat.cast_add_one, add_sub_add_left_eq_sub, abs_of_neg (by linarith)]
    linarith
  · have hhalf : ((a % b : ℕ) : ℚ) / b = 1 / 2 := by
      rw [div_eq_iff (ne_of_gt hpos)]
      have hcast : (2 : ℚ) * (a % b : ℕ) = b := by exact_mod_cast htie
      linarith
    right
    constructor
    · rw [hround, hhalf]
      rcases Nat.mod_two_eq_zero_or_one (a / b) with hparity | hparity
      · rw [hparity, Nat.add_zero, add_sub_cancel_left]
        norm_num
      · rw [hparity, Nat.cast_add_one, add_sub_add_left_eq_sub]
        norm_num
    · omega

/-- Any other whole number is at least as far away, and as far only if the result is even. -/
theorem roundDiv_least {b : Nat} (hb : 0 < b) (a : Nat) {k : Nat} (hk : k ≠ roundDiv a b) :
    |(a : ℚ) / b - roundDiv a b| ≤ |(a : ℚ) / b - k| ∧
      (|(a : ℚ) / b - k| = |(a : ℚ) / b - roundDiv a b| → roundDiv a b % 2 = 0) := by
  have hapart : (1 : ℚ) ≤ |(k : ℚ) - roundDiv a b| := by
    have hint : (1 : ℤ) ≤ |(k : ℤ) - roundDiv a b| :=
      Int.one_le_abs (sub_ne_zero.mpr (by exact_mod_cast hk))
    exact_mod_cast hint
  have htriangle := abs_sub_le (k : ℚ) ((a : ℚ) / b) (roundDiv a b)
  rw [abs_sub_comm (k : ℚ) ((a : ℚ) / b)] at htriangle
  rcases roundDiv_near hb a with hnear | ⟨htie, heven⟩
  · constructor
    · linarith
    · intro hequal
      exfalso
      linarith
  · exact ⟨by linarith, fun _ => heven⟩

/-!
# Fractions
-/

def ratioShift (a b : Nat) : Nat := (a * one / b).log2 - 52

/-- How many of these powers make up the number nearest to `a / b`. -/
def ratioSteps (a b : Nat) : Nat := roundDiv (a * one) (b * 2 ^ ratioShift a b)

theorem toNat_ofRatio (a b : Nat) :
    (ofRatio a b).bits.toNat = min (ratioShift a b * 2 ^ 52 + ratioSteps a b) infinityBits :=
  toNat_toUInt64 (Nat.lt_of_le_of_lt (Nat.min_le_right _ _) (by decide))

theorem ratioShift_eq_zero_or (a b : Nat) :
    ratioShift a b = 0 ∨ 2 ^ 52 * 2 ^ ratioShift a b ≤ a * one / b := by
  unfold ratioShift
  by_cases hlog : (a * one / b).log2 ≤ 52
  · exact Or.inl (Nat.sub_eq_zero_of_le hlog)
  · have hne : a * one / b ≠ 0 := by
      intro hzero
      rw [hzero] at hlog
      exact hlog (Nat.zero_le _)
    rw [← Nat.pow_add, Nat.add_sub_cancel' (by omega)]
    exact Or.inr (Nat.log2_self_le hne)

theorem ratioSteps_le (a b : Nat) : ratioSteps a b ≤ 2 ^ 53 := by
  have hlt : a * one / b < 2 ^ 53 * 2 ^ ratioShift a b := by
    apply Nat.lt_of_lt_of_le Nat.lt_log2_self
    rw [← Nat.pow_add]
    apply Nat.pow_le_pow_right (by decide)
    unfold ratioShift
    omega
  calc ratioSteps a b ≤ a * one / (b * 2 ^ ratioShift a b) + 1 := roundDiv_le _ _
    _ = a * one / b / 2 ^ ratioShift a b + 1 := by rw [Nat.div_div_eq_div_mul]
    _ ≤ 2 ^ 53 := (Nat.div_lt_iff_lt_mul (Nat.two_pow_pos _)).mpr hlt

theorem ratioShift_eq_zero_or_steps (a b : Nat) : ratioShift a b = 0 ∨ 2 ^ 52 ≤ ratioSteps a b := by
  apply (ratioShift_eq_zero_or a b).imp_right
  intro hle
  calc 2 ^ 52 ≤ a * one / b / 2 ^ ratioShift a b :=
        (Nat.le_div_iff_mul_le (Nat.two_pow_pos _)).mpr hle
    _ = a * one / (b * 2 ^ ratioShift a b) := Nat.div_div_eq_div_mul _ _ _
    _ ≤ ratioSteps a b := le_roundDiv _ _

theorem ofRatio_mul_left {c : Nat} (hc : 0 < c) (a b : Nat) :
    ofRatio (c * a) (c * b) = ofRatio a b := by
  have hshift : ratioShift (c * a) (c * b) = ratioShift a b := by
    unfold ratioShift
    rw [Nat.mul_assoc, Nat.mul_div_mul_left _ _ hc]
  apply ext_toNat
  rw [toNat_ofRatio, toNat_ofRatio]
  unfold ratioSteps
  rw [hshift, Nat.mul_assoc, Nat.mul_assoc, roundDiv_mul_left hc]

theorem ofRatio_congr {a b a' b' : Nat} (hb : 0 < b) (hb' : 0 < b') (h : a * b' = a' * b) :
    ofRatio a b = ofRatio a' b' := by
  rw [← ofRatio_mul_left hb' a b, ← ofRatio_mul_left hb a' b', Nat.mul_comm b' a, h,
    Nat.mul_comm a' b, Nat.mul_comm b' b]

theorem toNat_ofRatio_mono {a a' : Nat} (b : Nat) (h : a ≤ a') :
    (ofRatio a b).bits.toNat ≤ (ofRatio a' b).bits.toNat := by
  have hscaled : a * one ≤ a' * one := Nat.mul_le_mul_right one h
  have hshift : ratioShift a b ≤ ratioShift a' b := by
    have hlog : (a * one / b).log2 ≤ (a' * one / b).log2 := by
      rw [Nat.log2_eq_log_two, Nat.log2_eq_log_two]
      exact Nat.log_mono_right (Nat.div_le_div_right hscaled)
    exact Nat.sub_le_sub_right hlog 52
  rw [toNat_ofRatio, toNat_ofRatio]
  apply min_le_min_right
  rcases Nat.eq_or_lt_of_le hshift with heq | hlt
  · unfold ratioSteps
    rw [heq]
    exact Nat.add_le_add_left (roundDiv_mono _ hscaled) _
  · -- The larger fraction has a full significand at a higher power.
    have hsteps := ratioSteps_le a b
    have hfull := ratioShift_eq_zero_or_steps a' b
    omega

theorem ofRatio_units {x : Number} (hx : x.Finite) : ofRatio x.units one = x.abs := by
  have hshift : ratioShift x.units one = x.shift := by
    unfold ratioShift
    rw [Nat.mul_div_cancel _ one_pos, log2_units]
  have hsteps : ratioSteps x.units one = x.significand := by
    unfold ratioSteps
    rw [hshift, Nat.mul_comm x.units, roundDiv_mul_left one_pos, units_eq, Nat.mul_comm]
    exact roundDiv_mul (Nat.two_pow_pos _) _
  have hlt := toNat_abs_lt hx
  rw [toNat_abs] at hlt
  apply ext_toNat
  rw [toNat_ofRatio, hshift, hsteps, toNat_abs, Nat.min_eq_left (Nat.le_of_lt hlt)]

def ofRat (q : ℚ) : Number := ofRatio q.num.toNat q.den

theorem negative_ofRat (q : ℚ) : (ofRat q).negative = false := negative_ofRatio _ _

theorem num_toNat {q : ℚ} (hq : 0 ≤ q) : ((q.num.toNat : ℕ) : ℚ) = q.num := by
  have hnum : 0 ≤ q.num := Rat.num_nonneg.mpr hq
  exact_mod_cast congrArg (Int.cast (R := ℚ)) (Int.toNat_of_nonneg hnum)

theorem ofRatio_eq_ofRat (a : Nat) {b : Nat} (hb : 0 < b) : ofRatio a b = ofRat (a / b) := by
  have hpos : (b : ℚ) ≠ 0 := Nat.cast_ne_zero.mpr (Nat.ne_of_gt hb)
  apply ofRatio_congr hb (Rat.den_pos _)
  have hq : (0 : ℚ) ≤ (a : ℚ) / b := by positivity
  have hcast : (a : ℚ) * ((a : ℚ) / b).den = ((a : ℚ) / b).num.toNat * b := by
    rw [num_toNat hq]
    have hself := Rat.mul_den_eq_num ((a : ℚ) / b)
    rw [← hself]
    field_simp
  exact_mod_cast hcast

theorem toNat_ofRat_mono {q r : ℚ} (hq : 0 ≤ q) (hqr : q ≤ r) :
    (ofRat q).bits.toNat ≤ (ofRat r).bits.toNat := by
  have hle : q.num.toNat * r.den ≤ r.num.toNat * q.den := by
    have hcast : (q.num.toNat : ℚ) * r.den ≤ r.num.toNat * q.den := by
      rw [num_toNat hq, num_toNat (hq.trans hqr), ← Rat.mul_den_eq_num q, ← Rat.mul_den_eq_num r]
      have hden : (0 : ℚ) ≤ q.den * r.den := by positivity
      nlinarith [mul_le_mul_of_nonneg_right hqr hden]
    exact_mod_cast hcast
  unfold ofRat
  rw [← ofRatio_mul_left r.den_pos, ← ofRatio_mul_left q.den_pos r.num.toNat,
    Nat.mul_comm r.den q.den, Nat.mul_comm r.den, Nat.mul_comm q.den r.num.toNat]
  exact toNat_ofRatio_mono _ hle

theorem ofRat_size {x : Number} (hx : x.Finite) : ofRat x.size = x.abs := by
  unfold size
  rw [← ofRatio_eq_ofRat _ one_pos, ofRatio_units hx]

/-- Of two finite numbers with the same magnitude, at most the signs differ. -/
theorem abs_eq_of_size {x y : Number} (hx : x.Finite) (hy : y.Finite) (h : x.size = y.size) :
    x.abs = y.abs := by
  rw [← ofRat_size hx, h, ofRat_size hy]

theorem ofDecimal_eq_ofRat (digits : Nat) (e : Int) :
    ofDecimal digits e = ofRat (digits * 10 ^ e) := by
  have hone : tenTo 0 = 1 := rfl
  unfold ofDecimal
  rw [← tenTo_div_tenTo]
  split
  · next he =>
      rw [ofRatio_eq_ofRat _ Nat.one_pos, Int.toNat_of_nonpos (Int.neg_nonpos_of_nonneg he), hone,
        Nat.cast_mul, mul_div_assoc]
  · next he =>
      rw [ofRatio_eq_ofRat _ (tenTo_pos _), Int.toNat_of_nonpos (Int.le_of_not_le he), hone,
        Nat.cast_one, mul_one_div]

end Number
end Lox
