import Lox.Proofs.Number.Rounding

/-!
# The nearest number

A fraction is read as the number nearest to it, and of two equally near ones as
that with the even pattern.  Two numbers are never closer than the `2 ^ 53`rd part
of their magnitude, so a fraction that is closer than half of this to a number is
read as this number.
-/

namespace Lox
namespace Number

/-- The number is the nearest to a fraction, and if there are two, the one with the even pattern. -/
structure Nearest (q : ℚ) (x : Number) : Prop where
  finite : x.Finite
  least : ∀ y : Number, y.Finite → |q - x.value| ≤ |q - y.value|
  even : ∀ y : Number, y.Finite → y.value ≠ x.value → |q - y.value| = |q - x.value| →
    x.bits.toNat % 2 = 0

theorem infinityBits_le_ofRatio_limit :
    infinityBits ≤ (ofRatio ((2 ^ 54 - 1) * twoTo 970) 1).bits.toNat := by
  decide +kernel

section

-- The powers below are too large to be computed.
attribute [local irreducible] twoTo

/-- From here on, fractions are read as infinite: half a step above the greatest finite number. -/
def limit : ℚ := (2 ^ 54 - 1) * twoTo 970

theorem scaled_lt_of_lt_limit {a b : Nat} (hb : 0 < b) (h : (a : ℚ) / b < limit) :
    a * one < (2 ^ 54 - 1) * twoTo 2044 * b := by
  have hlt : (a : ℚ) < limit * b := (div_lt_iff₀ (Nat.cast_pos.mpr hb)).mp h
  have hnat : a < (2 ^ 54 - 1) * twoTo 970 * b := by
    unfold limit at hlt
    have hcast : (((2 ^ 54 - 1 : ℕ)) : ℚ) = 2 ^ 54 - 1 := by norm_num
    rw [← hcast] at hlt
    exact_mod_cast hlt
  have hpower : twoTo 2044 = twoTo 970 * one := twoTo_add 970 1074
  calc a * one < (2 ^ 54 - 1) * twoTo 970 * b * one := Nat.mul_lt_mul_of_pos_right hnat one_pos
    _ = (2 ^ 54 - 1) * twoTo 2044 * b := by
        rw [hpower]
        ring

theorem ratioShift_le {a b : Nat} (hb : 0 < b) (h : (a : ℚ) / b < limit) :
    ratioShift a b ≤ 2045 := by
  have hlt : a * one / b < 2 ^ 2098 := by
    rw [Nat.div_lt_iff_lt_mul hb, ← twoTo_eq, show twoTo 2098 = twoTo 54 * twoTo 2044 from
      twoTo_add 54 2044, twoTo_eq 54]
    apply Nat.lt_of_lt_of_le (scaled_lt_of_lt_limit hb h)
    exact Nat.mul_le_mul_right b (Nat.mul_le_mul_right _ (Nat.sub_le _ _))
  unfold ratioShift
  by_cases hzero : a * one / b = 0
  · rw [hzero]
    exact Nat.zero_le _
  · have hlog := (Nat.log2_lt hzero).mpr hlt
    omega

/-- At the greatest power of two, what is below the limit has no carry out of its significand. -/
theorem ratioSteps_lt {a b : Nat} (hb : 0 < b) (h : (a : ℚ) / b < limit)
    (htop : ratioShift a b = 2045) : ratioSteps a b < 2 ^ 53 := by
  have hpower : 2 ^ ratioShift a b = twoTo 2044 * 2 := by
    rw [htop, ← twoTo_eq, ← Nat.pow_one 2, ← twoTo_eq 1]
    exact twoTo_add 2044 1
  have hstep : 0 < b * 2 ^ ratioShift a b := Nat.mul_pos hb (Nat.two_pow_pos _)
  have hquotient : ((a * one : ℕ) : ℚ) / ((b * 2 ^ ratioShift a b : ℕ) : ℚ) < (2 ^ 54 - 1) / 2 := by
    rw [div_lt_div_iff₀ (Nat.cast_pos.mpr hstep) (by norm_num), hpower]
    have hlt : a * one * 2 < (2 ^ 54 - 1) * (b * (twoTo 2044 * 2)) := by
      have hscaled := scaled_lt_of_lt_limit hb h
      linarith
    have hcast : (((2 ^ 54 - 1 : ℕ)) : ℚ) = 2 ^ 54 - 1 := by norm_num
    rw [← hcast]
    exact_mod_cast hlt
  have hlower : (ratioSteps a b : ℚ) - 1 / 2 ≤
      ((a * one : ℕ) : ℚ) / ((b * 2 ^ ratioShift a b : ℕ) : ℚ) := by
    have hnear := roundDiv_near hstep (a * one)
    have hle :
        |((a * one : ℕ) : ℚ) / ((b * 2 ^ ratioShift a b : ℕ) : ℚ) - ratioSteps a b| ≤ 1 / 2 :=
      hnear.elim le_of_lt fun htie => le_of_eq htie.1
    linarith [(abs_le.mp hle).1]
  have hcast : (ratioSteps a b : ℚ) < 2 ^ 53 := by linarith
  exact_mod_cast hcast

theorem pattern_lt_of_lt_limit {a b : Nat} (hb : 0 < b) (h : (a : ℚ) / b < limit) :
    ratioShift a b * 2 ^ 52 + ratioSteps a b < infinityBits := by
  have hshift := ratioShift_le hb h
  have hsteps := ratioSteps_le a b
  have htop := ratioSteps_lt hb h
  rw [infinityBits_eq]
  omega

def scaled (a b : Nat) : ℚ := ((a * one : ℕ) : ℚ) / b

def rounded (a b : Nat) : Nat := ratioSteps a b * 2 ^ ratioShift a b

theorem units_ofRatio {a b : Nat} (hb : 0 < b) (h : (a : ℚ) / b < limit) :
    (ofRatio a b).Finite ∧ (ofRatio a b).units = rounded a b := by
  have hlt := pattern_lt_of_lt_limit hb h
  apply pattern_fields (ratioSteps_le a b) (ratioShift_eq_zero_or_steps a b) hlt
  rw [toNat_ofRatio, Nat.min_eq_left (Nat.le_of_lt hlt)]

/-- Among the multiples of the power of two, none is nearer; one as near leaves an even pattern. -/
theorem multiple_least {a b : Nat} (hb : 0 < b) {k : Nat} (hk : k ≠ ratioSteps a b) :
    |scaled a b - rounded a b| ≤ |scaled a b - (k * 2 ^ ratioShift a b : ℕ)| ∧
      (|scaled a b - (k * 2 ^ ratioShift a b : ℕ)| = |scaled a b - rounded a b| →
        ratioSteps a b % 2 = 0) := by
  have hstep : 0 < b * 2 ^ ratioShift a b := Nat.mul_pos hb (Nat.two_pow_pos _)
  have hpower : (0 : ℚ) < (2 ^ ratioShift a b : ℕ) := Nat.cast_pos.mpr (Nat.two_pow_pos _)
  have hdistance : ∀ k : ℕ, |scaled a b - (k * 2 ^ ratioShift a b : ℕ)| =
      |((a * one : ℕ) : ℚ) / ((b * 2 ^ ratioShift a b : ℕ) : ℚ) - k| *
        (2 ^ ratioShift a b : ℕ) := by
    intro k
    have hb' : (b : ℚ) ≠ 0 := Nat.cast_ne_zero.mpr (Nat.ne_of_gt hb)
    rw [← abs_of_pos hpower, ← abs_mul, scaled]
    congr 1
    push_cast
    field_simp
  have hleast := roundDiv_least hstep (a * one) hk
  rw [rounded, hdistance, hdistance]
  constructor
  · exact mul_le_mul_of_nonneg_right hleast.1 (le_of_lt hpower)
  · intro hequal
    exact hleast.2 (mul_right_cancel₀ (ne_of_gt hpower) hequal)

/-- A number at a lower power is below the least multiple with a full significand. -/
theorem units_lt_of_shift_lt {a b : Nat} {y : Number} (hshift : y.shift < ratioShift a b) :
    y.units < 2 ^ 52 * 2 ^ ratioShift a b := by
  rw [units_eq]
  calc y.significand * 2 ^ y.shift < 2 ^ 53 * 2 ^ y.shift :=
        Nat.mul_lt_mul_of_pos_right y.significand_lt (Nat.two_pow_pos _)
    _ = 2 ^ 52 * 2 ^ (y.shift + 1) := by ring
    _ ≤ 2 ^ 52 * 2 ^ ratioShift a b :=
        Nat.mul_le_mul_left _ (Nat.pow_le_pow_right (by decide) hshift)

theorem le_scaled (a : Nat) {b : Nat} (hb : 0 < b) (hshift : ratioShift a b ≠ 0) :
    ((2 ^ 52 * 2 ^ ratioShift a b : ℕ) : ℚ) ≤ scaled a b := by
  have hfull := (ratioShift_eq_zero_or a b).resolve_left hshift
  rw [Nat.le_div_iff_mul_le hb] at hfull
  unfold scaled
  rw [le_div_iff₀ (Nat.cast_pos.mpr hb)]
  exact_mod_cast hfull

theorem units_eq_multiple {y : Number} {s : Nat} (hshift : s ≤ y.shift) :
    y.units = y.significand * 2 ^ (y.shift - s) * 2 ^ s := by
  rw [units_eq, Nat.mul_assoc, ← Nat.pow_add, Nat.sub_add_cancel hshift]

/-- Measured in units, no number is nearer; another one as near leaves an even pattern. -/
theorem units_least {a b : Nat} (hb : 0 < b) {y : Number} (hy : y.units ≠ rounded a b) :
    |scaled a b - rounded a b| ≤ |scaled a b - y.units| ∧
      (|scaled a b - y.units| = |scaled a b - rounded a b| → ratioSteps a b % 2 = 0) := by
  by_cases hshift : ratioShift a b ≤ y.shift
  · rw [units_eq_multiple hshift] at hy ⊢
    apply multiple_least hb
    intro heq
    exact hy (by rw [heq, rounded])
  · -- The fraction lies beyond the least multiple with a full significand, and `y` before it.
    have hbelow : (y.units : ℚ) < (2 ^ 52 * 2 ^ ratioShift a b : ℕ) :=
      Nat.cast_lt.mpr (units_lt_of_shift_lt (Nat.lt_of_not_le hshift))
    have habove := le_scaled a hb (by omega)
    have hfull : |scaled a b - rounded a b| ≤
        |scaled a b - (2 ^ 52 * 2 ^ ratioShift a b : ℕ)| := by
      by_cases hsteps : 2 ^ 52 = ratioSteps a b
      · rw [rounded, ← hsteps]
      · exact (multiple_least hb hsteps).1
    rw [abs_of_nonneg (sub_nonneg.mpr habove)] at hfull
    have hfar : |scaled a b - y.units| = scaled a b - y.units := abs_of_pos (by linarith)
    constructor
    · linarith
    · intro hequal
      exfalso
      linarith

theorem abs_sub_size_le {q : ℚ} (hq : 0 ≤ q) (y : Number) : |q - y.size| ≤ |q - y.value| := by
  have hsize := y.size_nonneg
  unfold value
  split
  · rw [sub_neg_eq_add, abs_of_nonneg (add_nonneg hq hsize), abs_le]
    constructor <;> linarith
  · exact le_refl _

theorem abs_sub_size (a b : Nat) (y : Number) :
    |(a : ℚ) / b - y.size| = |scaled a b - y.units| / one := by
  have hone : (0 : ℚ) < one := Nat.cast_pos.mpr one_pos
  rw [← abs_of_pos hone, ← abs_div]
  congr 1
  unfold scaled size
  push_cast
  field_simp

/-- A number with the opposite sign is farther away, unless both are zero. -/
theorem value_eq_of_size {q : ℚ} (hq : 0 ≤ q) {x y : Number} (hx : x.size ≤ 2 * q)
    (hsize : y.size = x.size) (hequal : |q - y.value| = |q - x.size|) : y.value = x.size := by
  have hnonneg := x.size_nonneg
  unfold value at hequal ⊢
  split at hequal
  · next hsign =>
      rw [if_pos hsign, hsize]
      rw [hsize, sub_neg_eq_add, abs_of_nonneg (add_nonneg hq hnonneg)] at hequal
      rcases abs_choice (q - x.size) with habs | habs <;> rw [habs] at hequal <;> linarith
  · next hsign => rw [if_neg hsign, hsize]

theorem nearest_ofRatio {a b : Nat} (hb : 0 < b) (h : (a : ℚ) / b < limit) :
    Nearest (a / b) (ofRatio a b) := by
  have hone : (0 : ℚ) < one := Nat.cast_pos.mpr one_pos
  have hq : (0 : ℚ) ≤ (a : ℚ) / b := by positivity
  rcases units_ofRatio hb h with ⟨hfinite, hunits⟩
  have hvalue : (ofRatio a b).value = (ofRatio a b).size :=
    value_of_not_negative (negative_ofRatio a b)
  have hleast : ∀ y : Number, |(a : ℚ) / b - (ofRatio a b).size| ≤ |(a : ℚ) / b - y.size| := by
    intro y
    rw [abs_sub_size, abs_sub_size, hunits]
    by_cases hy : y.units = rounded a b
    · rw [hy]
    · exact div_le_div_of_nonneg_right (units_least hb hy).1 (le_of_lt hone)
  refine ⟨hfinite, ?_, ?_⟩
  · intro y _
    rw [hvalue]
    exact (hleast y).trans (abs_sub_size_le hq y)
  · intro y _ hne hequal
    rw [hvalue] at hne hequal
    have hsize : |(a : ℚ) / b - y.size| = |(a : ℚ) / b - (ofRatio a b).size| :=
      le_antisymm ((abs_sub_size_le hq y).trans (le_of_eq hequal)) (hleast y)
    have hother : y.units ≠ rounded a b := by
      intro heq
      have hzero : |(a : ℚ) / b - (ofRatio a b).size| ≤ a / b := by
        have hle := hleast ⟨0⟩
        rwa [show (⟨0⟩ : Number).size = 0 by simp [size, units, exponent, fraction], sub_zero,
          abs_of_nonneg hq] at hle
      apply hne
      apply value_eq_of_size hq _ _ hequal
      · linarith [(abs_le.mp hzero).1]
      · rw [size, size, heq, hunits]
    rw [abs_sub_size, abs_sub_size, hunits, div_left_inj' (ne_of_gt hone)] at hsize
    have heven := (units_least hb hother).2 hsize
    have hlt := pattern_lt_of_lt_limit hb h
    rw [toNat_ofRatio, Nat.min_eq_left (Nat.le_of_lt hlt)]
    omega

theorem nearest_ofRat {q : ℚ} (hq : 0 ≤ q) (h : q < limit) : Nearest q (ofRat q) := by
  have hself : ((q.num.toNat : ℕ) : ℚ) / q.den = q := by rw [num_toNat hq, Rat.num_div_den]
  have hnearest : Nearest ((q.num.toNat : ℕ) / q.den) (ofRat q) :=
    nearest_ofRatio q.den_pos (by rw [hself]; exact h)
  rw [hself] at hnearest
  exact hnearest

theorem ofRat_limit : ofRat limit = ofRatio ((2 ^ 54 - 1) * twoTo 970) 1 := by
  rw [ofRatio_eq_ofRat _ Nat.one_pos]
  congr 1
  unfold limit
  push_cast
  norm_num

theorem toNat_ofRat_of_limit_le {q : ℚ} (h : limit ≤ q) :
    (ofRat q).bits.toNat = infinityBits := by
  have hlimit : 0 ≤ limit := by
    unfold limit
    positivity
  apply Nat.le_antisymm (toNat_ofRatio_le _ _)
  calc infinityBits ≤ (ofRat limit).bits.toNat := by
        rw [ofRat_limit]
        exact infinityBits_le_ofRatio_limit
    _ ≤ (ofRat q).bits.toNat := toNat_ofRat_mono hlimit h

end

theorem isInfinite_ofRat {q : ℚ} (h : limit ≤ q) : (ofRat q).isInfinite = true := by
  have hbits := toNat_ofRat_of_limit_le h
  unfold isInfinite exponent fraction
  rw [hbits]
  rfl

/--
A decimal is read as the nearest number, and of two equally near ones as that
with the even pattern.  From half a step above the greatest number on it is read
as infinite.
-/
theorem ofDecimal_rounds (digits : Nat) (e : Int) :
    (digits * 10 ^ e < limit → Nearest (digits * 10 ^ e) (ofDecimal digits e)) ∧
      (limit ≤ digits * 10 ^ e → (ofDecimal digits e).isInfinite = true) := by
  rw [ofDecimal_eq_ofRat]
  exact ⟨nearest_ofRat (by positivity), isInfinite_ofRat⟩

/-!
# Gaps between numbers
-/

section

attribute [local irreducible] twoTo

theorem size_le {x : Number} (hx : x.Finite) : x.size ≤ (2 ^ 53 - 1) * twoTo 971 := by
  have hunits : x.units ≤ (2 ^ 53 - 1) * twoTo 2045 := by
    rw [units_eq, ← twoTo_eq]
    exact Nat.mul_le_mul (Nat.le_sub_one_of_lt x.significand_lt) (twoTo_le_twoTo (shift_le hx))
  have hpower : twoTo 2045 = twoTo 971 * one := twoTo_add 971 1074
  have hcast : (x.units : ℚ) ≤ (((2 ^ 53 - 1) * (twoTo 971 * one) : ℕ) : ℚ) := by
    rw [← hpower]
    exact_mod_cast hunits
  unfold size
  rw [div_le_iff₀ (Nat.cast_pos.mpr one_pos)]
  push_cast at hcast
  linarith

theorem units_le_gap_of_shift_le {x y : Number} (hxy : x.units ≠ y.units)
    (hshift : x.shift ≤ y.shift) : (x.units : ℚ) ≤ 2 ^ 53 * |(x.units : ℚ) - y.units| := by
  have hpower : (0 : ℚ) < 2 ^ x.shift := by positivity
  have hlt : (x.significand : ℚ) < 2 ^ 53 := by exact_mod_cast x.significand_lt
  rw [units_eq x, units_eq_multiple hshift] at hxy ⊢
  generalize y.significand * 2 ^ (y.shift - x.shift) = k at hxy ⊢
  have hne : (x.significand : ℤ) - k ≠ 0 := by
    intro heq
    exact hxy (by rw [show x.significand = k by omega])
  have hapart : (1 : ℚ) ≤ |(x.significand : ℚ) - k| := by
    exact_mod_cast Int.one_le_abs hne
  push_cast
  rw [← sub_mul, abs_mul, abs_of_pos hpower, ← mul_assoc]
  apply mul_le_mul_of_nonneg_right _ (le_of_lt hpower)
  linarith

theorem units_le_gap_of_shift_lt {x y : Number} (hshift : y.shift < x.shift) :
    (x.units : ℚ) ≤ 2 ^ 53 * |(x.units : ℚ) - y.units| := by
  have hx : (2 : ℚ) ^ 53 * 2 ^ y.shift ≤ x.units := by
    have hfull := x.shift_eq_zero_or.resolve_left (by omega)
    have hnat : 2 ^ 53 * 2 ^ y.shift ≤ x.units := by
      rw [units_eq]
      calc 2 ^ 53 * 2 ^ y.shift = 2 ^ 52 * 2 ^ (y.shift + 1) := by ring
        _ ≤ x.significand * 2 ^ x.shift :=
            Nat.mul_le_mul hfull (Nat.pow_le_pow_right (by decide) hshift)
    exact_mod_cast hnat
  have hy : (y.units : ℚ) ≤ (2 ^ 53 - 1) * 2 ^ y.shift := by
    have hlt : (y.significand : ℚ) + 1 ≤ 2 ^ 53 := by exact_mod_cast y.significand_lt
    rw [units_eq, Nat.cast_mul, Nat.cast_pow, Nat.cast_ofNat]
    apply mul_le_mul_of_nonneg_right _ (by positivity)
    linarith
  have habs := le_abs_self ((x.units : ℚ) - y.units)
  linarith

theorem size_le_gap {x y : Number} (hxy : x.units ≠ y.units) :
    x.size ≤ 2 ^ 53 * |x.size - y.size| := by
  have hone : (0 : ℚ) < one := Nat.cast_pos.mpr one_pos
  have hunits : (x.units : ℚ) ≤ 2 ^ 53 * |(x.units : ℚ) - y.units| := by
    rcases Nat.lt_or_ge y.shift x.shift with hshift | hshift
    · exact units_le_gap_of_shift_lt hshift
    · exact units_le_gap_of_shift_le hxy hshift
  unfold size
  rw [← sub_div, abs_div, abs_of_pos hone, ← mul_div_assoc]
  exact div_le_div_of_nonneg_right hunits (le_of_lt hone)

/--
A fraction whose distance from a number is less than its `2 ^ 54`th part is read as
this number.
-/
theorem ofRat_eq_abs_of_near {x : Number} (hx : x.Finite) {q : ℚ} (hq : 0 ≤ q)
    (hnear : 2 ^ 54 * |q - x.size| < x.size) : ofRat q = x.abs := by
  have hlimit : q < limit := by
    have hle := size_le hx
    have habs := le_abs_self (q - x.size)
    have hpower : (twoTo 971 : ℚ) = twoTo 970 * 2 := by
      have hnat : twoTo 971 = twoTo 970 * 2 := by
        rw [show (2 : ℕ) = twoTo 1 by rw [twoTo_eq, Nat.pow_one], ← twoTo_add]
      exact_mod_cast hnat
    have hpos : (0 : ℚ) < twoTo 970 := Nat.cast_pos.mpr (twoTo_pos 970)
    rw [hpower] at hle
    unfold limit
    linarith
  have hnearest := nearest_ofRat hq hlimit
  have hvalue : (ofRat q).value = (ofRat q).size := value_of_not_negative (negative_ofRat q)
  have hleast := hnearest.least x.abs (fields_abs hx).1
  rw [hvalue, value_abs hx] at hleast
  have hclose : 2 ^ 53 * |x.size - (ofRat q).size| < x.size := by
    have htriangle := abs_sub_le x.size q (ofRat q).size
    rw [abs_sub_comm x.size q] at htriangle
    linarith
  have hunits : x.units = (ofRat q).units := by
    by_contra hne
    linarith [size_le_gap hne]
  have hsize : (ofRat q).size = x.size := by rw [size, size, hunits]
  rw [← abs_of_not_negative (negative_ofRat q)]
  exact abs_eq_of_size hnearest.finite hx hsize

end

end Number
end Lox
