import Mathlib.Algebra.Order.Floor.Semifield
import Mathlib.Data.Rat.Floor
import Lox.Proofs.Number.Nearest

/-!
# The shortest decimal

The decimal that the exact text of a number is made of reads back as the number,
and no decimal with fewer significant digits does.  The magnitude of a number is
found from its binary logarithm; on each decimal grid, if any decimal reads back,
then one of the two neighbours of the number does; and on the grid with seventeen
digits one of them is so near that it does.
-/

namespace Lox
namespace Decimal

def value (d : Decimal) : ℚ := d.digits * 10 ^ d.exponent

def length (d : Decimal) : Nat := (significant (digitsOf d.digits)).length

/-!
# Significant digits
-/

theorem eq_significant_append (digits : List Char) :
    ∃ n, digits = significant digits ++ zeros n := by
  have hzeros : digits.reverse.takeWhile (· == '0') =
      List.replicate (digits.reverse.takeWhile (· == '0')).length '0' := by
    apply List.eq_replicate_of_mem
    intro c hc
    exact beq_iff_eq.mp (List.mem_takeWhile_imp (p := (· == '0')) hc)
  refine ⟨(digits.reverse.takeWhile (· == '0')).length, ?_⟩
  have hsplit := List.takeWhile_append_dropWhile (p := (· == '0')) (l := digits.reverse)
  rw [significant, zeros, ← List.reverse_replicate, ← hzeros, ← List.reverse_append, hsplit,
    List.reverse_reverse]

theorem ofDigitChars_append (first second : List Char) :
    Nat.ofDigitChars 10 (first ++ second) 0 =
      Nat.ofDigitChars 10 first 0 * 10 ^ second.length + Nat.ofDigitChars 10 second 0 := by
  rw [Nat.ofDigitChars_append, Nat.ofDigitChars_eq_ofDigitChars_zero, Nat.mul_comm]

theorem ofDigitChars_lt {digits : List Char} (hdigits : AllDigits digits) :
    Nat.ofDigitChars 10 digits 0 < 10 ^ digits.length := by
  induction digits with
  | nil => exact Nat.one_pos
  | cons c digits ih =>
      rcases List.forall_mem_cons.mp hdigits with ⟨hc, hrest⟩
      have hle : c.toNat - '0'.toNat ≤ 9 := by
        have hbound : c.toNat ≤ '9'.toNat := by
          unfold Char.isDigit at hc
          rw [Bool.and_eq_true, decide_eq_true_iff, decide_eq_true_iff] at hc
          exact UInt32.le_iff_toNat_le.mp hc.2
        exact Nat.sub_le_sub_right hbound _
      have hlt := ih hrest
      have hmul := Nat.mul_le_mul_left (10 ^ digits.length) hle
      rw [Nat.ofDigitChars_cons, Nat.ofDigitChars_eq_ofDigitChars_zero, Nat.mul_zero, Nat.zero_add,
        List.length_cons, Nat.pow_succ]
      omega

theorem ofDigitChars_digitsOf (n : Nat) : Nat.ofDigitChars 10 (digitsOf n) 0 = n :=
  Nat.ofDigitChars_toDigits (by decide) (by decide)

theorem ofDigitChars_significant {n t : Nat}
    (hsplit : digitsOf n = significant (digitsOf n) ++ zeros t) :
    Nat.ofDigitChars 10 (significant (digitsOf n)) 0 * 10 ^ t = n := by
  have hvalue := ofDigitChars_digitsOf n
  rw [hsplit, ofDigitChars_append, zeros, List.length_replicate, Nat.ofDigitChars_replicate_zero,
    Nat.mul_zero, Nat.add_zero] at hvalue
  exact hvalue

theorem digitsOf_pow (n : Nat) : digitsOf (10 ^ n) = '1' :: zeros n := by
  induction n with
  | zero => rfl
  | succ n ih =>
      have hle : 10 ≤ 10 ^ (n + 1) := by
        rw [Nat.pow_succ]
        exact Nat.le_mul_of_pos_left 10 (Nat.pow_pos (by decide))
      rw [digitsOf, Nat.toDigits_of_base_le (by decide) hle, Nat.pow_succ,
        Nat.mul_div_cancel _ (by decide), Nat.mul_mod_left, ← digitsOf, ih, zeros, zeros,
        List.replicate_succ', List.cons_append]
      rfl

/-- A number of at most `n` digits, or the next one, has at most `n` significant digits. -/
theorem length_significant_le {n c : Nat} (hn : 0 < n) (hc : c ≤ 10 ^ n) :
    (significant (digitsOf c)).length ≤ n := by
  rcases Nat.eq_or_lt_of_le hc with rfl | hlt
  · have hone : significant (digitsOf (10 ^ n)) = ['1'] := by
      rw [digitsOf_pow, significant, List.reverse_cons, zeros, List.reverse_replicate,
        List.dropWhile_append_of_pos]
      · rfl
      · intro c hc
        exact beq_iff_eq.mpr (List.eq_of_mem_replicate hc)
    rw [hone]
    exact hn
  · have hlength : (digitsOf c).length ≤ n :=
      (Nat.length_toDigits_le_iff (by decide) hn).mpr hlt
    unfold significant
    rw [List.length_reverse]
    apply Nat.le_trans (List.dropWhile_sublist _).length_le
    rw [List.length_reverse]
    exact hlength

end Decimal

namespace Number

/-!
# Powers of ten and powers of two
-/

theorem tenTo_643_le : (10 : ℚ) ^ 643 ≤ 2 ^ 2136 := by
  have hnat : tenTo 643 ≤ twoTo 2136 := by decide +kernel
  rw [tenTo_eq, twoTo_eq] at hnat
  exact_mod_cast hnat

theorem twoTo_485_le : (2 : ℚ) ^ 485 ≤ 10 ^ 146 := by
  have hnat : twoTo 485 ≤ tenTo 146 := by decide +kernel
  rw [tenTo_eq, twoTo_eq] at hnat
  exact_mod_cast hnat

/--
Where a power of `a` is below one of `b`, so is every power with a smaller ratio of
exponents.
-/
theorem zpow_le_pow_of_ratio {a b : ℚ} (ha : 1 ≤ a) (hb : 0 ≤ b) {p q : ℕ} (hq : q ≠ 0)
    (hpq : a ^ p ≤ b ^ q) {g : Int} {n : ℕ} (hratio : q * g ≤ p * n) : a ^ g ≤ b ^ n := by
  have ha' : 0 < a := by linarith
  rw [← pow_le_pow_iff_left₀ (by positivity) (by positivity) hq]
  calc (a ^ g) ^ q = a ^ (q * g) := by rw [mul_comm, zpow_mul, zpow_natCast]
    _ ≤ a ^ ((p : Int) * n) := zpow_le_zpow_right₀ ha hratio
    _ = (a ^ p) ^ n := by rw [zpow_mul, zpow_natCast, zpow_natCast]
    _ ≤ (b ^ q) ^ n := pow_le_pow_left₀ (by positivity) hpq n
    _ = (b ^ n) ^ q := pow_right_comm _ _ _

theorem zpow_le_zpow_of_ratio {a b : ℚ} (ha : 1 ≤ a) (hb : 1 ≤ b) {p q r s : ℕ} (hq : q ≠ 0)
    (hs : s ≠ 0) (hpq : a ^ p ≤ b ^ q) (hrs : b ^ r ≤ a ^ s) {g n : Int}
    (hlow : q * g ≤ p * n) (hhigh : r * g ≤ s * n) : a ^ g ≤ b ^ n := by
  have ha' : 0 < a := by linarith
  have hb' : 0 < b := by linarith
  by_cases hn : 0 ≤ n
  · lift n to ℕ using hn
    exact zpow_le_pow_of_ratio ha (le_of_lt hb') hq hpq hlow
  · -- Both exponents are negative, and the inverses are the other way round.
    have hg : g ≤ 0 := by
      by_contra hg
      have hleft : 0 ≤ (r : Int) * g := mul_nonneg (Nat.cast_nonneg r) (by omega)
      have hright : (s : Int) * n < 0 :=
        mul_neg_of_pos_of_neg (Nat.cast_pos.mpr (Nat.pos_of_ne_zero hs)) (by omega)
      omega
    have hinv : b ^ (-n) ≤ a ^ (-g).toNat := by
      apply zpow_le_pow_of_ratio hb (le_of_lt ha') hs hrs
      rw [Int.toNat_of_nonneg (by omega), mul_neg, mul_neg]
      exact neg_le_neg hhigh
    rw [← zpow_natCast, Int.toNat_of_nonneg (by omega), zpow_neg, zpow_neg] at hinv
    exact (inv_le_inv₀ (by positivity) (by positivity)).mp hinv

/-- The decimal logarithm of two lies between `643 / 2136` and `146 / 485`. -/
theorem tenTo_le_twoTo {g n : Int} (hlow : 2136 * g ≤ 643 * n) (hhigh : 485 * g ≤ 146 * n) :
    (10 : ℚ) ^ g ≤ 2 ^ n :=
  zpow_le_zpow_of_ratio (by norm_num) (by norm_num) (Nat.succ_ne_zero 2135)
    (Nat.succ_ne_zero 145) tenTo_643_le twoTo_485_le hlow hhigh

theorem twoTo_le_tenTo {g n : Int} (hlow : 643 * n ≤ 2136 * g) (hhigh : 146 * n ≤ 485 * g) :
    (2 : ℚ) ^ n ≤ 10 ^ g :=
  zpow_le_zpow_of_ratio (by norm_num) (by norm_num) (Nat.succ_ne_zero 145)
    (Nat.succ_ne_zero 2135) twoTo_485_le tenTo_643_le hhigh hlow

/-!
# The magnitude
-/

theorem belowTenTo_iff (x : Number) (k : Int) : x.belowTenTo k = true ↔ x.size < 10 ^ k := by
  have hone : (0 : ℚ) < one := Nat.cast_pos.mpr one_pos
  have hpos : (0 : ℚ) < tenTo (-k).toNat := Nat.cast_pos.mpr (tenTo_pos _)
  unfold belowTenTo size
  rw [decide_eq_true_iff, ← tenTo_div_tenTo, div_lt_div_iff₀ hone hpos]
  exact_mod_cast Iff.rfl

def binaryLog (x : Number) : Int := (x.units.log2 : Int) - 1074

theorem size_between {x : Number} (hx : x.units ≠ 0) :
    (2 : ℚ) ^ x.binaryLog ≤ x.size ∧ x.size < 2 ^ (x.binaryLog + 1) := by
  have hone : (one : ℚ) = 2 ^ ((1074 : ℕ) : Int) := cast_twoTo 1074
  rw [Nat.cast_ofNat] at hone
  have hpos : (0 : ℚ) < 2 ^ (1074 : Int) := by positivity
  unfold size binaryLog
  rw [hone, le_div_iff₀ hpos, div_lt_iff₀ hpos, ← zpow_add₀ (by norm_num),
    ← zpow_add₀ (by norm_num), sub_add_cancel,
    show (x.units.log2 : Int) - 1074 + 1 + 1074 = ((x.units.log2 + 1 : ℕ) : Int) by
      push_cast; ring, zpow_natCast, zpow_natCast]
  constructor
  · exact_mod_cast Nat.log2_self_le hx
  · exact_mod_cast Nat.lt_log2_self

theorem binaryLog_le {x : Number} (hfinite : x.Finite) (hx : x.units ≠ 0) : x.binaryLog ≤ 1023 := by
  have hshift := shift_le hfinite
  have hlog := x.log2_units
  have hlt : x.units.log2 < 53 + x.shift := by
    rw [Nat.log2_lt hx, units_eq, Nat.pow_add]
    exact Nat.mul_lt_mul_of_pos_right x.significand_lt (Nat.two_pow_pos _)
  unfold binaryLog
  omega

/-- The magnitude is the number of places of the number before the decimal point. -/
theorem magnitude_spec {x : Number} (hfinite : x.Finite) (hx : x.units ≠ 0) :
    (10 : ℚ) ^ (x.magnitude - 1) ≤ x.size ∧ x.size < 10 ^ x.magnitude := by
  rcases size_between hx with ⟨hlow, hhigh⟩
  have hlog := binaryLog_le hfinite hx
  have hlog' : -1074 ≤ x.binaryLog := by
    unfold binaryLog
    omega
  have hguess : x.magnitude =
      if x.belowTenTo (x.binaryLog * 30103 / 100000 + 1) then x.binaryLog * 30103 / 100000 + 1
      else x.binaryLog * 30103 / 100000 + 1 + 1 := rfl
  rw [hguess]
  split
  · next hbelow =>
      constructor
      · rw [add_sub_cancel_right]
        exact (tenTo_le_twoTo (by omega) (by omega)).trans hlow
      · exact (belowTenTo_iff x _).mp hbelow
  · next hbelow =>
      rw [belowTenTo_iff, not_lt] at hbelow
      constructor
      · rw [add_sub_cancel_right]
        exact hbelow
      · exact hhigh.trans_le (twoTo_le_tenTo (by omega) (by omega))

/-!
# Decimal grids
-/

attribute [local irreducible] one

/-- The least number of `n` digits, on the grid that cuts off below `n` digits. -/
theorem pow_mul_grid {n : Nat} (hn : 0 < n) (k : Int) :
    ((10 ^ (n - 1) : ℕ) : ℚ) * 10 ^ (k - n) = 10 ^ (k - 1) := by
  rw [Nat.cast_pow, Nat.cast_ofNat, ← zpow_natCast, ← zpow_add₀ (by norm_num), Nat.cast_sub hn]
  congr 1
  push_cast
  ring

/-- The neighbour of a number below it on a decimal grid, in steps of the grid. -/
def lower (x : Number) (e : Int) : Nat := (x.stepsOf e).1

theorem lower_eq_floor (x : Number) (e : Int) : x.lower e = ⌊x.size / 10 ^ e⌋₊ := by
  have hratio : x.size / 10 ^ e =
      ((x.units * tenTo (-e).toNat : ℕ) : ℚ) / ((one * tenTo e.toNat : ℕ) : ℚ) := by
    have hone : (one : ℚ) ≠ 0 := Nat.cast_ne_zero.mpr (Nat.ne_of_gt one_pos)
    have hten : ∀ n, (tenTo n : ℚ) ≠ 0 := fun n => Nat.cast_ne_zero.mpr (Nat.ne_of_gt (tenTo_pos n))
    have hhigh := hten e.toNat
    have hlow := hten (-e).toNat
    unfold size
    rw [← tenTo_div_tenTo, Nat.cast_mul, Nat.cast_mul]
    field_simp
  rw [hratio, Nat.floor_div_eq_div]
  rfl

theorem lower_mul_le (x : Number) (e : Int) : (x.lower e : ℚ) * 10 ^ e ≤ x.size := by
  have hpos : (0 : ℚ) < 10 ^ e := by positivity
  rw [← le_div_iff₀ hpos, lower_eq_floor]
  exact Nat.floor_le (div_nonneg x.size_nonneg (le_of_lt hpos))

theorem lt_upper_mul (x : Number) (e : Int) : x.size < ((x.lower e + 1 : ℕ) : ℚ) * 10 ^ e := by
  have hpos : (0 : ℚ) < 10 ^ e := by positivity
  rw [← div_lt_iff₀ hpos, lower_eq_floor, Nat.cast_add_one]
  exact Nat.lt_floor_add_one _

theorem readsBack_iff {x : Number} {digits : Nat} {e : Int} :
    x.readsBack digits e = true ↔ ofRat (digits * 10 ^ e) = x.abs := by
  unfold readsBack
  rw [beq_iff_eq, ofDecimal_eq_ofRat]

/-- What lies between two fractions that are read as the same number is read as it, too. -/
theorem ofRat_eq_of_between {p q r : ℚ} {y : Number} (hp : 0 ≤ p) (hpq : p ≤ q) (hqr : q ≤ r)
    (hlow : ofRat p = y) (hhigh : ofRat r = y) : ofRat q = y := by
  apply ext_toNat
  apply Nat.le_antisymm
  · rw [← hhigh]
    exact toNat_ofRat_mono (hp.trans hpq) hqr
  · rw [← hlow]
    exact toNat_ofRat_mono hp hpq

theorem onGrid?_eq_some {x : Number} {e : Int} {d : Decimal} (hd : x.onGrid? e = some d) :
    d.exponent = e ∧ (d.digits = x.lower e ∨ d.digits = x.lower e + 1) := by
  unfold onGrid? at hd
  simp only at hd
  split at hd
  · split at hd <;> cases hd
    · exact ⟨rfl, Or.inl rfl⟩
    · exact ⟨rfl, Or.inr rfl⟩
  · cases hd
    exact ⟨rfl, Or.inl rfl⟩
  · cases hd
    exact ⟨rfl, Or.inr rfl⟩
  · cases hd

theorem onGrid?_eq_none {x : Number} {e : Int} (hnone : x.onGrid? e = none) :
    x.readsBack (x.lower e) e = false ∧ x.readsBack (x.lower e + 1) e = false := by
  unfold onGrid? at hnone
  simp only at hnone
  split at hnone
  · split at hnone <;> cases hnone
  · cases hnone
  · cases hnone
  · next hlow hhigh => exact ⟨hlow, hhigh⟩

/-- If a decimal on the grid reads back, the search on the grid succeeds. -/
theorem onGrid?_ne_none {x : Number} (hx : x.Finite) {digits : Nat} {e : Int}
    (hback : ofRat (digits * 10 ^ e) = x.abs) : x.onGrid? e ≠ none := by
  have hpos : (0 : ℚ) < 10 ^ e := by positivity
  intro hnone
  rcases onGrid?_eq_none hnone with ⟨hlow, hhigh⟩
  rw [← Bool.not_eq_true, readsBack_iff] at hlow hhigh
  by_cases hle : digits ≤ x.lower e
  · have hle' : (digits : ℚ) * 10 ^ e ≤ x.lower e * 10 ^ e :=
      mul_le_mul_of_nonneg_right (Nat.cast_le.mpr hle) (le_of_lt hpos)
    exact hlow (ofRat_eq_of_between (by positivity) hle' (x.lower_mul_le e) hback (ofRat_size hx))
  · have hle' : ((x.lower e + 1 : ℕ) : ℚ) * 10 ^ e ≤ digits * 10 ^ e :=
      mul_le_mul_of_nonneg_right (Nat.cast_le.mpr (Nat.lt_of_not_le hle)) (le_of_lt hpos)
    exact hhigh (ofRat_eq_of_between x.size_nonneg (le_of_lt (x.lt_upper_mul e)) hle'
      (ofRat_size hx) hback)

/-- On the grid with seventeen digits, the nearer neighbour reads back. -/
theorem onGrid?_seventeen {x : Number} (hfinite : x.Finite) (hx : x.units ≠ 0) :
    x.onGrid? (x.magnitude - 17) ≠ none := by
  have hstep : ((10 ^ 16 : ℕ) : ℚ) * 10 ^ (x.magnitude - 17) ≤ x.size := by
    have hpower : ((10 ^ 16 : ℕ) : ℚ) * 10 ^ (x.magnitude - 17) = 10 ^ (x.magnitude - 1) :=
      pow_mul_grid (Nat.succ_pos 16) x.magnitude
    rw [hpower]
    exact (magnitude_spec hfinite hx).1
  push_cast at hstep
  have hpos : (0 : ℚ) < 10 ^ (x.magnitude - 17) := by positivity
  have hlow := x.lower_mul_le (x.magnitude - 17)
  have hhigh := x.lt_upper_mul (x.magnitude - 17)
  by_cases hnearer : x.size - x.lower (x.magnitude - 17) * 10 ^ (x.magnitude - 17) ≤
      10 ^ (x.magnitude - 17) / 2
  · have hback : ofRat (x.lower (x.magnitude - 17) * 10 ^ (x.magnitude - 17)) = x.abs := by
      apply ofRat_eq_abs_of_near hfinite (by positivity)
      rw [abs_of_nonpos (by linarith)]
      linarith
    exact onGrid?_ne_none hfinite hback
  · have hback :
        ofRat ((x.lower (x.magnitude - 17) + 1 : ℕ) * 10 ^ (x.magnitude - 17)) = x.abs := by
      apply ofRat_eq_abs_of_near hfinite (by positivity)
      push_cast at hhigh ⊢
      rw [abs_of_nonneg (by linarith)]
      linarith
    exact onGrid?_ne_none hfinite hback

/-!
# The search
-/

theorem onGrid?_eq_none_before {x : Number} {n : Nat} {e : Int} (hfirst : x.onGrid? e = none)
    (hrest : ∀ j < n, x.onGrid? (e - 1 - j) = none) : ∀ j < n + 1, x.onGrid? (e - j) = none := by
  intro j hj
  cases j with
  | zero => rwa [Nat.cast_zero, sub_zero]
  | succ j =>
      have hnone := hrest j (Nat.lt_of_succ_lt_succ hj)
      rwa [sub_sub, add_comm, ← Nat.cast_add_one] at hnone

/-- The search stops at the first grid where it succeeds, if there is one. -/
theorem firstOnGrid_cases (x : Number) (n : Nat) (e : Int) :
    (∃ i < n, x.onGrid? (e - i) = some (x.firstOnGrid n e) ∧
        ∀ j < i, x.onGrid? (e - j) = none) ∨
      ∀ j < n, x.onGrid? (e - j) = none := by
  induction n generalizing e with
  | zero =>
      right
      intro j hj
      exact absurd hj (Nat.not_lt_zero j)
  | succ n ih =>
      unfold firstOnGrid
      split
      · next d hd =>
          left
          refine ⟨0, Nat.succ_pos n, ?_, ?_⟩
          · rwa [Nat.cast_zero, sub_zero]
          · intro j hj
            exact absurd hj (Nat.not_lt_zero j)
      · next hnone =>
          rcases ih (e - 1) with ⟨i, hi, hsome, hbefore⟩ | hall
          · left
            refine ⟨i + 1, Nat.succ_lt_succ hi, ?_, onGrid?_eq_none_before hnone hbefore⟩
            rwa [sub_sub, add_comm, ← Nat.cast_add_one] at hsome
          · exact Or.inr (onGrid?_eq_none_before hnone hall)

/-- A decimal with `n` digits that reads back, found on the first grid where there is one. -/
structure Found (x : Number) (n : Nat) (d : Decimal) : Prop where
  pos : 0 < n
  exponent : d.exponent = x.magnitude - n
  neighbour : d.digits = x.lower (x.magnitude - n) ∨ d.digits = x.lower (x.magnitude - n) + 1
  back : ofRat d.value = x.abs
  first : ∀ m, 0 < m → m < n → x.onGrid? (x.magnitude - m) = none

theorem exists_found {x : Number} (hfinite : x.Finite) (hx : x.units ≠ 0) :
    ∃ n, Found x n x.shortest := by
  have hgrid : ∀ j : Nat, x.magnitude - 1 - j = x.magnitude - (j + 1 : ℕ) := by
    intro j
    push_cast
    ring
  rcases firstOnGrid_cases x 17 (x.magnitude - 1) with ⟨i, _, hsome, hbefore⟩ | hall
  · refine ⟨i + 1, ?_⟩
    have hback := readsBack_iff.mp (readsBack_of_onGrid? hsome)
    rw [hgrid] at hsome
    rcases onGrid?_eq_some hsome with ⟨hexponent, hneighbour⟩
    refine ⟨Nat.succ_pos i, hexponent, hneighbour, hback, ?_⟩
    intro m hpos hm
    have hnone := hbefore (m - 1) (by omega)
    rwa [hgrid, Nat.sub_add_cancel hpos] at hnone
  · have hnone := hall 16 (by decide)
    rw [hgrid] at hnone
    exact absurd hnone (onGrid?_seventeen hfinite hx)

namespace Found

variable {x : Number} {n : Nat} {d : Decimal}

theorem digits_between (hfound : Found x n d) (hfinite : x.Finite) (hx : x.units ≠ 0) :
    10 ^ (n - 1) ≤ d.digits ∧ d.digits ≤ 10 ^ n := by
  have hpos : (0 : ℚ) < 10 ^ (x.magnitude - n) := by positivity
  rcases magnitude_spec hfinite hx with ⟨hmagnitude, hmagnitude'⟩
  have hlow : 10 ^ (n - 1) ≤ x.lower (x.magnitude - n) := by
    rw [lower_eq_floor]
    apply Nat.le_floor
    rw [le_div_iff₀ hpos, pow_mul_grid hfound.pos]
    exact hmagnitude
  have hhigh : x.lower (x.magnitude - n) < 10 ^ n := by
    rw [lower_eq_floor, Nat.floor_lt (div_nonneg x.size_nonneg (le_of_lt hpos)), div_lt_iff₀ hpos,
      Nat.cast_pow, Nat.cast_ofNat, ← zpow_natCast, ← zpow_add₀ (by norm_num), add_sub_cancel]
    exact hmagnitude'
  rcases hfound.neighbour with hdigits | hdigits <;> rw [hdigits] <;> omega

theorem le_value (hfound : Found x n d) (hfinite : x.Finite) (hx : x.units ≠ 0) :
    (10 : ℚ) ^ (x.magnitude - 1) ≤ d.value := by
  rw [← pow_mul_grid hfound.pos, Decimal.value, hfound.exponent]
  apply mul_le_mul_of_nonneg_right _ (by positivity)
  exact Nat.cast_le.mpr (hfound.digits_between hfinite hx).1

theorem le_of_back (hfound : Found x n d) (hfinite : x.Finite) (hx : x.units ≠ 0) {c m : Nat}
    {e : Int} (hc : c < 10 ^ m) (hm : 0 < m) (hback : ofRat (c * 10 ^ e) = x.abs) : n ≤ m := by
  by_contra hlt
  apply absurd (hfound.first m hm (Nat.lt_of_not_le hlt))
  by_cases hgrid : x.magnitude - m ≤ e
  · -- The decimal is on the grid with `m` digits.
    have hvalue : ((c * 10 ^ (e - (x.magnitude - m)).toNat : ℕ) : ℚ) * 10 ^ (x.magnitude - m) =
        c * 10 ^ e := by
      rw [Nat.cast_mul, Nat.cast_pow, Nat.cast_ofNat, mul_assoc, ← zpow_natCast,
        Int.toNat_of_nonneg (Int.sub_nonneg_of_le hgrid), ← zpow_add₀ (by norm_num), sub_add_cancel]
    apply onGrid?_ne_none hfinite
    rw [hvalue]
    exact hback
  · -- The decimal is too small for its digits: a power of ten lies between it and the number.
    have hbelow : (c : ℚ) * 10 ^ e ≤ 10 ^ (x.magnitude - 1) := by
      calc (c : ℚ) * 10 ^ e ≤ 10 ^ (m : Int) * 10 ^ e := by
            apply mul_le_mul_of_nonneg_right _ (by positivity)
            rw [zpow_natCast]
            exact_mod_cast Nat.le_of_lt hc
        _ = 10 ^ ((m : Int) + e) := (zpow_add₀ (by norm_num) _ _).symm
        _ ≤ 10 ^ (x.magnitude - 1) := zpow_le_zpow_right₀ (by norm_num) (by omega)
    apply onGrid?_ne_none hfinite
    rw [pow_mul_grid hm]
    exact ofRat_eq_of_between (by positivity) hbelow (magnitude_spec hfinite hx).1 hback
      (ofRat_size hfinite)

end Found

/--
The decimal that the exact text of a number shows reads back as the magnitude of
the number, and so does no decimal with fewer significant digits.
-/
theorem shortest_fewest {x : Number} (hfinite : x.Finite) (hx : x.units ≠ 0) :
    ofDecimal x.shortest.digits x.shortest.exponent = x.abs ∧
      ∀ d : Decimal, ofDecimal d.digits d.exponent = x.abs → x.shortest.length ≤ d.length := by
  rcases exists_found hfinite hx with ⟨n, hfound⟩
  constructor
  · rw [ofDecimal_eq_ofRat]
    exact hfound.back
  · intro d hback
    have hdigits : d.digits ≠ 0 := by
      apply digits_ne_zero_of_readsBack hx
      exact beq_iff_eq.mpr hback
    have hlength : 0 < d.length :=
      List.length_pos_of_ne_nil (Decimal.significant_ne_nil (Decimal.exists_digit_ne_zero hdigits))
    rcases Decimal.eq_significant_append (Decimal.digitsOf d.digits) with ⟨t, hsplit⟩
    have hvalue := Decimal.ofDigitChars_significant hsplit
    have hc := Decimal.ofDigitChars_lt
      (Decimal.allDigits_significant (Decimal.allDigits_digitsOf d.digits))
    generalize Nat.ofDigitChars 10 (Decimal.significant (Decimal.digitsOf d.digits)) 0 = c
      at hvalue hc
    have hback' : ofRat (c * 10 ^ (t + d.exponent)) = x.abs := by
      rw [← hback, ofDecimal_eq_ofRat, ← hvalue, zpow_add₀ (by norm_num), zpow_natCast, ← mul_assoc]
      push_cast
      rfl
    calc x.shortest.length ≤ n :=
          Decimal.length_significant_le hfound.pos (hfound.digits_between hfinite hx).2
      _ ≤ d.length := hfound.le_of_back hfinite hx hc hlength hback'

end Number
end Lox
