import Lox.Proofs.Number.Shortest
import Lox.Proofs.Scan.LongestMatch

/-!
# Printed numbers read back

The printed text of a number that is neither too large nor too small has no
exponent, so it is a numeral of the language, after a minus sign if the number has
one.  The scanner reads the numeral as the magnitude of the number, to the last
bit: a whole number is written with all its digits, and any other one with the
shortest digits that read back.
-/

namespace Lox
namespace Decimal

/-!
# Positional texts
-/

/-- A text with digits before and behind a decimal point, and its value. -/
structure Placed (text : List Char) (q : ℚ) (whole places : List Char) : Prop where
  text_eq : text = whole ++ '.' :: places
  whole_ne_nil : whole ≠ []
  whole_digits : AllDigits whole
  places_ne_nil : places ≠ []
  places_digits : AllDigits places
  value : (Nat.ofDigitChars 10 (whole ++ places) 0 : ℚ) * 10 ^ (-(places.length : Int)) = q

theorem placed_positional {digits : List Char} (hne : digits ≠ []) (hdigits : AllDigits digits)
    (point : Int) : ∃ whole places, Placed (positional digits point)
      (Nat.ofDigitChars 10 digits 0 * 10 ^ (point - digits.length)) whole places := by
  have hzeros : ∀ n, Nat.ofDigitChars 10 (zeros n) 0 = 0 := by
    intro n
    rw [zeros, Nat.ofDigitChars_replicate_zero, Nat.mul_zero]
  have hzero : Nat.ofDigitChars 10 ['0'] 0 = 0 := rfl
  unfold positional
  by_cases hpoint : point ≤ 0
  · rw [if_pos hpoint]
    refine ⟨['0'], zeros (-point).toNat ++ digits, rfl, List.cons_ne_nil _ _, ?_, ?_, ?_, ?_⟩
    · exact allDigits_zeros 1
    · exact List.append_ne_nil_of_right_ne_nil _ hne
    · exact allDigits_append (allDigits_zeros _) hdigits
    · rw [ofDigitChars_append, ofDigitChars_append, hzero, hzeros, Nat.zero_mul, Nat.zero_mul,
        Nat.zero_add, Nat.zero_add, List.length_append, zeros, List.length_replicate]
      congr 2
      omega
  · rw [if_neg hpoint]
    by_cases hlength : digits.length ≤ point.toNat
    · rw [if_pos hlength]
      refine ⟨digits ++ zeros (point.toNat - digits.length), ['0'], rfl, ?_, ?_,
        List.cons_ne_nil _ _, allDigits_zeros 1, ?_⟩
      · exact List.append_ne_nil_of_left_ne_nil hne _
      · exact allDigits_append hdigits (allDigits_zeros _)
      · rw [ofDigitChars_append, ofDigitChars_append, hzero, hzeros, Nat.add_zero, Nat.add_zero,
          List.length_singleton, zeros, List.length_replicate, Nat.mul_assoc, ← Nat.pow_add,
          Nat.cast_mul, Nat.cast_pow, Nat.cast_ofNat, mul_assoc, ← zpow_natCast,
          ← zpow_add₀ (by norm_num)]
        congr 2
        omega
    · rw [if_neg hlength]
      refine ⟨digits.take point.toNat, digits.drop point.toNat, rfl, ?_, ?_, ?_, ?_, ?_⟩
      · apply List.ne_nil_of_length_pos
        rw [List.length_take]
        omega
      · exact fun c hc => hdigits c (List.mem_of_mem_take hc)
      · apply List.ne_nil_of_length_pos
        rw [List.length_drop]
        omega
      · exact fun c hc => hdigits c (List.mem_of_mem_drop hc)
      · rw [List.take_append_drop, List.length_drop]
        congr 2
        omega

def point (d : Decimal) : Int := (digitsOf d.digits).length + d.exponent

theorem value_between {d : Decimal} (hd : d.digits ≠ 0) :
    (10 : ℚ) ^ (d.point - 1) ≤ d.value ∧ d.value < 10 ^ d.point := by
  have hpos : (0 : ℚ) < 10 ^ d.exponent := by positivity
  have hlength : 0 < (digitsOf d.digits).length := List.length_pos_of_ne_nil Nat.toDigits_ne_nil
  have hlow : 10 ^ ((digitsOf d.digits).length - 1) ≤ d.digits := by
    by_cases hone : (digitsOf d.digits).length = 1
    · rw [hone]
      exact Nat.pos_of_ne_zero hd
    · have hiff : (digitsOf d.digits).length ≤ (digitsOf d.digits).length - 1 ↔ _ :=
        Nat.length_toDigits_le_iff (by decide) (by omega)
      omega
  have hhigh : d.digits < 10 ^ (digitsOf d.digits).length :=
    (Nat.length_toDigits_le_iff (by decide) hlength).mp (Nat.le_refl _)
  unfold value point
  constructor
  · rw [add_sub_right_comm, zpow_add₀ (by norm_num)]
    apply mul_le_mul_of_nonneg_right _ (le_of_lt hpos)
    rw [← Nat.cast_one, ← Nat.cast_sub hlength, zpow_natCast]
    exact_mod_cast hlow
  · rw [zpow_add₀ (by norm_num)]
    apply mul_lt_mul_of_pos_right _ hpos
    rw [zpow_natCast]
    exact_mod_cast hhigh

/-- Decimals from `0.0001` on and below `10 ^ 16` have a positional text. -/
theorem placed_layout {d : Decimal} (hlow : (10 : ℚ) ^ (-4 : Int) ≤ d.value)
    (hhigh : d.value < 10 ^ (16 : Int)) : ∃ whole places, Placed d.layout d.value whole places := by
  have hd : d.digits ≠ 0 := by
    intro hzero
    have hpos : (0 : ℚ) < 10 ^ (-4 : Int) := by positivity
    rw [value, hzero, Nat.cast_zero, zero_mul] at hlow
    linarith
  rcases value_between hd with ⟨hlow', hhigh'⟩
  have hpoint : -4 < d.point := (zpow_lt_zpow_iff_right₀ (by norm_num)).mp (hlow.trans_lt hhigh')
  have hpoint' : d.point - 1 < 16 :=
    (zpow_lt_zpow_iff_right₀ (by norm_num)).mp (hlow'.trans_lt hhigh)
  have hrange : -4 ≤ d.point - 1 ∧ d.point - 1 < 16 := ⟨by omega, hpoint'⟩
  have hlayout : d.layout = positional (significant (digitsOf d.digits)) d.point := if_pos hrange
  have hvalue : d.value = Nat.ofDigitChars 10 (significant (digitsOf d.digits)) 0 *
      10 ^ (d.point - (significant (digitsOf d.digits)).length) := by
    rcases eq_significant_append (digitsOf d.digits) with ⟨t, hsplit⟩
    have hdigits := ofDigitChars_significant hsplit
    have hlength := congrArg List.length hsplit
    rw [List.length_append, zeros, List.length_replicate] at hlength
    have hexponent : d.point - (significant (digitsOf d.digits)).length = t + d.exponent := by
      rw [point, hlength]
      push_cast
      ring
    rw [hexponent, value, zpow_add₀ (by norm_num), zpow_natCast, ← mul_assoc]
    congr 1
    exact_mod_cast hdigits.symm
  rw [hlayout, hvalue]
  exact placed_positional (significant_ne_nil (exists_digit_ne_zero hd))
    (allDigits_significant (allDigits_digitsOf d.digits)) d.point

end Decimal

namespace Number

section

attribute [local irreducible] twoTo

theorem isIntegral_of_le_size {x : Number} (hx : x.Finite) (hsize : 2 ^ 53 ≤ x.size) :
    x.isIntegral = true := by
  have hunits : 2 ^ 53 * one ≤ x.units := by
    unfold size at hsize
    rw [le_div_iff₀ (Nat.cast_pos.mpr one_pos)] at hsize
    exact_mod_cast hsize
  have hshift : 1074 ≤ x.shift := by
    by_contra hlt
    have hle : twoTo x.shift ≤ one := twoTo_le_twoTo (Nat.le_of_not_le hlt)
    have hbound : x.units < 2 ^ 53 * one := by
      rw [units_eq, ← twoTo_eq]
      calc x.significand * twoTo x.shift < 2 ^ 53 * twoTo x.shift :=
            Nat.mul_lt_mul_of_pos_right x.significand_lt (twoTo_pos _)
        _ ≤ 2 ^ 53 * one := Nat.mul_le_mul_left _ hle
    omega
  have hdvd : one ∣ x.units := by
    rw [units_eq, ← twoTo_eq]
    apply Dvd.dvd.mul_left
    have hsplit : twoTo x.shift = one * twoTo (x.shift - 1074) := by
      rw [one, ← twoTo_add, Nat.add_sub_cancel' hshift]
    exact Dvd.intro _ hsplit.symm
  unfold isIntegral
  rw [Bool.and_eq_true, bne_iff_ne, beq_iff_eq]
  exact ⟨hx, Nat.mod_eq_zero_of_dvd hdvd⟩

end

theorem size_eq_of_ofRat {x y : Number} (hx : x.Finite) (hy : y.Finite)
    (hread : ofRat y.size = x.abs) : x.size = y.size := by
  rw [ofRat_size hy] at hread
  rw [← value_abs hx, ← hread, value_abs hy]

theorem exists_tenTo_sixteen : ∃ y : Number, y.Finite ∧ y.size = 10 ^ (16 : Int) := by
  refine ⟨⟨0x4341C37937E08000⟩, by decide +kernel, ?_⟩
  have hunits : (⟨0x4341C37937E08000⟩ : Number).units = tenTo 16 * one := by decide +kernel
  have hone : (one : ℚ) ≠ 0 := Nat.cast_ne_zero.mpr (Nat.ne_of_gt one_pos)
  rw [size, hunits, Nat.cast_mul, mul_div_cancel_right₀ _ hone, cast_tenTo]
  rfl

attribute [local irreducible] one

theorem units_ne_zero_of_le_size {x : Number} {q : ℚ} (hq : 0 < q) (hle : q ≤ x.size) :
    x.units ≠ 0 := by
  intro hzero
  rw [size, hzero, Nat.cast_zero, zero_div] at hle
  linarith

/-- Within the range of positional texts, the shortest decimal does not leave it. -/
theorem shortest_between {x : Number} (hfinite : x.Finite) (hlow : (10 : ℚ) ^ (-4 : Int) ≤ x.size)
    (hhigh : x.size < 10 ^ (16 : Int)) :
    (10 : ℚ) ^ (-4 : Int) ≤ x.shortest.value ∧ x.shortest.value < 10 ^ (16 : Int) := by
  have hx : x.units ≠ 0 := units_ne_zero_of_le_size (by positivity) hlow
  rcases exists_found hfinite hx with ⟨n, hfound⟩
  constructor
  · have hmagnitude : -4 < x.magnitude :=
      (zpow_lt_zpow_iff_right₀ (by norm_num)).mp (hlow.trans_lt (magnitude_spec hfinite hx).2)
    calc (10 : ℚ) ^ (-4 : Int) ≤ 10 ^ (x.magnitude - 1) :=
          zpow_le_zpow_right₀ (by norm_num) (by omega)
      _ ≤ x.shortest.value := hfound.le_value hfinite hx
  · -- The only number that `10 ^ 16` is read as is `10 ^ 16`.
    by_contra hge
    rcases exists_tenTo_sixteen with ⟨y, hy, hsize⟩
    have hread : ofRat y.size = x.abs := by
      rw [hsize]
      exact ofRat_eq_of_between x.size_nonneg (le_of_lt hhigh) (le_of_not_gt hge)
        (ofRat_size hfinite) hfound.back
    rw [size_eq_of_ofRat hfinite hy hread, hsize] at hhigh
    exact lt_irrefl _ hhigh

end Number

theorem scan_numeral {text : List Char} {literal : Literal}
    (hrule : Segment.Rule (.token .number text literal)) (hline : '\n' ∉ text) (sign : Bool) :
    scan (String.ofList (if sign then '-' :: text else text)) =
      ⟨(if sign then [⟨.minus, "-", .nil, 1⟩] else []) ++
        [⟨.number, String.ofList text, literal, 1⟩], 1, []⟩ := by
  have hnumeral : Segment.Tiles [.token .number text literal] text := by
    have htiles := Segment.Tiles.cons hrule.leads .nil
    rwa [List.append_nil] at htiles
  have hnewlines : text.count '\n' = 0 := List.count_eq_zero.mpr hline
  cases sign with
  | false =>
      have hall := Segment.all_of_tiles hnumeral
      simp [scan, hall, Scan.add, Segment.newlines, Segment.text, hnewlines]
  | true =>
      have hall : Segment.all ('-' :: text) =
          [.token .minus ['-'] .nil, .token .number text literal] :=
        Segment.all_of_tiles (Segment.Tiles.cons (.single (c := '-') rfl) hnumeral)
      simp [scan, hall, Scan.add, Segment.newlines, Segment.text, hnewlines]

namespace Number

attribute [local irreducible] one

theorem abs_value (x : Number) : |x.value| = x.size := by
  unfold value
  split
  · rw [abs_neg, abs_of_nonneg x.size_nonneg]
  · exact abs_of_nonneg x.size_nonneg

theorem numeral_eq (whole places : List Char) : Segment.numeral whole places =
    .number (ofRat (Nat.ofDigitChars 10 (whole ++ places) 0 * 10 ^ (-(places.length : Int)))) := by
  have hvalue : ∀ digits, Segment.digitsValue digits = Nat.ofDigitChars 10 digits 0 := fun _ => rfl
  rw [Segment.numeral, ofDecimal_eq_ofRat, hvalue]

theorem newline_not_mem_of_allDigits {text : List Char} (htext : Decimal.AllDigits text) :
    '\n' ∉ text := by
  intro hmem
  exact absurd (htext _ hmem) (by decide)

theorem rule_whole {x : Number} (hfinite : x.Finite) (hwhole : x.isIntegral = true) :
    Segment.Rule (.token .number (Decimal.digitsOf (x.units / one)) (.number x.abs)) := by
  unfold isIntegral at hwhole
  rw [Bool.and_eq_true, beq_iff_eq] at hwhole
  have hunits : x.units / one * one = x.units :=
    Nat.div_mul_cancel (Nat.dvd_of_mod_eq_zero hwhole.2)
  have hone : (one : ℚ) ≠ 0 := Nat.cast_ne_zero.mpr (Nat.ne_of_gt one_pos)
  have hread : Segment.numeral (Decimal.digitsOf (x.units / one)) [] = .number x.abs := by
    have hsize : ((x.units / one : ℕ) : ℚ) = x.size := by
      rw [size, eq_div_iff hone, ← Nat.cast_mul, hunits]
    rw [numeral_eq, List.append_nil, Decimal.ofDigitChars_digitsOf, List.length_nil, Nat.cast_zero,
      neg_zero, zpow_zero, mul_one, hsize, ofRat_size hfinite]
  rw [← hread]
  exact .whole Nat.toDigits_ne_nil (Decimal.allDigits_digitsOf _)

/-- Any other number within the range is printed as a numeral with places. -/
theorem rule_decimal {x : Number} (hfinite : x.Finite) (hlow : (10 : ℚ) ^ (-4 : Int) ≤ x.size)
    (hfraction : x.isIntegral = false) :
    '\n' ∉ x.shortest.layout ∧ Segment.Rule (.token .number x.shortest.layout (.number x.abs)) := by
  have hhigh : x.size < 10 ^ (16 : Int) := by
    by_contra hge
    have hsize : 2 ^ 53 ≤ x.size := by
      have hpower : (2 : ℚ) ^ 53 ≤ 10 ^ (16 : Int) := by norm_num
      linarith
    rw [isIntegral_of_le_size hfinite hsize] at hfraction
    cases hfraction
  rcases shortest_between hfinite hlow hhigh with ⟨hlow', hhigh'⟩
  rcases Decimal.placed_layout hlow' hhigh' with ⟨whole, places, hplaced⟩
  have hread : Segment.numeral whole places = .number x.abs := by
    have hback := (shortest_fewest hfinite (units_ne_zero_of_le_size (by positivity) hlow)).1
    rw [ofDecimal_eq_ofRat, ← Decimal.value] at hback
    rw [numeral_eq, hplaced.value, hback]
  rw [hplaced.text_eq, ← hread]
  constructor
  · rw [List.mem_append, List.mem_cons]
    rintro (hmem | hmem | hmem)
    · exact newline_not_mem_of_allDigits hplaced.whole_digits hmem
    · cases hmem
    · exact newline_not_mem_of_allDigits hplaced.places_digits hmem
  · exact .decimal hplaced.whole_ne_nil hplaced.whole_digits hplaced.places_ne_nil
      hplaced.places_digits

theorem print_eq {x : Number} (hfinite : x.Finite) (hbound : x.units / one < plainBound) :
    x.print = String.ofList (x.signed
      (if x.isIntegral then Decimal.digitsOf (x.units / one) else x.magnitudeText)) := by
  have hexponent : (x.exponent == 2047) = false := beq_eq_false_iff_ne.mpr hfinite
  unfold print
  rw [isNaN, isInfinite, hexponent, decide_eq_true hbound, Bool.false_and, Bool.false_and,
    Bool.and_true, if_neg Bool.false_ne_true, if_neg Bool.false_ne_true]
  cases x.isIntegral with
  | true => rw [if_pos rfl, if_pos rfl]
  | false => rw [if_neg Bool.false_ne_true, if_neg Bool.false_ne_true]

theorem isIntegral_of_units {x : Number} (hfinite : x.Finite) (hzero : x.units = 0) :
    x.isIntegral = true := by
  unfold isIntegral
  rw [hzero, Nat.zero_mod, Bool.and_eq_true, bne_iff_ne]
  exact ⟨hfinite, rfl⟩

/--
The printed text of a number is that of its magnitude, a numeral of the language, with
the sign.
-/
theorem print_numeral {x : Number} (hfinite : x.Finite)
    (hrange : x.value = 0 ∨ 1 / 10 ^ 4 ≤ |x.value| ∧ |x.value| < 10 ^ 21) :
    ∃ text, x.print = String.ofList (x.signed text) ∧ '\n' ∉ text ∧
      Segment.Rule (.token .number text (.number x.abs)) := by
  have hone : (0 : ℚ) < one := Nat.cast_pos.mpr one_pos
  have hzero : x.value = 0 → x.size = 0 := by
    intro hvalue
    rw [← abs_value, hvalue, abs_zero]
  rw [abs_value] at hrange
  have hbound : x.units / one < plainBound := by
    have hsize : x.size < 10 ^ 21 := by
      rcases hrange with hvalue | ⟨_, hhigh⟩
      · rw [hzero hvalue]
        positivity
      · exact hhigh
    rw [size, div_lt_iff₀ hone] at hsize
    rw [Nat.div_lt_iff_lt_mul one_pos, plainBound, tenTo_eq]
    exact_mod_cast hsize
  rw [print_eq hfinite hbound]
  refine ⟨_, rfl, ?_⟩
  cases hwhole : x.isIntegral with
  | true =>
      rw [if_pos rfl]
      exact ⟨newline_not_mem_of_allDigits (Decimal.allDigits_digitsOf _), rule_whole hfinite hwhole⟩
  | false =>
      have hx : x.units ≠ 0 := by
        intro hunits
        rw [isIntegral_of_units hfinite hunits] at hwhole
        cases hwhole
      have hlow : (10 : ℚ) ^ (-4 : Int) ≤ x.size := by
        rcases hrange with hvalue | ⟨hlow, _⟩
        · have hunits := hzero hvalue
          rw [size, div_eq_zero_iff, Nat.cast_eq_zero] at hunits
          exact absurd (hunits.resolve_right (ne_of_gt hone)) hx
        · rw [zpow_neg, ← one_div]
          exact hlow
      rw [if_neg Bool.false_ne_true, magnitudeText, if_neg hx]
      exact rule_decimal hfinite hlow hwhole

theorem range_of_units {x : Number} (hlow : one ≤ x.units * tenTo 4)
    (hhigh : x.units < plainBound * one) : 1 / 10 ^ 4 ≤ |x.value| ∧ |x.value| < 10 ^ 21 := by
  have hone : (0 : ℚ) < one := Nat.cast_pos.mpr one_pos
  rw [abs_value, size]
  constructor
  · rw [div_le_div_iff₀ (by positivity) hone, one_mul]
    rw [tenTo_eq] at hlow
    exact_mod_cast hlow
  · rw [div_lt_iff₀ hone]
    rw [plainBound, tenTo_eq] at hhigh
    exact_mod_cast hhigh

end Number

/--
Printed numbers read back.  The printed text of a finite number that is zero or
has a magnitude from `0.0001` on and below `10 ^ 21` is scanned without an error:
a minus sign if the number has its sign bit set, a numeral whose constant is the
magnitude of the number, and the end.
-/
theorem scan_print {x : Number} (hfinite : x.Finite)
    (hrange : x.value = 0 ∨ 1 / 10 ^ 4 ≤ |x.value| ∧ |x.value| < 10 ^ 21) :
    (scan x.print).diagnostics = [] ∧
      (∃ lexeme, (scan x.print).allTokens =
        (if x.negative then [⟨.minus, "-", .nil, 1⟩] else []) ++
          [⟨.number, lexeme, .number x.abs, 1⟩, .endOfInput 1]) ∧
      x.abs.value = |x.value| := by
  rcases Number.print_numeral hfinite hrange with ⟨text, hprint, hline, hrule⟩
  have hscan := scan_numeral hrule hline x.negative
  rw [← Number.signed, ← hprint] at hscan
  rw [hscan]
  refine ⟨rfl, ⟨String.ofList text, ?_⟩, ?_⟩
  · rw [Scanned.allTokens, List.append_assoc]
    rfl
  · rw [Number.value_abs hfinite, Number.abs_value]

/-- The number before `10 ^ 21`, with a minus sign, and the least number that is in the range. -/
theorem scan_print_bounds :
    (⟨0xC44B1AE4D6E2EF4F⟩ : Number).print = "-999999999999999868928" ∧
      (⟨0x3F1A36E2EB1C432D⟩ : Number).print = "0.0001" ∧
      (scan "-999999999999999868928").diagnostics = [] ∧ (scan "0.0001").diagnostics = [] ∧
      (∃ lexeme, (scan "-999999999999999868928").allTokens =
        [⟨.minus, "-", .nil, 1⟩, ⟨.number, lexeme, .number ⟨0x444B1AE4D6E2EF4F⟩, 1⟩,
          .endOfInput 1]) ∧
      ∃ lexeme, (scan "0.0001").allTokens =
        [⟨.number, lexeme, .number ⟨0x3F1A36E2EB1C432D⟩, 1⟩, .endOfInput 1] := by
  have hgreat : (⟨0xC44B1AE4D6E2EF4F⟩ : Number).print = "-999999999999999868928" := by
    decide +kernel
  have hsmall : (⟨0x3F1A36E2EB1C432D⟩ : Number).print = "0.0001" := by decide +kernel
  have hread := scan_print (x := ⟨0xC44B1AE4D6E2EF4F⟩) (by decide +kernel)
    (Or.inr (Number.range_of_units (by decide +kernel) (by decide +kernel)))
  have hread' := scan_print (x := ⟨0x3F1A36E2EB1C432D⟩) (by decide +kernel)
    (Or.inr (Number.range_of_units (by decide +kernel) (by decide +kernel)))
  rw [hgreat] at hread
  rw [hsmall] at hread'
  exact ⟨hgreat, hsmall, hread.1, hread'.1, hread.2.1, hread'.2.1⟩

end Lox
