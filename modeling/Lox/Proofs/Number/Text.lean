import Mathlib.Data.List.TakeWhile
import Lox.Number.Text

/-!
# The characters of printed numbers

A number that is read from decimal digits is not negative.  If it is finite, its
printed text starts with a digit, and all its characters are digits, a point, or
those of an exponent.
-/

namespace Lox

def isNumeric (c : Char) : Bool := c.isDigit || ['.', 'e', '+', '-'].contains c

/-- A text that starts with a digit and has no other characters than those of a number. -/
def Numeric (text : List Char) : Prop :=
  (∃ c ∈ text.head?, c.isDigit = true) ∧ ∀ c ∈ text, isNumeric c = true

theorem isNumeric_of_isDigit {c : Char} (hc : c.isDigit = true) : isNumeric c = true := by
  unfold isNumeric
  rw [hc]
  rfl

theorem Numeric.append {first rest : List Char} (hfirst : Numeric first)
    (hrest : ∀ c ∈ rest, isNumeric c = true) : Numeric (first ++ rest) := by
  rcases hfirst with ⟨⟨c, hc, hdigit⟩, hall⟩
  constructor
  · refine ⟨c, ?_, hdigit⟩
    rw [List.head?_append, Option.mem_def.mp hc]
    rfl
  · exact List.forall_mem_append.mpr ⟨hall, hrest⟩

namespace Decimal

/-!
# Digits
-/

def AllDigits (text : List Char) : Prop := ∀ c ∈ text, c.isDigit = true

theorem AllDigits.numeric {text : List Char} (htext : AllDigits text) :
    ∀ c ∈ text, isNumeric c = true :=
  fun c hc => isNumeric_of_isDigit (htext c hc)

theorem numeric_of_allDigits {text : List Char} (hne : text ≠ []) (htext : AllDigits text) :
    Numeric text := by
  refine ⟨?_, htext.numeric⟩
  rcases List.exists_cons_of_ne_nil hne with ⟨c, cs, rfl⟩
  exact ⟨c, rfl, htext c List.mem_cons_self⟩

theorem allDigits_digitsOf (n : Nat) : AllDigits (digitsOf n) :=
  fun _ hc => Nat.isDigit_of_mem_toDigits (by decide) (by decide) hc

theorem allDigits_zeros (n : Nat) : AllDigits (zeros n) := by
  intro c hc
  rw [List.eq_of_mem_replicate hc]
  rfl

theorem allDigits_append {first second : List Char} (hfirst : AllDigits first)
    (hsecond : AllDigits second) : AllDigits (first ++ second) :=
  List.forall_mem_append.mpr ⟨hfirst, hsecond⟩

theorem exists_digit_ne_zero {n : Nat} (hn : n ≠ 0) : ∃ c ∈ digitsOf n, c ≠ '0' := by
  unfold digitsOf
  induction n using Nat.strongRecOn with
  | ind n ih =>
      by_cases hsmall : n < 10
      · rw [Nat.toDigits_of_lt_base hsmall]
        exact ⟨n.digitChar, List.mem_singleton_self _,
          fun hzero => hn (Nat.digitChar_eq_zero.mp hzero)⟩
      · rw [Nat.toDigits_of_base_le (by decide) (Nat.le_of_not_lt hsmall)]
        rcases ih (n / 10) (by omega) (by omega) with ⟨c, hc, hne⟩
        exact ⟨c, List.mem_append_left _ hc, hne⟩

theorem allDigits_significant {digits : List Char} (hdigits : AllDigits digits) :
    AllDigits (significant digits) := by
  intro c hc
  apply hdigits
  rw [significant, List.mem_reverse] at hc
  exact List.mem_reverse.mp ((List.dropWhile_sublist _).subset hc)

theorem significant_ne_nil {digits : List Char} (hdigits : ∃ c ∈ digits, c ≠ '0') :
    significant digits ≠ [] := by
  rcases hdigits with ⟨c, hc, hne⟩
  intro hnil
  rw [significant, List.reverse_eq_nil_iff, List.dropWhile_eq_nil_iff] at hnil
  exact hne (beq_iff_eq.mp (hnil c (List.mem_reverse.mpr hc)))

/-!
# Layout
-/

theorem numeric_positional {digits : List Char} (hdigits : AllDigits digits) (point : Int) :
    Numeric (positional digits point) := by
  unfold positional
  by_cases hpoint : point ≤ 0
  · rw [if_pos hpoint]
    have hplaces := allDigits_append (allDigits_zeros (-point).toNat) hdigits
    constructor
    · exact ⟨'0', rfl, rfl⟩
    · exact List.forall_mem_cons.mpr ⟨rfl, List.forall_mem_cons.mpr ⟨rfl, hplaces.numeric⟩⟩
  · rw [if_neg hpoint]
    have hpositive : 0 < point.toNat := by omega
    by_cases hlength : digits.length ≤ point.toNat
    · rw [if_pos hlength]
      have hwhole := allDigits_append hdigits (allDigits_zeros (point.toNat - digits.length))
      have hne : digits ++ zeros (point.toNat - digits.length) ≠ [] := by
        apply List.ne_nil_of_length_pos
        simp only [zeros, List.length_append, List.length_replicate]
        omega
      exact (numeric_of_allDigits hne hwhole).append (by simp [isNumeric])
    · rw [if_neg hlength]
      have hwhole : AllDigits (digits.take point.toNat) :=
        fun c hc => hdigits c (List.mem_of_mem_take hc)
      have hne : digits.take point.toNat ≠ [] := by
        apply List.ne_nil_of_length_pos
        rw [List.length_take]
        omega
      have hplaces : AllDigits (digits.drop point.toNat) :=
        fun c hc => hdigits c (List.mem_of_mem_drop hc)
      exact (numeric_of_allDigits hne hwhole).append
        (List.forall_mem_cons.mpr ⟨rfl, hplaces.numeric⟩)

theorem isNumeric_exponentText (e : Int) : ∀ c ∈ exponentText e, isNumeric c = true := by
  intro c hc
  have hdigits := allDigits_append (allDigits_zeros (2 - (digitsOf e.natAbs).length))
    (allDigits_digitsOf e.natAbs)
  unfold exponentText at hc
  rcases List.mem_cons.mp hc with hsign | hc
  · by_cases he : e < 0
    · rw [if_pos he] at hsign
      rw [hsign]
      rfl
    · rw [if_neg he] at hsign
      rw [hsign]
      rfl
  · exact hdigits.numeric c hc

theorem numeric_scientific {digits : List Char} (hne : digits ≠ []) (hdigits : AllDigits digits)
    (e : Int) : Numeric (scientific digits e) := by
  have hexponent : ∀ c ∈ 'e' :: exponentText e, isNumeric c = true :=
    List.forall_mem_cons.mpr ⟨rfl, isNumeric_exponentText e⟩
  unfold scientific
  apply Numeric.append _ hexponent
  split
  · next d r rest =>
      rcases List.forall_mem_cons.mp hdigits with ⟨hd, hrest⟩
      have hpoint : ∀ c ∈ '.' :: r :: rest, isNumeric c = true :=
        List.forall_mem_cons.mpr ⟨rfl, AllDigits.numeric hrest⟩
      constructor
      · exact ⟨d, rfl, hd⟩
      · exact List.forall_mem_cons.mpr ⟨isNumeric_of_isDigit hd, hpoint⟩
  · exact numeric_of_allDigits hne hdigits

theorem numeric_layout {d : Decimal} (hd : d.digits ≠ 0) : Numeric d.layout := by
  have hdigits := allDigits_significant (allDigits_digitsOf d.digits)
  unfold layout
  simp only
  split
  · exact numeric_positional hdigits _
  · exact numeric_scientific (significant_ne_nil (exists_digit_ne_zero hd)) hdigits _

end Decimal

namespace Number

/-!
# Patterns
-/

theorem twoTo_52 : twoTo 52 = 4503599627370496 := rfl

theorem infinityBits_eq : infinityBits = 2047 * 4503599627370496 := rfl

theorem toNat_toUInt64 {n : Nat} (hn : n < twoTo 64) : n.toUInt64.toNat = n :=
  UInt64.toNat_ofNat_of_lt' hn

theorem toNat_ofRatio_le (a b : Nat) : (ofRatio a b).bits.toNat ≤ infinityBits := by
  have hbounded : ∀ pattern, (min pattern infinityBits).toUInt64.toNat ≤ infinityBits := by
    intro pattern
    have hle := Nat.min_le_right pattern infinityBits
    rw [toNat_toUInt64 (Nat.lt_of_le_of_lt hle (by decide))]
    exact hle
  exact hbounded _

theorem toNat_ofDecimal_le (digits : Nat) (e : Int) :
    (ofDecimal digits e).bits.toNat ≤ infinityBits := by
  unfold ofDecimal
  split
  · exact toNat_ofRatio_le _ _
  · exact toNat_ofRatio_le _ _

theorem negative_ofRatio (a b : Nat) : (ofRatio a b).negative = false := by
  have hlt : infinityBits < twoTo 63 := by decide
  unfold negative
  rw [decide_eq_false_iff_not, Nat.not_le]
  exact Nat.lt_of_le_of_lt (toNat_ofRatio_le a b) hlt

theorem negative_ofDecimal (digits : Nat) (e : Int) : (ofDecimal digits e).negative = false := by
  unfold ofDecimal
  split
  · exact negative_ofRatio _ _
  · exact negative_ofRatio _ _

theorem isNaN_ofDecimal (digits : Nat) (e : Int) : (ofDecimal digits e).isNaN = false := by
  have hle := toNat_ofDecimal_le digits e
  have hsize : twoTo 11 = 2048 := rfl
  unfold isNaN exponent fraction
  rw [Bool.and_eq_false_iff, beq_eq_false_iff_ne, bne_eq_false_iff_eq, twoTo_52, hsize]
  rw [infinityBits_eq] at hle
  omega

theorem ofRatio_zero (b : Nat) : ofRatio 0 b = ⟨0⟩ := by
  have hround : ∀ c, roundDiv 0 c = 0 := by
    intro c
    simp [roundDiv]
  unfold ofRatio
  simp only [Nat.zero_mul, Nat.zero_div, Nat.log2_zero, Nat.zero_sub, hround]
  rfl

theorem ofDecimal_zero (e : Int) : ofDecimal 0 e = ⟨0⟩ := by
  unfold ofDecimal
  split
  · rw [Nat.zero_mul, ofRatio_zero]
  · rw [ofRatio_zero]

theorem units_eq_zero_of_abs {x : Number} (habs : x.abs = ⟨0⟩) : x.units = 0 := by
  have hsize : twoTo 63 = 2048 * 4503599627370496 := rfl
  have hsize' : twoTo 11 = 2048 := rfl
  have hmod : x.bits.toNat % twoTo 63 = 0 := by
    have hbits := congrArg (fun y => y.bits.toNat) habs
    unfold abs at hbits
    simp only at hbits
    have hlt : x.bits.toNat % twoTo 63 < twoTo 64 :=
      Nat.lt_trans (Nat.mod_lt _ (by decide)) (by decide)
    rw [toNat_toUInt64 hlt] at hbits
    exact hbits
  rw [hsize] at hmod
  have hexponent : x.exponent = 0 := by
    unfold exponent
    rw [twoTo_52, hsize']
    omega
  unfold units fraction
  rw [if_pos hexponent, twoTo_52]
  omega

/-!
# Shortest digits
-/

theorem readsBack_of_onGrid? {x : Number} {e : Int} {d : Decimal} (hd : x.onGrid? e = some d) :
    x.readsBack d.digits d.exponent = true := by
  unfold onGrid? at hd
  simp only at hd
  split at hd
  · next hlow hhigh =>
      split at hd <;> cases hd
      · exact hlow
      · exact hhigh
  · next hlow _ =>
      cases hd
      exact hlow
  · next _ hhigh =>
      cases hd
      exact hhigh
  · cases hd

theorem digits_ne_zero_of_readsBack {x : Number} (hx : x.units ≠ 0) {digits : Nat} {e : Int}
    (hback : x.readsBack digits e = true) : digits ≠ 0 := by
  rintro rfl
  unfold readsBack at hback
  rw [ofDecimal_zero, beq_iff_eq] at hback
  exact hx (units_eq_zero_of_abs hback.symm)

theorem digits_firstOnGrid_ne_zero {x : Number} (hx : x.units ≠ 0) (n : Nat) (e : Int) :
    (x.firstOnGrid n e).digits ≠ 0 := by
  have hpower : ∀ k, Nat.pow 5 k ≠ 0 := fun k => Nat.ne_of_gt (Nat.pow_pos (Nat.succ_pos 4))
  induction n generalizing e with
  | zero => exact Nat.mul_ne_zero hx (hpower 1074)
  | succ n ih =>
      unfold firstOnGrid
      split
      · next d hd => exact digits_ne_zero_of_readsBack hx (readsBack_of_onGrid? hd)
      · exact ih (e - 1)

theorem numeric_magnitudeText (x : Number) : Numeric x.magnitudeText := by
  unfold magnitudeText
  by_cases hx : x.units = 0
  · rw [if_pos hx]
    exact ⟨⟨'0', rfl, rfl⟩, by simp [isNumeric]⟩
  · rw [if_neg hx]
    exact Decimal.numeric_layout (digits_firstOnGrid_ne_zero hx _ _)

theorem numeric_print {x : Number} (hnumber : x.isNaN = false) (hfinite : x.isInfinite = false)
    (hsign : x.negative = false) : Numeric x.print.toList := by
  unfold print signed
  rw [hnumber, hfinite, hsign]
  simp only [Bool.false_eq_true, if_false]
  split
  · rw [String.toList_ofList]
    exact Decimal.numeric_of_allDigits Nat.toDigits_ne_nil (Decimal.allDigits_digitsOf _)
  · rw [String.toList_ofList]
    exact numeric_magnitudeText x

end Number
end Lox
