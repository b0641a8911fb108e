/-!
# Numbers

A Lox number is an IEEE 754 double.  It is kept as its 64-bit pattern, so that
two numbers are the same value of this type exactly when no operation can tell
them apart, and the sign, the exponent and the fraction are plain arithmetic on
the pattern.  The arithmetic operations are those of `Float`.

Every finite magnitude is a whole multiple of the least positive double.  The
function `units` gives that multiple, and `ofRatio` goes the other way: it is
the number nearest to a fraction, with ties to the even pattern.
-/

namespace Lox

def twoTo (n : Nat) : Nat := Nat.pow 2 n

def tenTo (n : Nat) : Nat := Nat.pow 10 n

structure Number where
  bits : UInt64
deriving DecidableEq, Repr

namespace Number

def toFloat (x : Number) : Float := Float.ofBits x.bits

def ofFloat (x : Float) : Number := ⟨x.toBits⟩

/-!
## The fields of the pattern
-/

def negative (x : Number) : Bool := twoTo 63 ≤ x.bits.toNat

def exponent (x : Number) : Nat := x.bits.toNat / twoTo 52 % twoTo 11

def fraction (x : Number) : Nat := x.bits.toNat % twoTo 52

def isNaN (x : Number) : Bool := x.exponent == 2047 && x.fraction != 0

def isInfinite (x : Number) : Bool := x.exponent == 2047 && x.fraction == 0

/-- The magnitude of a finite number as a multiple of `2 ^ (-1074)`. -/
def units (x : Number) : Nat :=
  if x.exponent = 0 then
    x.fraction
  else
    (twoTo 52 + x.fraction) * twoTo (x.exponent - 1)

def one : Nat := twoTo 1074

def isIntegral (x : Number) : Bool :=
  x.exponent != 2047 && x.units % one == 0

/-!
## Rounding
-/

/-- The whole number nearest to `a / b`; a tie goes to the even neighbour. -/
def roundDiv (a b : Nat) : Nat :=
  let q := a / b
  let r := a % b
  if 2 * r < b then q
  else if b < 2 * r then q + 1
  else q + q % 2

/-- The pattern of positive infinity, which is above every finite pattern. -/
def infinityBits : Nat := 2047 * twoTo 52

/--
The number nearest to `a / b`.  The quotient is measured in steps of
`2 ^ shift` units, where the shift leaves 53 significant bits; patterns of
positive numbers count these steps, so the exponent field is added to them and
a carry out of the fraction moves to the next exponent by itself.
-/
def ofRatio (a b : Nat) : Number :=
  let scaled := a * one
  let shift := (scaled / b).log2 - 52
  let pattern := shift * twoTo 52 + roundDiv scaled (b * twoTo shift)
  ⟨(min pattern infinityBits).toUInt64⟩

def ofDecimal (digits : Nat) (exponent : Int) : Number :=
  if 0 ≤ exponent then
    ofRatio (digits * tenTo exponent.toNat) 1
  else
    ofRatio digits (tenTo (-exponent).toNat)

def ofNat (n : Nat) : Number := ofRatio n 1

def abs (x : Number) : Number := ⟨(x.bits.toNat % twoTo 63).toUInt64⟩

/-!
## Arithmetic and comparison
-/

def add (x y : Number) : Number := ofFloat (x.toFloat + y.toFloat)

def sub (x y : Number) : Number := ofFloat (x.toFloat - y.toFloat)

def mul (x y : Number) : Number := ofFloat (x.toFloat * y.toFloat)

/-- Division by zero gives a signed infinity, and `0 / 0` is not a number. -/
def div (x y : Number) : Number := ofFloat (x.toFloat / y.toFloat)

def neg (x : Number) : Number := ofFloat (-x.toFloat)

def lt (x y : Number) : Bool := x.toFloat < y.toFloat

def le (x y : Number) : Bool := x.toFloat ≤ y.toFloat

/-- Equality of the language: not a number equals itself, and the two zeros agree. -/
def same (x y : Number) : Bool := (x.isNaN && y.isNaN) || x.toFloat == y.toFloat

end Number
end Lox
