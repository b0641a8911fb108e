import Lox.Number

/-!
# The text of a number

A number has two texts.  The exact text (`Number.repr`) has the fewest
significant digits that read back as the same number, and always shows that it
is a floating point number: `1.0`, `1e-05`, `inf`.  The printed text
(`Number.print`) is the one of the `print` statement: a whole number below
`10 ^ 21` is written with its plain digits, and every other finite number has
its exact text.

The digits are found by search: for one digit, two digits and so on, the two
neighbours of the number on that decimal grid are read back, and the first grid
on which one of them reads back wins.
-/

namespace Lox

structure Decimal where
  digits : Nat
  exponent : Int
deriving DecidableEq, Repr

namespace Decimal

/-!
## Layout
-/

def zeros (n : Nat) : List Char := List.replicate n '0'

def digitsOf (n : Nat) : List Char := Nat.toDigits 10 n

def significant (digits : List Char) : List Char :=
  (digits.reverse.dropWhile (· == '0')).reverse

def positional (digits : List Char) (point : Int) : List Char :=
  if point ≤ 0 then
    '0' :: '.' :: (zeros (-point).toNat ++ digits)
  else if digits.length ≤ point.toNat then
    digits ++ zeros (point.toNat - digits.length) ++ ['.', '0']
  else
    digits.take point.toNat ++ '.' :: digits.drop point.toNat

def exponentText (e : Int) : List Char :=
  let digits := digitsOf e.natAbs
  (if e < 0 then '-' else '+') :: (zeros (2 - digits.length) ++ digits)

def scientific (digits : List Char) (e : Int) : List Char :=
  let mantissa :=
    match digits with
    | d :: r :: rest => d :: '.' :: r :: rest
    | short => short
  mantissa ++ 'e' :: exponentText e

/-- Exponents from -4 to 15 are written positionally, all others with an exponent. -/
def layout (d : Decimal) : List Char :=
  let all := digitsOf d.digits
  let point := (all.length : Int) + d.exponent
  let digits := significant all
  if -4 ≤ point - 1 ∧ point - 1 < 16 then
    positional digits point
  else
    scientific digits (point - 1)

end Decimal

namespace Number

/-!
## Shortest digits
-/

def belowTenTo (x : Number) (k : Int) : Bool :=
  x.units * tenTo (-k).toNat < tenTo k.toNat * one

/--
The number of digits before the decimal point, negative if zeros follow the
point: the least `k` with `x` below `10 ^ k`.  The binary logarithm gives it up
to one.
-/
def magnitude (x : Number) : Int :=
  let guess := ((x.units.log2 : Int) - 1074) * 30103 / 100000 + 1
  if x.belowTenTo guess then guess else guess + 1

/-- The magnitude of `x` in steps of `10 ^ e`: whole steps, remainder, and the size of a step. -/
def stepsOf (x : Number) (e : Int) : Nat × Nat × Nat :=
  let scaled := x.units * tenTo (-e).toNat
  let step := one * tenTo e.toNat
  (scaled / step, scaled % step, step)

def readsBack (x : Number) (digits : Nat) (e : Int) : Bool :=
  ofDecimal digits e == x.abs

/-- The neighbour of `x` on the grid `10 ^ e` that reads back, the nearer one if both do. -/
def onGrid? (x : Number) (e : Int) : Option Decimal :=
  let (low, rest, step) := x.stepsOf e
  match x.readsBack low e, x.readsBack (low + 1) e with
  | true, true =>
      if 2 * rest < step ∨ (2 * rest = step ∧ low % 2 = 0) then
        some ⟨low, e⟩
      else
        some ⟨low + 1, e⟩
  | true, false => some ⟨low, e⟩
  | false, true => some ⟨low + 1, e⟩
  | false, false => none

def exactDecimal (x : Number) : Decimal := ⟨x.units * Nat.pow 5 1074, -1074⟩

/--
The first of the next `n` grids, from `10 ^ e` downwards, with a decimal that
reads back.  Seventeen digits always suffice; the full expansion stands behind
the search, so that the result reads back for every count.
-/
def firstOnGrid (x : Number) : Nat → Int → Decimal
  | 0, _ => x.exactDecimal
  | n + 1, e =>
      match x.onGrid? e with
      | some d => d
      | none => firstOnGrid x n (e - 1)

/-- The decimal with the fewest digits that reads back as the magnitude of `x`. -/
def shortest (x : Number) : Decimal := firstOnGrid x 17 (x.magnitude - 1)

/-!
## Texts
-/

def magnitudeText (x : Number) : List Char :=
  if x.units = 0 then ['0', '.', '0'] else x.shortest.layout

def signed (x : Number) (text : List Char) : List Char :=
  if x.negative then '-' :: text else text

def repr (x : Number) : String :=
  if x.isNaN then "nan"
  else if x.isInfinite then String.ofList (x.signed ['i', 'n', 'f'])
  else String.ofList (x.signed x.magnitudeText)

def plainBound : Nat := tenTo 21

def print (x : Number) : String :=
  if x.isNaN then "NaN"
  else if x.isInfinite then (if x.negative then "-Infinity" else "Infinity")
  else if x.isIntegral && x.units / one < plainBound then
    String.ofList (x.signed (Decimal.digitsOf (x.units / one)))
  else String.ofList (x.signed x.magnitudeText)

end Number
end Lox
