import Lox.Text.Printable

/-!
# Quoted text

A text between quotes, on one line.  The quotes are single unless the text has
a single quote and no double one.  A backslash, the quote itself and every
character without a printed shape are written as escapes.
-/

namespace Lox
namespace Quoted

def quote (text : List Char) : Char :=
  if text.contains '\'' && !text.contains '"' then '"' else '\''

def hexDigits (width n : Nat) : List Char :=
  let digits := Nat.toDigits 16 n
  List.replicate (width - digits.length) '0' ++ digits

def code (c : Char) : List Char :=
  let n := c.toNat
  if n < 0x100 then 'x' :: hexDigits 2 n
  else if n < 0x10000 then 'u' :: hexDigits 4 n
  else 'U' :: hexDigits 8 n

def escape (quote c : Char) : List Char :=
  if c = '\\' ∨ c = quote then ['\\', c]
  else if c = '\n' then ['\\', 'n']
  else if c = '\r' then ['\\', 'r']
  else if c = '\t' then ['\\', 't']
  else if isPrintable c then [c]
  else '\\' :: code c

def encode (text : List Char) : List Char :=
  let q := quote text
  q :: (text.flatMap (escape q) ++ [q])

end Quoted

def quoted (text : String) : String := String.ofList (Quoted.encode text.toList)

end Lox
