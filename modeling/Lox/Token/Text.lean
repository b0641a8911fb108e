import Lox.Number.Text
import Lox.Text.Quoted
import Lox.Token

/-!
# Texts of constants and tokens

The text that a program prints for a constant, and the descriptions of constants
and tokens for messages and inspection.
-/

namespace Lox

namespace Literal

def print : Literal → String
  | nil => "nil"
  | bool true => "true"
  | bool false => "false"
  | number x => x.print
  | text s => s

def describe : Literal → String
  | nil => "None"
  | bool true => "True"
  | bool false => "False"
  | number x => x.repr
  | text s => quoted s

def bare : Literal → String
  | text s => s
  | other => other.describe

end Literal

namespace Token

def describe (t : Token) : String :=
  s!"Token({t.kind.name}, {quoted t.lexeme}, {t.literal.describe}, {t.line})"

def listing (t : Token) : String := s!"{t.kind.name} {t.lexeme} {t.literal.bare}"

/-- Tokens are values: an attempt to change one is refused in these words. -/
def refusal (field : String) : String :=
  s!"Token is immutable, cannot set '{field}'"

end Token
end Lox
