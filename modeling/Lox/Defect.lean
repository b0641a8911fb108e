import Lox.Form.Describe

/-!
# Defects

A defect is the fault of a tree that no resolved program has: a distance at
which nothing is bound, an operator that the language does not know, or a part
of the wrong kind.
-/

namespace Lox

inductive LookupFault where
  | unboundName
  | outsideRoot
deriving DecidableEq, Repr

inductive Defect where
  | lookup (fault : LookupFault)
  | superWithoutDistance
  | superNotClass
  /-- A token is needed and something else is there. -/
  | noToken
  | unknownUnary (lexeme : String)
  | unknownBinary (lexeme : String)
  | unknownExpression (form : Form)
  | unknownStatement (form : Form)
  /-- Items are needed and something else is there. -/
  | noItems (sort : String)
  /-- Items are to be counted and something else is there. -/
  | noCount (sort : String)
  /-- Arguments are to be listed and something else is there. -/
  | noArguments (sort : String)
  /-- A part of a text is missing. -/
  | noText (position : Nat)
  /-- A number is needed and something else is there. -/
  | noNumber (sort : String)
  /-- Two values that cannot be divided. -/
  | noQuotient (left right : String)

namespace Defect

def message : Defect → String
  | lookup .unboundName => "no such name at this distance"
  | lookup .outsideRoot => "no environment at this distance"
  | superWithoutDistance => "no distance for super"
  | superNotClass => "the superclass is not a class"
  | noToken => "not a token"
  | unknownUnary lexeme => s!"Unknown unary operator {quoted lexeme}"
  | unknownBinary lexeme => s!"Unknown binary operator {quoted lexeme}"
  | unknownExpression form => s!"Unknown expression {form.describe}"
  | unknownStatement form => s!"Unknown statement {form.describe}"
  | noItems sort => s!"'{sort}' object is not iterable"
  | noCount sort => s!"object of type '{sort}' has no len()"
  | noArguments sort => s!"Value after * must be an iterable, not {sort}"
  | noText position => s!"sequence item {position}: expected str instance, NoneType found"
  | noNumber sort => s!"must be real number, not {sort}"
  | noQuotient left right => s!"unsupported operand type(s) for /: '{left}' and '{right}'"

end Defect
end Lox
