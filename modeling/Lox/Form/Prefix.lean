import Lox.Defect

/-!
# The prefix form of a form

A node is shown in prefix notation with a pair of parentheses around it:
`1 + 2 * 3` is `(+ 1 (* 2 3))`.  A text in the place of an expression is shown
as it is; a missing expression has no text and cannot stand between
parentheses.
-/

namespace Lox

def parenthesize (name : String) (parts : List String) : String :=
  "(" ++ " ".intercalate (name :: parts) ++ ")"

namespace Form

def lexeme : Form → Except Defect String
  | token t _ => .ok t.lexeme
  | _ => .error .noToken

/-- An operation and its parts between parentheses, if every part has a text. -/
def enclose (name : String) (parts : List (Option String)) :
    Except Defect (Option String) :=
  match parts.findIdx? Option.isNone with
  | some i => .error (.noText (i + 1))
  | none => .ok (some (parenthesize name (parts.filterMap id)))

def valueText : Form → String
  | constant value => value.print
  | token t _ => t.listing
  | other => other.describe

mutual

def partText : Form → Except Defect (Option String)
  | constant .nil => .ok none
  | constant (.text s) => .ok (some s)
  | node .assign [name, value] => do
      let name ← name.lexeme
      let value ← value.partText
      enclose "=" [some name, value]
  | node .binary [left, operator, right]
  | node .logical [left, operator, right] => do
      let operator ← operator.lexeme
      let left ← left.partText
      let right ← right.partText
      enclose operator [left, right]
  | node .call [callee, _, .row arguments] => do
      let callee ← callee.partText
      let arguments ← partTexts arguments
      enclose "call" (callee :: arguments)
  | node .call [callee, _, .constant (.text s)] => do
      let callee ← callee.partText
      enclose "call" (callee :: s.toList.map fun c => some (String.singleton c))
  | node .call [_, _, other] => .error (.noArguments other.sort)
  | node .conditional [condition, thenBranch, elseBranch] => do
      let condition ← condition.partText
      let thenBranch ← thenBranch.partText
      let elseBranch ← elseBranch.partText
      enclose "?:" [condition, thenBranch, elseBranch]
  | node .get [object, name] => do
      let name ← name.lexeme
      let object ← object.partText
      enclose "." [object, some name]
  | node .grouping [inner] => do
      let inner ← inner.partText
      enclose "group" [inner]
  | node .literal [value] => .ok (some value.valueText)
  | node .set [object, name, value] => do
      let name ← name.lexeme
      let object ← object.partText
      let value ← value.partText
      enclose "=" [object, some name, value]
  | node .superRef [_, method] => do
      let method ← method.lexeme
      enclose "super" [some method]
  | node .thisRef _ => .ok (some "this")
  | node .unary [operator, right] => do
      let operator ← operator.lexeme
      let right ← right.partText
      enclose operator [right]
  | node .var [name] => some <$> name.lexeme
  | form => .error (.unknownExpression form)

def partTexts : List Form → Except Defect (List (Option String))
  | [] => .ok []
  | f :: fs => do
      let text ← f.partText
      let texts ← partTexts fs
      return text :: texts

end

/-- The prefix form of an expression.  A missing expression has none. -/
def prefixForm? : Form → Except Defect (Option String)
  | constant (.text s) => .error (.unknownExpression (constant (.text s)))
  | form => form.partText

end Form
end Lox
