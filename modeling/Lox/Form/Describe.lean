import Lox.Form
import Lox.Token.Text

/-!
# Descriptions

The text that shows a form with all its parts, for messages and inspection:
`Expr.Unary(operator=Token(MINUS, '-', None, 1), right=...)`.
-/

namespace Lox

/-- The text of a row of descriptions; a single one keeps its comma. -/
def describeRow : List String → String
  | [] => "()"
  | [item] => s!"({item},)"
  | items => "(" ++ ", ".intercalate items ++ ")"

namespace NodeKind

/-- The name under which a walk over a tree announces a node of this kind. -/
def visitName (kind : NodeKind) : String :=
  s!"visit_{kind.title.toLower}_{kind.family.toLower}"

/-- Nodes are values: an attempt to change one is refused in these words. -/
def refusal (kind : NodeKind) (field : String) : String :=
  s!"{kind.title} nodes are immutable, cannot set '{field}'"

end NodeKind

namespace Form

mutual

def describe : Form → String
  | node kind fields =>
      kind.label ++ "(" ++ ", ".intercalate (describeFields kind.fieldNames fields) ++ ")"
  | token t _ => t.describe
  | constant value => value.describe
  | row items => describeRow (describeItems items)
  | list items => "[" ++ ", ".intercalate (describeItems items) ++ "]"

def describeFields : List String → List Form → List String
  | name :: names, field :: fields =>
      s!"{name}={describe field}" :: describeFields names fields
  | _, _ => []

def describeItems : List Form → List String
  | [] => []
  | item :: items => describe item :: describeItems items

end

end Form
end Lox
