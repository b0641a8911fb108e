import Lox.Form.Prefix
import Lox.Syntax

/-!
# The prefix form of an expression

An expression in prefix notation with a pair of parentheses around every
operation.
-/

namespace Lox
namespace Expr

mutual

def prefixForm : Expr → String
  | assign target value => parenthesize "=" [target.name.lexeme, value.prefixForm]
  | binary left operator right
  | logical left operator right =>
      parenthesize operator.lexeme [left.prefixForm, right.prefixForm]
  | call callee _ arguments => parenthesize "call" (callee.prefixForm :: prefixForms arguments)
  | conditional condition thenBranch elseBranch =>
      parenthesize "?:" [condition.prefixForm, thenBranch.prefixForm, elseBranch.prefixForm]
  | get object name => parenthesize "." [object.prefixForm, name.lexeme]
  | grouping inner => parenthesize "group" [inner.prefixForm]
  | literal value => value.print
  | set object name value =>
      parenthesize "=" [object.prefixForm, name.lexeme, value.prefixForm]
  | superRef _ method => parenthesize "super" [method.lexeme]
  | thisRef _ => "this"
  | unary operator right => parenthesize operator.lexeme [right.prefixForm]
  | var name => name.name.lexeme
  | misfit form => form.describe

def prefixForms : List Expr → List String
  | [] => []
  | e :: es => e.prefixForm :: prefixForms es

end

end Expr
end Lox
