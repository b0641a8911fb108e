import Lox.Syntax

/-!
# Well-formed trees

What every parsed tree satisfies before it is resolved: there are no misfits,
operators are known, names are identifiers, and a branch or the body of a loop
is not a declaration.  The tokens that can show up in an error, or that are
looked up, satisfy a predicate that is a parameter.
-/

namespace Lox

/-- The operators of a tree with two operands that are both evaluated. -/
def binaryOperators : List TokenKind :=
  [.slash, .star, .minus, .plus, .greater, .greaterEqual, .less, .lessEqual, .bangEqual,
    .equalEqual]

def unaryOperators : List TokenKind := [.bang, .minus]

def Stmt.declared? : Stmt → Option Token
  | .classDecl name _ _ => some name
  | .funDecl f => some f.name
  | .varDecl name _ => some name
  | _ => none

variable (p : Token → Prop)

def Token.Named (token : Token) : Prop := token.kind = .identifier ∧ p token

mutual

def Expr.WellFormed : Expr → Prop
  | .assign target value => target.name.Named p ∧ value.WellFormed
  | .binary left operator right =>
      operator.kind ∈ binaryOperators ∧ p operator ∧ left.WellFormed ∧ right.WellFormed
  | .call callee paren arguments =>
      paren.kind = .rightParen ∧ p paren ∧ callee.WellFormed ∧ Expr.AllWellFormed arguments
  | .conditional condition thenBranch elseBranch =>
      condition.WellFormed ∧ thenBranch.WellFormed ∧ elseBranch.WellFormed
  | .get object name => name.Named p ∧ object.WellFormed
  | .grouping inner => inner.WellFormed
  | .literal _ => True
  | .logical left operator right =>
      operator.kind ≠ .identifier ∧ p operator ∧ left.WellFormed ∧ right.WellFormed
  | .set object name value => name.Named p ∧ object.WellFormed ∧ value.WellFormed
  | .superRef keyword method =>
      keyword.name.kind = .kwSuper ∧ p keyword.name ∧ method.Named p
  | .thisRef keyword => keyword.name.kind = .kwThis ∧ p keyword.name
  | .unary operator right => operator.kind ∈ unaryOperators ∧ p operator ∧ right.WellFormed
  | .var name => name.name.Named p
  | .misfit _ => False

def Expr.AllWellFormed : List Expr → Prop
  | [] => True
  | e :: es => e.WellFormed ∧ Expr.AllWellFormed es

end

mutual

def Stmt.WellFormed : Stmt → Prop
  | .block body => Stmt.AllWellFormed body
  | .classDecl name superclass methods =>
      name.Named p ∧ (∀ parent ∈ superclass, parent.name.Named p) ∧
        Function.AllWellFormed methods
  | .expression inner => inner.WellFormed p
  | .funDecl function => function.WellFormed
  | .ifElse condition thenBranch none =>
      condition.WellFormed p ∧ thenBranch.declared? = none ∧ thenBranch.WellFormed
  | .ifElse condition thenBranch (some elseBranch) =>
      condition.WellFormed p ∧ (thenBranch.declared? = none ∧ thenBranch.WellFormed) ∧
        elseBranch.declared? = none ∧ elseBranch.WellFormed
  | .print inner => inner.WellFormed p
  | .ret _ value => ∀ e ∈ value, Expr.WellFormed p e
  | .varDecl name initial => name.Named p ∧ ∀ e ∈ initial, Expr.WellFormed p e
  | .whileLoop condition body =>
      condition.WellFormed p ∧ body.declared? = none ∧ body.WellFormed
  | .misfit _ => False

def Stmt.AllWellFormed : List Stmt → Prop
  | [] => True
  | s :: ss => s.WellFormed ∧ Stmt.AllWellFormed ss

def Function.WellFormed : Function → Prop
  | ⟨name, params, body⟩ => name.Named p ∧ (∀ t ∈ params, t.Named p) ∧ Stmt.AllWellFormed body

def Function.AllWellFormed : List Function → Prop
  | [] => True
  | f :: fs => f.WellFormed ∧ Function.AllWellFormed fs

end

end Lox
