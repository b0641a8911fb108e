import Lox.Syntax

/-!
# Fresh trees

A tree as it comes from the parser: it has no misfits, and its nodes have no
numbers yet.
-/

namespace Lox

def Reference.Fresh (r : Reference) : Prop := r.node = 0

mutual

def Expr.Fresh : Expr → Prop
  | .assign target value => target.Fresh ∧ value.Fresh
  | .binary left _ right => left.Fresh ∧ right.Fresh
  | .call callee _ arguments => callee.Fresh ∧ Expr.AllFresh arguments
  | .conditional condition thenBranch elseBranch =>
      condition.Fresh ∧ thenBranch.Fresh ∧ elseBranch.Fresh
  | .get object _ => object.Fresh
  | .grouping inner => inner.Fresh
  | .literal _ => True
  | .logical left _ right => left.Fresh ∧ right.Fresh
  | .set object _ value => object.Fresh ∧ value.Fresh
  | .superRef keyword _ => keyword.Fresh
  | .thisRef keyword => keyword.Fresh
  | .unary _ right => right.Fresh
  | .var name => name.Fresh
  | .misfit _ => False

def Expr.AllFresh : List Expr → Prop
  | [] => True
  | e :: es => e.Fresh ∧ Expr.AllFresh es

end

mutual

def Stmt.Fresh : Stmt → Prop
  | .block body => Stmt.AllFresh body
  | .classDecl _ superclass methods =>
      (∀ parent ∈ superclass, parent.Fresh) ∧ Function.AllFresh methods
  | .expression inner => inner.Fresh
  | .funDecl function => function.Fresh
  | .ifElse condition thenBranch none => condition.Fresh ∧ thenBranch.Fresh
  | .ifElse condition thenBranch (some elseBranch) =>
      condition.Fresh ∧ thenBranch.Fresh ∧ elseBranch.Fresh
  | .print inner => inner.Fresh
  | .ret _ value => ∀ e ∈ value, Expr.Fresh e
  | .varDecl _ initial => ∀ e ∈ initial, Expr.Fresh e
  | .whileLoop condition body => condition.Fresh ∧ body.Fresh
  | .misfit _ => False

def Stmt.AllFresh : List Stmt → Prop
  | [] => True
  | s :: ss => s.Fresh ∧ Stmt.AllFresh ss

def Function.Fresh : Function → Prop
  | ⟨_, _, body⟩ => Stmt.AllFresh body

def Function.AllFresh : List Function → Prop
  | [] => True
  | f :: fs => f.Fresh ∧ Function.AllFresh fs

end

theorem Stmt.forLoop_fresh {first : Option Stmt} {condition increment : Option Expr} {body : Stmt}
    (hfirst : ∀ s ∈ first, s.Fresh) (hcondition : ∀ e ∈ condition, e.Fresh)
    (hincrement : ∀ e ∈ increment, e.Fresh) (hbody : body.Fresh) :
    (Stmt.forLoop first condition increment body).Fresh := by
  have hwhile : (Stmt.whileLoop (condition.getD (.literal (.bool true)))
      (increment.elim body fun step => .block [body, .expression step])).Fresh := by
    constructor
    · cases condition with
      | none => trivial
      | some e => exact hcondition e rfl
    · cases increment with
      | none => exact hbody
      | some step => exact ⟨hbody, hincrement step rfl, trivial⟩
  cases increment with
  | none =>
      cases first with
      | none => exact hwhile
      | some start => exact ⟨hfirst start rfl, hwhile, trivial⟩
  | some step =>
      cases first with
      | none => exact hwhile
      | some start => exact ⟨hfirst start rfl, hwhile, trivial⟩

end Lox
