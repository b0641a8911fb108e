import Lox.Syntax.Form

/-!
# Numbering the nodes of a program

The nodes that are looked up get numbers one after the other, in the order in
which the resolver comes to them: the value of an assignment goes before its
target, and the value for a field before the object.
-/

namespace Lox

namespace Form

mutual

def places : Form → Nat
  | node _ fields => allPlaces fields
  | row items | list items => allPlaces items
  | token _ _ => 1
  | constant _ => 0

def allPlaces : List Form → Nat
  | [] => 0
  | f :: fs => places f + allPlaces fs

end

mutual

def numbered (k : NodeId) : Form → Form
  | node .assign [name, value] =>
      node .assign [numbered (k + value.places) name, numbered k value]
  | node .set [object, name, value] =>
      let afterValue := k + value.places
      node .set [numbered afterValue object, numbered (afterValue + object.places) name,
        numbered k value]
  | node kind fields => node kind (allNumbered k fields)
  | row items => row (allNumbered k items)
  | list items => list (allNumbered k items)
  | token t _ => token t k
  | constant value => constant value

def allNumbered (k : NodeId) : List Form → List Form
  | [] => []
  | f :: fs => numbered k f :: allNumbered (k + f.places) fs

end

end Form

/-!
## Expressions
-/

namespace Reference

def numbered (k : NodeId) (r : Reference) : Reference := { r with node := k }

end Reference

mutual

def Expr.places : Expr → Nat
  | .assign _ value => value.places + 1
  | .binary left _ right => left.places + right.places
  | .call callee _ arguments => callee.places + Expr.allPlaces arguments
  | .conditional condition thenBranch elseBranch =>
      condition.places + thenBranch.places + elseBranch.places
  | .get object _ => object.places
  | .grouping inner => inner.places
  | .literal _ => 0
  | .logical left _ right => left.places + right.places
  | .set object _ value => value.places + object.places
  | .superRef _ _ => 1
  | .thisRef _ => 1
  | .unary _ right => right.places
  | .var _ => 1
  | .misfit form => form.places

def Expr.allPlaces : List Expr → Nat
  | [] => 0
  | e :: es => e.places + Expr.allPlaces es

end

mutual

def Expr.numbered (k : NodeId) : Expr → Expr
  | .assign target value => .assign (target.numbered (k + value.places)) (value.numbered k)
  | .binary left operator right =>
      .binary (left.numbered k) operator (right.numbered (k + left.places))
  | .call callee paren arguments =>
      .call (callee.numbered k) paren (Expr.allNumbered (k + callee.places) arguments)
  | .conditional condition thenBranch elseBranch =>
      .conditional (condition.numbered k) (thenBranch.numbered (k + condition.places))
        (elseBranch.numbered (k + condition.places + thenBranch.places))
  | .get object name => .get (object.numbered k) name
  | .grouping inner => .grouping (inner.numbered k)
  | .literal value => .literal value
  | .logical left operator right =>
      .logical (left.numbered k) operator (right.numbered (k + left.places))
  | .set object name value => .set (object.numbered (k + value.places)) name (value.numbered k)
  | .superRef keyword method => .superRef (keyword.numbered k) method
  | .thisRef keyword => .thisRef (keyword.numbered k)
  | .unary operator right => .unary operator (right.numbered k)
  | .var name => .var (name.numbered k)
  | .misfit form => .misfit (form.numbered k)

def Expr.allNumbered (k : NodeId) : List Expr → List Expr
  | [] => []
  | e :: es => e.numbered k :: Expr.allNumbered (k + e.places) es

end

namespace Expr

def optionalPlaces : Option Expr → Nat
  | none => 0
  | some e => e.places

def optionalNumbered (k : NodeId) : Option Expr → Option Expr
  | none => none
  | some e => some (e.numbered k)

end Expr

/-!
## Statements
-/

namespace Reference

def optionalPlaces : Option Reference → Nat
  | none => 0
  | some _ => 1

def optionalNumbered (k : NodeId) : Option Reference → Option Reference
  | none => none
  | some r => some (r.numbered k)

end Reference

mutual

def Stmt.places : Stmt → Nat
  | .block body => Stmt.allPlaces body
  | .classDecl _ parent methods => Reference.optionalPlaces parent + Function.allPlaces methods
  | .expression inner => inner.places
  | .funDecl f => f.places
  | .ifElse condition thenBranch none => condition.places + thenBranch.places
  | .ifElse condition thenBranch (some elseBranch) =>
      condition.places + thenBranch.places + elseBranch.places
  | .print inner => inner.places
  | .ret _ value => Expr.optionalPlaces value
  | .varDecl _ initial => Expr.optionalPlaces initial
  | .whileLoop condition body => condition.places + body.places
  | .misfit form => form.places

def Stmt.allPlaces : List Stmt → Nat
  | [] => 0
  | s :: ss => s.places + Stmt.allPlaces ss

def Function.places : Function → Nat
  | ⟨_, _, body⟩ => Stmt.allPlaces body

def Function.allPlaces : List Function → Nat
  | [] => 0
  | f :: fs => f.places + Function.allPlaces fs

end

mutual

def Stmt.numbered (k : NodeId) : Stmt → Stmt
  | .block body => .block (Stmt.allNumbered k body)
  | .classDecl name parent methods =>
      .classDecl name (Reference.optionalNumbered k parent)
        (Function.allNumbered (k + Reference.optionalPlaces parent) methods)
  | .expression inner => .expression (inner.numbered k)
  | .funDecl f => .funDecl (f.numbered k)
  | .ifElse condition thenBranch none =>
      .ifElse (condition.numbered k) (thenBranch.numbered (k + condition.places)) none
  | .ifElse condition thenBranch (some elseBranch) =>
      .ifElse (condition.numbered k) (thenBranch.numbered (k + condition.places))
        (some (elseBranch.numbered (k + condition.places + thenBranch.places)))
  | .print inner => .print (inner.numbered k)
  | .ret keyword value => .ret keyword (Expr.optionalNumbered k value)
  | .varDecl name initial => .varDecl name (Expr.optionalNumbered k initial)
  | .whileLoop condition body =>
      .whileLoop (condition.numbered k) (body.numbered (k + condition.places))
  | .misfit form => .misfit (form.numbered k)

def Stmt.allNumbered (k : NodeId) : List Stmt → List Stmt
  | [] => []
  | s :: ss => s.numbered k :: Stmt.allNumbered (k + s.places) ss

def Function.numbered (k : NodeId) : Function → Function
  | ⟨name, params, body⟩ => ⟨name, params, Stmt.allNumbered k body⟩

def Function.allNumbered (k : NodeId) : List Function → List Function
  | [] => []
  | f :: fs => f.numbered k :: Function.allNumbered (k + f.places) fs

end

end Lox
