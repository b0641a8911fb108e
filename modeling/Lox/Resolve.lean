import Lox.Scope

/-!
# Resolving

The resolver walks over a program once, before it runs.  It finds how many scopes
out the name at every node is bound, and it finds the rules of the language that
can be checked without running: where `return`, `this` and `super` may stand,
that a scope declares a name once, and that a variable is not read in its own
initialiser.

What the resolver does with a misfit is a parameter.  A parsed program has none,
and `resolve` leaves them alone.
-/

namespace Lox

inductive FunctionKind where
  | none | function | initialiser | method
deriving DecidableEq, Repr

inductive ClassKind where
  | none | plain | subclass
deriving DecidableEq, Repr

structure Context where
  function : FunctionKind := .none
  cls : ClassKind := .none
deriving DecidableEq, Repr

/-- A result, the scopes behind it, and what was found on the way. -/
structure Resolution (α : Type) where
  value : α
  scopes : Scopes
  findings : List Finding

def Resolve (α : Type) : Type := Scopes → Resolution α

namespace Resolve

def ok (value : α) : Resolve α := fun scopes => ⟨value, scopes, []⟩

@[inline] def andThen (p : Resolve α) (next : α → Resolve β) : Resolve β := fun scopes =>
  let first := p scopes
  let second := next first.value first.scopes
  ⟨second.value, second.scopes, first.findings ++ second.findings⟩

instance : Monad Resolve where
  pure := ok
  bind := andThen

def note (finding : Finding) : Resolve Unit := fun scopes => ⟨(), scopes, [finding]⟩

def require (allowed : Bool) (token : Token) (rule : Violation) : Resolve Unit :=
  if allowed then ok () else note (.violation token rule)

def scopes : Resolve Scopes := fun scopes => ⟨scopes, scopes, []⟩

def mark (name : Token) (finished : Bool) : Resolve Unit := fun scopes =>
  ⟨(), scopes.mark name.lexeme finished, []⟩

/-- Resolve inside a new scope. -/
def within (scope : Scope) (p : Resolve α) : Resolve α := fun scopes =>
  let inner := p (scope :: scopes)
  ⟨inner.value, inner.scopes.tail, inner.findings⟩

/-!
## Names
-/

def declare (name : Token) : Resolve Unit := do
  require (!(← scopes).declaredHere name.lexeme) name .alreadyDeclared
  mark name false

def define (name : Token) : Resolve Unit := mark name true

def declareAll : List Token → Resolve Unit
  | [] => ok ()
  | name :: names => do
      declare name
      define name
      declareAll names

def reference (kind : ReferenceKind) (r : Reference) : Resolve Unit := do
  match (← scopes).depth? r.name.lexeme with
  | some depth => note (.local r.node ⟨kind, r.name, depth⟩)
  | none => note (.global r.node r.name)

def variableReference (r : Reference) : Resolve Unit := do
  require (!(← scopes).unfinishedHere r.name.lexeme) r.name .readInOwnInitialiser
  reference .variable r

def thisReference (ctx : Context) (r : Reference) : Resolve Unit :=
  match ctx.cls with
  | .none => note (.violation r.name .thisOutsideClass)
  | _ => reference .this r

def superReference (ctx : Context) (r : Reference) : Resolve Unit := do
  match ctx.cls with
  | .none => note (.violation r.name .superOutsideClass)
  | .plain => note (.violation r.name .superWithoutSuperclass)
  | .subclass => ok ()
  reference .super r

/-!
## Expressions
-/

section

variable (misfit : Context → Form → Resolve Unit)

mutual

def expr (ctx : Context) : Expr → Resolve Unit
  | .assign target value => do
      expr ctx value
      reference .assign target
  | .binary left _ right => do
      expr ctx left
      expr ctx right
  | .call callee _ arguments => do
      expr ctx callee
      exprs ctx arguments
  | .conditional condition thenBranch elseBranch => do
      expr ctx condition
      expr ctx thenBranch
      expr ctx elseBranch
  | .get object _ => expr ctx object
  | .grouping inner => expr ctx inner
  | .literal _ => ok ()
  | .logical left _ right => do
      expr ctx left
      expr ctx right
  | .set object _ value => do
      expr ctx value
      expr ctx object
  | .superRef keyword _ => superReference ctx keyword
  | .thisRef keyword => thisReference ctx keyword
  | .unary _ right => expr ctx right
  | .var name => variableReference name
  | .misfit form => misfit ctx form

def exprs (ctx : Context) : List Expr → Resolve Unit
  | [] => ok ()
  | e :: es => do
      expr ctx e
      exprs ctx es

end

def optionalExpr (ctx : Context) : Option Expr → Resolve Unit
  | none => ok ()
  | some e => expr misfit ctx e

/-!
## Statements
-/

def superclass (name : Token) : Option Reference → Resolve Unit
  | none => ok ()
  | some parent => do
      require (name.lexeme != parent.name.lexeme) parent.name .inheritsFromItself
      variableReference parent

/-- The scopes around the methods of a class: `this`, and outside it `super` in a subclass. -/
def classScopes (subclass : Bool) (p : Resolve α) : Resolve α :=
  if subclass then within [("super", true)] (within [("this", true)] p)
  else within [("this", true)] p

/-- A `return` statement outside a function, or with a value in an initialiser, breaks a rule. -/
def checkReturn (ctx : Context) (keyword : Token) (hasValue : Bool) : Resolve Unit := do
  require (ctx.function != .none) keyword .returnAtTopLevel
  require (!(hasValue && ctx.function == .initialiser)) keyword .returnFromInitialiser

def methodKind (f : Function) : FunctionKind :=
  if f.isInitialiser then .initialiser else .method

mutual

def stmt (ctx : Context) : Stmt → Resolve Unit
  | .block body => within [] (stmts ctx body)
  | .classDecl name parent methods => do
      declare name
      define name
      superclass name parent
      let kind := if parent.isSome then ClassKind.subclass else .plain
      classScopes parent.isSome (functions { ctx with cls := kind } methods)
  | .expression inner => expr misfit ctx inner
  | .funDecl f => do
      declare f.name
      define f.name
      function ctx .function f
  | .ifElse condition thenBranch elseBranch => do
      expr misfit ctx condition
      stmt ctx thenBranch
      optionalStmt ctx elseBranch
  | .print inner => expr misfit ctx inner
  | .ret keyword value => do
      checkReturn ctx keyword value.isSome
      optionalExpr misfit ctx value
  | .varDecl name initial => do
      declare name
      optionalExpr misfit ctx initial
      define name
  | .whileLoop condition body => do
      expr misfit ctx condition
      stmt ctx body
  | .misfit form => misfit ctx form

def optionalStmt (ctx : Context) : Option Stmt → Resolve Unit
  | none => ok ()
  | some s => stmt ctx s

def stmts (ctx : Context) : List Stmt → Resolve Unit
  | [] => ok ()
  | s :: ss => do
      stmt ctx s
      stmts ctx ss

def function (ctx : Context) (kind : FunctionKind) : Function → Resolve Unit
  | ⟨_, params, body⟩ => within [] do
      declareAll params
      stmts { ctx with function := kind } body

def functions (ctx : Context) : List Function → Resolve Unit
  | [] => ok ()
  | f :: fs => do
      function ctx (methodKind f) f
      functions ctx fs

end

end

def leave (_ : Context) (_ : Form) : Resolve Unit := ok ()

end Resolve

def resolve (program : List Stmt) : Resolution Unit := Resolve.stmts Resolve.leave {} program []

namespace Resolution

def diagnostics (r : Resolution α) : List Diagnostic := r.findings.filterMap Finding.diagnostic?

def distances (r : Resolution α) : List Distance := r.findings.filterMap Finding.distance?

end Resolution
end Lox
