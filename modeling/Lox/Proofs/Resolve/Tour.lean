import Lox.Proofs.Resolve

/-!
# Resolving with one state

Another way to resolve, in which nothing is handed on from a tree to its parts.
The scopes, the function and the class around the present place are kept in one
state.  A scope is begun in one step and ended in a later one, and a function or a
class has to put back by hand what it found in the state.  The tour records every
state on its way.

The main result of this module is that the two ways of resolving agree.
-/

namespace Lox

structure Resolver where
  scopes : Scopes
  function : FunctionKind
  cls : ClassKind
deriving DecidableEq, Repr

namespace Resolver

def context (r : Resolver) : Context := ⟨r.function, r.cls⟩

end Resolver

/-- A result, the state behind it, and on the way to it the states after each change and what
was found. -/
structure Tour (α : Type) where
  value : α
  after : Resolver
  passed : List Resolver
  findings : List Finding

namespace Tour

def resolution (t : Tour α) : Resolution α := ⟨t.value, t.after.scopes, t.findings⟩

end Tour

def Touring (α : Type) : Type := Resolver → Tour α

namespace Touring

def done (value : α) : Touring α := fun r => ⟨value, r, [], []⟩

def andThen (p : Touring α) (next : α → Touring β) : Touring β := fun r =>
  let first := p r
  let second := next first.value first.after
  ⟨second.value, second.after, first.passed ++ second.passed, first.findings ++ second.findings⟩

instance : Monad Touring where
  pure := done
  bind := andThen

def get : Touring Resolver := fun r => ⟨r, r, [], []⟩

def change (f : Resolver → Resolver) : Touring Unit := fun r => ⟨(), f r, [f r], []⟩

def look (p : Context → Resolve α) : Touring α := fun r =>
  ⟨(p r.context r.scopes).value, r, [], (p r.context r.scopes).findings⟩

/-!
# The changes
-/

def beginScope : Touring Unit := change fun r => { r with scopes := [] :: r.scopes }

def endScope : Touring Unit := change fun r => { r with scopes := r.scopes.tail }

def setFunction (kind : FunctionKind) : Touring Unit := change fun r => { r with function := kind }

def setClass (kind : ClassKind) : Touring Unit := change fun r => { r with cls := kind }

def mark (name : String) (finished : Bool) : Touring Unit :=
  change fun r => { r with scopes := r.scopes.mark name finished }

def declare (name : Token) : Touring Unit := do
  let declared := (← get).scopes.declaredHere name.lexeme
  look fun _ => Resolve.require (!declared) name .alreadyDeclared
  mark name.lexeme false

def define (name : Token) : Touring Unit := mark name.lexeme true

def declareAll : List Token → Touring Unit
  | [] => done ()
  | name :: names => do
      declare name
      define name
      declareAll names

/-!
# Expressions
-/

mutual

def expr : Expr → Touring Unit
  | .assign target value => do
      expr value
      look fun _ => Resolve.reference .assign target
  | .binary left _ right => do
      expr left
      expr right
  | .call callee _ arguments => do
      expr callee
      exprs arguments
  | .conditional condition thenBranch elseBranch => do
      expr condition
      expr thenBranch
      expr elseBranch
  | .get object _ => expr object
  | .grouping inner => expr inner
  | .literal _ => done ()
  | .logical left _ right => do
      expr left
      expr right
  | .set object _ value => do
      expr value
      expr object
  | .superRef keyword _ => look fun ctx => Resolve.superReference ctx keyword
  | .thisRef keyword => look fun ctx => Resolve.thisReference ctx keyword
  | .unary _ right => expr right
  | .var name => look fun _ => Resolve.variableReference name
  | .misfit _ => done ()

def exprs : List Expr → Touring Unit
  | [] => done ()
  | e :: es => do
      expr e
      exprs es

end

def optionalExpr : Option Expr → Touring Unit
  | none => done ()
  | some e => expr e

/-!
# Statements
-/

/-- The superclass clause of a class declaration; the scope that it begins is ended by the class. -/
def superclass (name : Token) : Option Reference → Touring Unit
  | none => done ()
  | some parent => do
      look fun _ =>
        Resolve.require (name.lexeme != parent.name.lexeme) parent.name .inheritsFromItself
      setClass .subclass
      look fun _ => Resolve.variableReference parent
      beginScope
      mark "super" true

def endSuperclass : Option Reference → Touring Unit
  | none => done ()
  | some _ => endScope

mutual

def stmt : Stmt → Touring Unit
  | .block body => do
      beginScope
      stmts body
      endScope
  | .classDecl name parent methods => do
      let enclosing := (← get).cls
      setClass .plain
      declare name
      define name
      superclass name parent
      beginScope
      mark "this" true
      functions methods
      endScope
      endSuperclass parent
      setClass enclosing
  | .expression inner => expr inner
  | .funDecl f => do
      declare f.name
      define f.name
      function .function f
  | .ifElse condition thenBranch elseBranch => do
      expr condition
      stmt thenBranch
      optionalStmt elseBranch
  | .print inner => expr inner
  | .ret keyword value => do
      look fun ctx => Resolve.checkReturn ctx keyword value.isSome
      optionalExpr value
  | .varDecl name initial => do
      declare name
      optionalExpr initial
      define name
  | .whileLoop condition body => do
      expr condition
      stmt body
  | .misfit _ => done ()

def optionalStmt : Option Stmt → Touring Unit
  | none => done ()
  | some s => stmt s

def stmts : List Stmt → Touring Unit
  | [] => done ()
  | s :: ss => do
      stmt s
      stmts ss

def function (kind : FunctionKind) : Function → Touring Unit
  | ⟨_, params, body⟩ => do
      let enclosing := (← get).function
      setFunction kind
      beginScope
      declareAll params
      stmts body
      endScope
      setFunction enclosing

def functions : List Function → Touring Unit
  | [] => done ()
  | f :: fs => do
      function (Resolve.methodKind f) f
      functions fs

end

/-!
# The two ways agree
-/

@[simp]
theorem bind_apply (p : Touring α) (next : α → Touring β) (r : Resolver) :
    (p >>= next) r =
      ⟨(next (p r).value (p r).after).value, (next (p r).value (p r).after).after,
        (p r).passed ++ (next (p r).value (p r).after).passed,
        (p r).findings ++ (next (p r).value (p r).after).findings⟩ := rfl

@[simp]
theorem done_apply (value : α) (r : Resolver) : done value r = ⟨value, r, [], []⟩ := rfl

@[simp]
theorem get_apply (r : Resolver) : get r = ⟨r, r, [], []⟩ := rfl

@[simp]
theorem change_apply (f : Resolver → Resolver) (r : Resolver) :
    change f r = ⟨(), f r, [f r], []⟩ := rfl

@[simp]
theorem look_apply (p : Context → Resolve α) (r : Resolver) :
    look p r = ⟨(p r.context r.scopes).value, r, [], (p r.context r.scopes).findings⟩ := rfl

@[simp]
theorem context_mk (S : Scopes) (f : FunctionKind) (c : ClassKind) :
    Resolver.context ⟨S, f, c⟩ = ⟨f, c⟩ := rfl

/-- The tour ends as the resolver does, with the function and the class that it began with. -/
def Agrees (p : Touring α) (q : Context → Resolve α) : Prop :=
  ∀ S f c, (p ⟨S, f, c⟩).resolution = q ⟨f, c⟩ S ∧ (p ⟨S, f, c⟩).after.context = ⟨f, c⟩

theorem Agrees.apply {p : Touring α} {q : Context → Resolve α} (hp : Agrees p q) (S : Scopes)
    (f : FunctionKind) (c : ClassKind) :
    ∃ passed, p ⟨S, f, c⟩ =
      ⟨(q ⟨f, c⟩ S).value, ⟨(q ⟨f, c⟩ S).scopes, f, c⟩, passed, (q ⟨f, c⟩ S).findings⟩ := by
  rcases hp S f c with ⟨hresolution, hcontext⟩
  rcases htour : p ⟨S, f, c⟩ with ⟨value, ⟨S', f', c'⟩, passed, findings⟩
  rw [htour] at hresolution hcontext
  cases hcontext
  rw [← hresolution]
  exact ⟨passed, rfl⟩

theorem agrees_done (value : α) : Agrees (done value) fun _ => Resolve.ok value := by
  intro S f c
  exact ⟨rfl, rfl⟩

theorem agrees_look {q : Context → Resolve α} (hscopes : ∀ ctx S, (q ctx S).scopes = S) :
    Agrees (look q) q := by
  intro S f c
  have hsame := hscopes ⟨f, c⟩ S
  rcases hq : q ⟨f, c⟩ S with ⟨value, S', findings⟩
  rw [hq] at hsame
  simp only at hsame
  simp [Tour.resolution, hq, hsame]

theorem Agrees.bind {p : Touring α} {q : Context → Resolve α} {next : α → Touring β}
    {next' : Context → α → Resolve β} (hp : Agrees p q)
    (hnext : ∀ a, Agrees (next a) fun ctx => next' ctx a) :
    Agrees (p >>= next) fun ctx => q ctx >>= next' ctx := by
  intro S f c
  rcases hp.apply S f c with ⟨first, hfirst⟩
  rcases (hnext (q ⟨f, c⟩ S).value).apply (q ⟨f, c⟩ S).scopes f c with ⟨second, hsecond⟩
  simp [Tour.resolution, hfirst, hsecond]

theorem agrees_declare (name : Token) : Agrees (declare name) fun _ => Resolve.declare name := by
  intro S f c
  simp [Tour.resolution, declare, Resolve.declare, mark, Resolve.mark, Resolve.require_apply]

theorem agrees_define (name : Token) : Agrees (define name) fun _ => Resolve.define name := by
  intro S f c
  exact ⟨rfl, rfl⟩

theorem agrees_declareAll (names : List Token) :
    Agrees (declareAll names) fun _ => Resolve.declareAll names := by
  induction names with
  | nil => exact agrees_done ()
  | cons name names ih =>
      exact (agrees_declare name).bind fun _ => (agrees_define name).bind fun _ => ih

/-!
An expression changes the state nowhere on its way.
-/

mutual

theorem expr_eq_look : (e : Expr) → expr e = look fun ctx => Resolve.expr Resolve.leave ctx e
  | .assign _ value => by
      funext r
      simp [expr, Resolve.expr, expr_eq_look value]
  | .binary left _ right => by
      funext r
      simp [expr, Resolve.expr, expr_eq_look left, expr_eq_look right]
  | .call callee _ arguments => by
      funext r
      simp [expr, Resolve.expr, expr_eq_look callee, exprs_eq_look arguments]
  | .conditional condition thenBranch elseBranch => by
      funext r
      simp [expr, Resolve.expr, expr_eq_look condition, expr_eq_look thenBranch,
        expr_eq_look elseBranch]
  | .get object _ => by
      funext r
      simp [expr, Resolve.expr, expr_eq_look object]
  | .grouping inner => by
      funext r
      simp [expr, Resolve.expr, expr_eq_look inner]
  | .literal _ => by
      funext r
      simp [expr, Resolve.expr]
  | .logical left _ right => by
      funext r
      simp [expr, Resolve.expr, expr_eq_look left, expr_eq_look right]
  | .set object _ value => by
      funext r
      simp [expr, Resolve.expr, expr_eq_look object, expr_eq_look value]
  | .superRef _ _ => by
      funext r
      simp [expr, Resolve.expr]
  | .thisRef _ => by
      funext r
      simp [expr, Resolve.expr]
  | .unary _ right => by
      funext r
      simp [expr, Resolve.expr, expr_eq_look right]
  | .var _ => by
      funext r
      simp [expr, Resolve.expr]
  | .misfit _ => by
      funext r
      simp [expr, Resolve.expr, Resolve.leave]

theorem exprs_eq_look :
    (es : List Expr) → exprs es = look fun ctx => Resolve.exprs Resolve.leave ctx es
  | [] => rfl
  | e :: es => by
      funext r
      simp [exprs, Resolve.exprs, expr_eq_look e, exprs_eq_look es]

end

theorem optionalExpr_eq_look (e : Option Expr) :
    optionalExpr e = look fun ctx => Resolve.optionalExpr Resolve.leave ctx e := by
  funext r
  cases e with
  | none => rfl
  | some e => simp [optionalExpr, Resolve.optionalExpr, expr_eq_look e]

theorem agrees_expr (e : Expr) : Agrees (expr e) fun ctx => Resolve.expr Resolve.leave ctx e := by
  rw [expr_eq_look]
  exact agrees_look fun ctx S => Resolve.expr_scopes ctx S e

theorem agrees_optionalExpr (e : Option Expr) :
    Agrees (optionalExpr e) fun ctx => Resolve.optionalExpr Resolve.leave ctx e := by
  rw [optionalExpr_eq_look]
  exact agrees_look fun ctx S => Resolve.optionalExpr_scopes ctx S e

/-!
What a block, a function and a class change on their way they change back.
-/

theorem Agrees.block {body : List Stmt}
    (hbody : Agrees (stmts body) fun ctx => Resolve.stmts Resolve.leave ctx body) :
    Agrees (stmt (.block body)) fun ctx => Resolve.stmt Resolve.leave ctx (.block body) := by
  intro S f c
  rcases hbody.apply ([] :: S) f c with ⟨inside, hinside⟩
  simp [Tour.resolution, stmt, Resolve.stmt, Resolve.within, beginScope, endScope, hinside]

theorem Agrees.function {name : Token} {params : List Token} {body : List Stmt}
    (kind : FunctionKind)
    (hbody : Agrees (stmts body) fun ctx => Resolve.stmts Resolve.leave ctx body) :
    Agrees (function kind ⟨name, params, body⟩) fun ctx =>
      Resolve.function Resolve.leave ctx kind ⟨name, params, body⟩ := by
  intro S f c
  rcases (agrees_declareAll params).apply ([] :: S) kind c with ⟨declared, hdeclared⟩
  rcases hbody.apply (Resolve.declareAll params ([] :: S)).scopes kind c with ⟨inside, hinside⟩
  simp [Tour.resolution, Touring.function, Resolve.function, Resolve.within, setFunction,
    beginScope, endScope, hdeclared, hinside]

theorem mark_cons (scope : Scope) (S : Scopes) (name : String) (b : Bool) :
    Scopes.mark (scope :: S) name b = ((name, b) :: scope) :: S := rfl

theorem Agrees.classDecl {name : Token} {parent : Option Reference} {methods : List Function}
    (hmethods : Agrees (functions methods) fun ctx =>
      Resolve.functions Resolve.leave ctx methods) :
    Agrees (stmt (.classDecl name parent methods)) fun ctx =>
      Resolve.stmt Resolve.leave ctx (.classDecl name parent methods) := by
  intro S f c
  rcases (agrees_declare name).apply S f .plain with ⟨declared, hdeclared⟩
  have hfinished : (S.mark name.lexeme false).mark name.lexeme true = S.finished name.lexeme := rfl
  cases parent with
  | none =>
      rcases hmethods.apply ([("this", true)] :: S.finished name.lexeme) f .plain
        with ⟨inside, hinside⟩
      simp [Tour.resolution, stmt, setClass, hdeclared, define, mark, hfinished, superclass,
        beginScope, mark_cons, hinside, endScope, endSuperclass, Resolve.stmt_classDecl,
        Scopes.aroundMethods, Resolve.superclass]
  | some parent =>
      rcases hmethods.apply ([("this", true)] :: [("super", true)] :: S.finished name.lexeme) f
        .subclass with ⟨inside, hinside⟩
      simp [Tour.resolution, stmt, setClass, hdeclared, define, mark, hfinished, superclass,
        beginScope, mark_cons, hinside, endScope, endSuperclass, Resolve.stmt_classDecl,
        Scopes.aroundMethods, Resolve.superclass, Resolve.require_apply]

mutual

theorem agrees_stmt : (s : Stmt) → Agrees (stmt s) fun ctx => Resolve.stmt Resolve.leave ctx s
  | .block body => (agrees_stmts body).block
  | .classDecl name parent methods => (agrees_functions methods).classDecl
  | .expression inner => by
      simp only [stmt, Resolve.stmt]
      exact agrees_expr inner
  | .funDecl f => by
      simp only [stmt, Resolve.stmt]
      apply (agrees_declare f.name).bind
      intro _
      apply (agrees_define f.name).bind
      intro _
      exact agrees_function .function f
  | .ifElse condition thenBranch elseBranch => by
      simp only [stmt, Resolve.stmt]
      apply (agrees_expr condition).bind
      intro _
      apply (agrees_stmt thenBranch).bind
      intro _
      exact agrees_optionalStmt elseBranch
  | .print inner => by
      simp only [stmt, Resolve.stmt]
      exact agrees_expr inner
  | .ret keyword value => by
      simp only [stmt, Resolve.stmt]
      apply (agrees_look fun ctx S => Resolve.checkReturn_scopes ctx keyword value.isSome S).bind
      intro _
      exact agrees_optionalExpr value
  | .varDecl name initial => by
      simp only [stmt, Resolve.stmt]
      apply (agrees_declare name).bind
      intro _
      apply (agrees_optionalExpr initial).bind
      intro _
      exact agrees_define name
  | .whileLoop condition body => by
      simp only [stmt, Resolve.stmt]
      apply (agrees_expr condition).bind
      intro _
      exact agrees_stmt body
  | .misfit form => by
      simp only [stmt, Resolve.stmt]
      exact agrees_done ()

theorem agrees_optionalStmt :
    (s : Option Stmt) → Agrees (optionalStmt s) fun ctx => Resolve.optionalStmt Resolve.leave ctx s
  | none => by
      simp only [optionalStmt, Resolve.optionalStmt]
      exact agrees_done ()
  | some s => by
      simp only [optionalStmt, Resolve.optionalStmt]
      exact agrees_stmt s

theorem agrees_stmts :
    (ss : List Stmt) → Agrees (stmts ss) fun ctx => Resolve.stmts Resolve.leave ctx ss
  | [] => by
      simp only [stmts, Resolve.stmts]
      exact agrees_done ()
  | s :: ss => by
      simp only [stmts, Resolve.stmts]
      apply (agrees_stmt s).bind
      intro _
      exact agrees_stmts ss

theorem agrees_function (kind : FunctionKind) :
    (f : Function) → Agrees (function kind f) fun ctx => Resolve.function Resolve.leave ctx kind f
  | ⟨_, _, body⟩ => (agrees_stmts body).function kind

theorem agrees_functions :
    (fs : List Function) → Agrees (functions fs) fun ctx => Resolve.functions Resolve.leave ctx fs
  | [] => by
      simp only [functions, Resolve.functions]
      exact agrees_done ()
  | f :: fs => by
      simp only [functions, Resolve.functions]
      apply (agrees_function (Resolve.methodKind f) f).bind
      intro _
      exact agrees_functions fs

end

end Touring
end Lox
