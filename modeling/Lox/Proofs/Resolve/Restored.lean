import Lox.Proofs.Resolve.Scopes
import Lox.Proofs.Resolve.Tour

/-!
# What resolving a tree leaves behind

A tour through a tree comes back to the function, the class and the scopes from
which it set out, but for the names that the tree itself declares in the innermost
scope.  Of all names, at any time at most one is in its declaration, the one whose
initialiser is being resolved, and it stands in the innermost scope.
-/

namespace Lox

/-!
# The names a tree declares around itself

A block keeps its names for itself, a branch and the body of a loop do not.
-/

def Stmt.ownNames : Stmt → List String
  | .block _ => []
  | .classDecl name _ _ => [name.lexeme]
  | .expression _ => []
  | .funDecl f => [f.name.lexeme]
  | .ifElse _ thenBranch none => thenBranch.ownNames
  | .ifElse _ thenBranch (some elseBranch) => thenBranch.ownNames ++ elseBranch.ownNames
  | .print _ => []
  | .ret _ _ => []
  | .varDecl name _ => [name.lexeme]
  | .whileLoop _ body => body.ownNames
  | .misfit _ => []

inductive Tree where
  | expr (e : Expr)
  | stmt (s : Stmt)
  | stmts (body : List Stmt)

namespace Tree

def ownNames : Tree → List String
  | .expr _ => []
  | .stmt s => s.ownNames
  | .stmts body => body.flatMap Stmt.ownNames

def resolve (ctx : Context) : Tree → Resolve Unit
  | .expr e => Resolve.expr Resolve.leave ctx e
  | .stmt s => Resolve.stmt Resolve.leave ctx s
  | .stmts body => Resolve.stmts Resolve.leave ctx body

def tour : Tree → Touring Unit
  | .expr e => Touring.expr e
  | .stmt s => Touring.stmt s
  | .stmts body => Touring.stmts body

theorem agrees_tour (tree : Tree) : Touring.Agrees tree.tour fun ctx => tree.resolve ctx := by
  cases tree with
  | expr e => exact Touring.agrees_expr e
  | stmt s => exact Touring.agrees_stmt s
  | stmts body => exact Touring.agrees_stmts body

end Tree

namespace Resolve

/-!
# The scopes behind a tree
-/

theorem stmt_finished (ctx : Context) :
    (s : Stmt) → (S : Scopes) → (stmt leave ctx s S).scopes = s.ownNames.foldl Scopes.finished S
  | .block _, S => by rw [stmt_block]; rfl
  | .classDecl _ _ _, S => by rw [stmt_classDecl]; rfl
  | .expression _, S => by rw [stmt_expression, expr_scopes]; rfl
  | .funDecl _, S => by rw [stmt_funDecl]; rfl
  | .ifElse _ thenBranch none, S => by
      rw [stmt_ifThen, stmt_finished ctx thenBranch S, Stmt.ownNames]
  | .ifElse _ thenBranch (some elseBranch), S => by
      rw [stmt_ifElse (stmt_finished ctx thenBranch S), stmt_finished ctx elseBranch,
        Stmt.ownNames, List.foldl_append]
  | .print _, S => by rw [stmt_print, expr_scopes]; rfl
  | .ret _ _, S => by rw [stmt_ret]; rfl
  | .varDecl _ _, S => by rw [stmt_varDecl]; rfl
  | .whileLoop _ body, S => by
      rw [stmt_whileLoop, stmt_finished ctx body S, Stmt.ownNames]
  | .misfit _, S => rfl

theorem stmts_finished (ctx : Context) (body : List Stmt) (S : Scopes) :
    (stmts leave ctx body S).scopes =
      (body.flatMap Stmt.ownNames).foldl Scopes.finished S := by
  induction body generalizing S with
  | nil => rfl
  | cons s body ih =>
      rw [stmts_cons (stmt_finished ctx s S), ih, List.flatMap_cons, List.foldl_append]

end Resolve

/--
Resolving a tree does nothing to the scopes but to declare its own names, one after
the other.
-/
theorem Tree.resolve_scopes (ctx : Context) (tree : Tree) (S : Scopes) :
    (tree.resolve ctx S).scopes = tree.ownNames.foldl Scopes.finished S := by
  cases tree with
  | expr e => exact Resolve.expr_scopes ctx S e
  | stmt s => exact Resolve.stmt_finished ctx s S
  | stmts body => exact Resolve.stmts_finished ctx body S

namespace Scopes

theorem tail_finished (S : Scopes) (names : List String) :
    (names.foldl finished S).tail = S.tail ∧ (names.foldl finished S).length = S.length := by
  induction names generalizing S with
  | nil => exact ⟨rfl, rfl⟩
  | cons name names ih =>
      rcases ih (S.finished name) with ⟨htail, hlength⟩
      rw [List.foldl_cons, htail, hlength]
      cases S with
      | nil => exact ⟨rfl, rfl⟩
      | cons scope S => exact ⟨rfl, rfl⟩

theorem declaredHere_finished (S : Scopes) (names : List String) (name : String) :
    (names.foldl finished S).declaredHere name = true ↔
      S.declaredHere name = true ∨ S ≠ [] ∧ name ∈ names := by
  induction names generalizing S with
  | nil => simp
  | cons first names ih =>
      rw [List.foldl_cons, ih]
      cases S with
      | nil => simp [finished, mark, declaredHere]
      | cons scope S =>
          simp only [finished, mark, declaredHere, Node.declares_cons, List.mem_cons, ne_eq,
            reduceCtorEq, not_false_eq_true, true_and, or_assoc, or_self_left]

/-!
# Names in their declaration
-/

/-- No name is in its declaration. -/
def Settled (S : Scopes) : Prop := ∀ scope ∈ S, ∀ name, Scope.mark? scope name ≠ some false

/-- At most one name is in its declaration, and it stands in the innermost scope. -/
structure Calm (S : Scopes) : Prop where
  outer : Settled S.tail
  inner : ∀ first second, S.unfinishedHere first = true → S.unfinishedHere second = true →
    first = second

theorem settled_iff {S : Scopes} :
    S.Settled ↔ (∀ name, S.unfinishedHere name = false) ∧ Settled S.tail := by
  cases S with
  | nil => simp [Settled, unfinishedHere]
  | cons scope S => simp [Settled, unfinishedHere]

theorem Settled.calm {S : Scopes} (hsettled : S.Settled) : S.Calm := by
  rcases settled_iff.mp hsettled with ⟨hhere, htail⟩
  refine ⟨htail, ?_⟩
  intro first second hfirst
  rw [hhere first] at hfirst
  cases hfirst

theorem Settled.cons {S : Scopes} (hsettled : S.Settled) : Settled ([] :: S) := by
  rw [settled_iff]
  exact ⟨fun _ => rfl, hsettled⟩

theorem Settled.tail {S : Scopes} (hsettled : S.Settled) : Settled S.tail :=
  (settled_iff.mp hsettled).2

theorem tail_mark (S : Scopes) (name : String) (b : Bool) : (S.mark name b).tail = S.tail := by
  cases S <;> rfl

theorem Settled.mark_true {S : Scopes} (hsettled : S.Settled) (name : String) :
    (S.mark name true).Settled := by
  rcases settled_iff.mp hsettled with ⟨hhere, htail⟩
  rw [settled_iff, tail_mark]
  refine ⟨?_, htail⟩
  intro other
  rw [Bool.eq_false_iff, ne_eq, Node.unfinishedHere_mark]
  simp [hhere]

theorem Settled.mark_false {S : Scopes} (hsettled : S.Settled) (name : String) :
    (S.mark name false).Calm := by
  rcases settled_iff.mp hsettled with ⟨hhere, htail⟩
  have honly : ∀ other, (S.mark name false).unfinishedHere other = true → other = name := by
    intro other hother
    rw [Node.unfinishedHere_mark] at hother
    by_contra hne
    simp [hne, hhere] at hother
  constructor
  · rw [tail_mark]
    exact htail
  · intro first second hfirst hsecond
    rw [honly first hfirst, honly second hsecond]

theorem Settled.finished {S : Scopes} (hsettled : S.Settled) (name : String) :
    (S.finished name).Settled := by
  rcases settled_iff.mp hsettled with ⟨hhere, htail⟩
  rw [settled_iff]
  constructor
  · intro other
    rw [Bool.eq_false_iff, ne_eq, Node.unfinishedHere_finished, hhere other]
    simp
  · rw [Scopes.finished, tail_mark, tail_mark]
    exact htail

end Scopes

namespace Touring

/-- From a state with all names settled the tour comes to such a state again, and every state on
the way is calm. -/
def Keeps (p : Touring α) : Prop :=
  ∀ r : Resolver, r.scopes.Settled →
    (p r).after.scopes.Settled ∧ ∀ passed ∈ (p r).passed, passed.scopes.Calm

theorem keeps_look (p : Context → Resolve α) : Keeps (look p) := by
  intro r hr
  refine ⟨hr, ?_⟩
  intro passed hpassed
  cases hpassed

theorem keeps_done (value : α) : Keeps (done value) := keeps_look fun _ => Resolve.ok value

theorem keeps_get : Keeps get := by
  intro r hr
  refine ⟨hr, ?_⟩
  intro passed hpassed
  cases hpassed

theorem keeps_change {f : Resolver → Resolver}
    (hf : ∀ r, r.scopes.Settled → (f r).scopes.Settled) : Keeps (change f) := by
  intro r hr
  refine ⟨hf r hr, ?_⟩
  intro passed hpassed
  rw [List.mem_singleton.mp hpassed]
  exact (hf r hr).calm

theorem Keeps.bind {p : Touring α} {next : α → Touring β} (hp : Keeps p)
    (hnext : ∀ a, Keeps (next a)) : Keeps (p >>= next) := by
  intro r hr
  rcases hp r hr with ⟨hafter, hfirst⟩
  rcases hnext (p r).value (p r).after hafter with ⟨hend, hsecond⟩
  refine ⟨hend, ?_⟩
  intro passed hpassed
  rcases List.mem_append.mp hpassed with hpassed | hpassed
  · exact hfirst passed hpassed
  · exact hsecond passed hpassed

theorem keeps_beginScope : Keeps beginScope := keeps_change fun _ hr => hr.cons

theorem keeps_endScope : Keeps endScope := keeps_change fun _ hr => hr.tail

theorem keeps_setFunction (kind : FunctionKind) : Keeps (setFunction kind) :=
  keeps_change fun _ hr => hr

theorem keeps_setClass (kind : ClassKind) : Keeps (setClass kind) :=
  keeps_change fun _ hr => hr

theorem keeps_mark (name : String) : Keeps (mark name true) :=
  keeps_change fun _ hr => hr.mark_true name

/-- Between the two halves of a declaration the state is only looked at. -/
theorem keeps_declaration (name : Token) (p : Context → Resolve α) :
    Keeps (declare name >>= fun _ => look p >>= fun _ => define name) := by
  intro r hr
  have hfinished := hr.finished name.lexeme
  refine ⟨hfinished, ?_⟩
  intro passed hpassed
  simp only [declare, define, mark, bind_apply, get_apply, look_apply, change_apply,
    List.nil_append, List.cons_append, List.mem_cons, List.not_mem_nil, or_false] at hpassed
  rcases hpassed with rfl | rfl
  · exact hr.mark_false name.lexeme
  · exact hfinished.calm

theorem Keeps.declare_define {next : Touring α} (name : Token) (hnext : Keeps next) :
    Keeps (declare name >>= fun _ => define name >>= fun _ => next) :=
  (keeps_declaration name fun _ => Resolve.ok ()).bind fun _ => hnext

theorem keeps_declareAll (names : List Token) : Keeps (declareAll names) := by
  induction names with
  | nil => exact keeps_done ()
  | cons name names ih => exact ih.declare_define name

theorem keeps_expr (e : Expr) : Keeps (expr e) := by
  rw [expr_eq_look]
  exact keeps_look _

theorem keeps_optionalExpr (e : Option Expr) : Keeps (optionalExpr e) := by
  rw [optionalExpr_eq_look]
  exact keeps_look _

theorem keeps_superclass (name : Token) (parent : Option Reference) :
    Keeps (superclass name parent) := by
  cases parent with
  | none => exact keeps_done ()
  | some parent =>
      apply (keeps_look _).bind
      intro _
      apply (keeps_setClass _).bind
      intro _
      apply (keeps_look _).bind
      intro _
      apply keeps_beginScope.bind
      intro _
      exact keeps_mark _

theorem keeps_endSuperclass (parent : Option Reference) : Keeps (endSuperclass parent) := by
  cases parent with
  | none => exact keeps_done ()
  | some parent => exact keeps_endScope

mutual

theorem keeps_stmt : (s : Stmt) → Keeps (stmt s)
  | .block body => by
      rw [stmt]
      apply keeps_beginScope.bind
      intro _
      apply (keeps_stmts body).bind
      intro _
      exact keeps_endScope
  | .classDecl name parent methods => by
      rw [stmt]
      apply keeps_get.bind
      intro _
      apply (keeps_setClass _).bind
      intro _
      apply Keeps.declare_define
      apply (keeps_superclass name parent).bind
      intro _
      apply keeps_beginScope.bind
      intro _
      apply (keeps_mark _).bind
      intro _
      apply (keeps_functions methods).bind
      intro _
      apply keeps_endScope.bind
      intro _
      apply (keeps_endSuperclass parent).bind
      intro _
      exact keeps_setClass _
  | .expression inner => by
      rw [stmt]
      exact keeps_expr inner
  | .funDecl f => by
      rw [stmt]
      apply Keeps.declare_define
      exact keeps_function .function f
  | .ifElse condition thenBranch elseBranch => by
      rw [stmt]
      apply (keeps_expr condition).bind
      intro _
      apply (keeps_stmt thenBranch).bind
      intro _
      exact keeps_optionalStmt elseBranch
  | .print inner => by
      rw [stmt]
      exact keeps_expr inner
  | .ret keyword value => by
      rw [stmt]
      apply (keeps_look _).bind
      intro _
      exact keeps_optionalExpr value
  | .varDecl name initial => by
      rw [stmt, optionalExpr_eq_look]
      exact keeps_declaration name _
  | .whileLoop condition body => by
      rw [stmt]
      apply (keeps_expr condition).bind
      intro _
      exact keeps_stmt body
  | .misfit form => by
      rw [stmt]
      exact keeps_done ()

theorem keeps_optionalStmt : (s : Option Stmt) → Keeps (optionalStmt s)
  | none => by
      rw [optionalStmt]
      exact keeps_done ()
  | some s => by
      rw [optionalStmt]
      exact keeps_stmt s

theorem keeps_stmts : (ss : List Stmt) → Keeps (stmts ss)
  | [] => by
      rw [stmts]
      exact keeps_done ()
  | s :: ss => by
      rw [stmts]
      apply (keeps_stmt s).bind
      intro _
      exact keeps_stmts ss

theorem keeps_function (kind : FunctionKind) : (f : Function) → Keeps (function kind f)
  | ⟨_, params, body⟩ => by
      rw [function]
      apply keeps_get.bind
      intro _
      apply (keeps_setFunction kind).bind
      intro _
      apply keeps_beginScope.bind
      intro _
      apply (keeps_declareAll params).bind
      intro _
      apply (keeps_stmts body).bind
      intro _
      apply keeps_endScope.bind
      intro _
      exact keeps_setFunction _

theorem keeps_functions : (fs : List Function) → Keeps (functions fs)
  | [] => by
      rw [functions]
      exact keeps_done ()
  | f :: fs => by
      rw [functions]
      apply (keeps_function (Resolve.methodKind f) f).bind
      intro _
      exact keeps_functions fs

end

end Touring

theorem Tree.keeps_tour (tree : Tree) : Touring.Keeps tree.tour := by
  cases tree with
  | expr e => exact Touring.keeps_expr e
  | stmt s => exact Touring.keeps_stmt s
  | stmts body => exact Touring.keeps_stmts body

/-- A tour through a tree finds what the resolver finds, and leaves behind the state from which it
set out with the tree's own names in the innermost scope.  Where no name is in its declaration
before, none is after, and on the way at most one is, in the innermost scope. -/
theorem Tree.tour_restores (tree : Tree) (r : Resolver) :
    (tree.tour r).resolution = tree.resolve r.context r.scopes ∧
      (tree.tour r).after.scopes.length = r.scopes.length ∧
      (tree.tour r).after.function = r.function ∧ (tree.tour r).after.cls = r.cls ∧
      (tree.tour r).after.scopes.tail = r.scopes.tail ∧
      (∀ name, (tree.tour r).after.scopes.declaredHere name = true ↔
        r.scopes.declaredHere name = true ∨ r.scopes ≠ [] ∧ name ∈ tree.ownNames) ∧
      (r.scopes.Settled → (tree.tour r).after.scopes.Settled ∧
        ∀ passed ∈ (tree.tour r).passed, passed.scopes.Calm) := by
  rcases tree.agrees_tour r.scopes r.function r.cls with ⟨hresolution, hcontext⟩
  have hscopes : (tree.tour r).after.scopes = tree.ownNames.foldl Scopes.finished r.scopes :=
    (congrArg Resolution.scopes hresolution).trans (tree.resolve_scopes r.context r.scopes)
  rcases r.scopes.tail_finished tree.ownNames with ⟨htail, hlength⟩
  refine ⟨hresolution, ?_, congrArg Context.function hcontext, congrArg Context.cls hcontext, ?_,
    ?_, tree.keeps_tour r⟩
  · rw [hscopes, hlength]
  · rw [hscopes, htail]
  · intro name
    rw [hscopes]
    exact r.scopes.declaredHere_finished tree.ownNames name

/-- A local variable whose initialiser is another one. -/
theorem Tree.tour_restores_declaration :
    let a : Token := ⟨.identifier, "a", .nil, 1⟩
    let b : Token := ⟨.identifier, "b", .nil, 1⟩
    let tree : Tree := .stmt (.varDecl b (some (.var ⟨a, 0⟩)))
    let r : Resolver := ⟨[[("a", true), ("a", false)]], .function, .none⟩
    r.scopes.Settled ∧ (tree.tour r).after.scopes.Settled ∧
      (∀ passed ∈ (tree.tour r).passed, passed.scopes.Calm) ∧
      ∃ passed ∈ (tree.tour r).passed, passed.scopes.unfinishedHere "b" = true := by
  intro a b tree r
  have hnone : Scopes.Settled [] := by
    intro scope hscope
    cases hscope
  have hbefore : r.scopes.Settled := hnone.cons.finished "a"
  rcases (tree.tour_restores r).2.2.2.2.2.2 hbefore with ⟨hafter, hpassed⟩
  exact ⟨hbefore, hafter, hpassed, _, List.mem_cons_self, rfl⟩

end Lox
