import Lox.Proofs.Resolve
import Lox.Proofs.Syntax.Labels
import Lox.Proofs.Syntax.Numbering

/-!
# The resolver looks at texts only

The resolver decides by the texts of tokens alone.  So it commutes with every
relabelling that keeps these, and with every shift of the numbers: the findings
are relabelled and shifted, and the scopes stay the same.  A table that learns of
a program has therefore the table of that program behind its own.
-/

namespace Lox

def Distance.relabel (g : Token → Token) (d : Distance) : Distance := { d with name := g d.name }

def Finding.relabel (g : Token → Token) (shift : Nat) : Finding → Finding
  | .violation token rule => .violation (g token) rule
  | .local node distance => .local (node + shift) (distance.relabel g)
  | .global node name => .global (node + shift) (g name)
  | .defect d => .defect (d.relabel g)

namespace Resolve

/-- The second computation finds on a relabelled and shifted tree what the first one finds. -/
def Natural (g : Token → Token) (shift : Nat) (p p' : Resolve α) : Prop :=
  ∀ S, p' S = ⟨(p S).value, (p S).scopes, (p S).findings.map (Finding.relabel g shift)⟩

namespace Natural

variable {g : Token → Token} {shift : Nat}

theorem ok (value : α) : Natural g shift (Resolve.ok value) (Resolve.ok value) := fun _ => rfl

theorem bind {p p' : Resolve α} {next next' : α → Resolve β} (hp : Natural g shift p p')
    (hnext : ∀ value, Natural g shift (next value) (next' value)) :
    Natural g shift (p >>= next) (p' >>= next') := by
  intro S
  rw [bind_apply, bind_apply, hp S]
  simp only [hnext _ _, List.map_append]

theorem note (finding : Finding) :
    Natural g shift (Resolve.note finding) (Resolve.note (finding.relabel g shift)) :=
  fun _ => rfl

theorem scopes : Natural g shift Resolve.scopes Resolve.scopes := fun _ => rfl

theorem require (allowed : Bool) (token : Token) (rule : Violation) :
    Natural g shift (Resolve.require allowed token rule)
      (Resolve.require allowed (g token) rule) := by
  cases allowed with
  | true => exact ok ()
  | false => exact note (.violation token rule)

theorem checkReturn (ctx : Context) (keyword : Token) (hasValue : Bool) :
    Natural g shift (Resolve.checkReturn ctx keyword hasValue)
      (Resolve.checkReturn ctx (g keyword) hasValue) :=
  bind (require _ keyword _) fun _ => require _ keyword _

theorem within {p p' : Resolve α} (hp : Natural g shift p p') (scope : Scope) :
    Natural g shift (Resolve.within scope p) (Resolve.within scope p') := by
  intro S
  unfold Resolve.within
  rw [hp]

theorem classScopes {p p' : Resolve α} (hp : Natural g shift p p') (subclass : Bool) :
    Natural g shift (Resolve.classScopes subclass p) (Resolve.classScopes subclass p') := by
  cases subclass with
  | true => exact (hp.within _).within _
  | false => exact hp.within _

end Natural

section

variable {g : Token → Token} {shift : Nat} (hg : ∀ t, (g t).lexeme = t.lexeme)

include hg

/-!
# Names
-/

theorem natural_mark (name : Token) (finished : Bool) :
    Natural g shift (mark name finished) (mark (g name) finished) := by
  intro S
  rw [mark, hg]
  rfl

theorem natural_declare (name : Token) : Natural g shift (declare name) (declare (g name)) := by
  refine .bind .scopes fun S => ?_
  rw [hg]
  exact .bind (.require _ name _) fun _ => natural_mark hg name false

theorem natural_declareAll (names : List Token) :
    Natural g shift (declareAll names) (declareAll (names.map g)) := by
  induction names with
  | nil => exact .ok ()
  | cons name names ih =>
      exact .bind (natural_declare hg name) fun _ => .bind (natural_mark hg name true) fun _ => ih

section

variable (r : Reference) (k : NodeId)

theorem natural_reference (kind : ReferenceKind) :
    Natural g shift (reference kind (r.numbered k))
      (reference kind ((r.relabel g).numbered (k + shift))) := by
  refine .bind .scopes fun S => ?_
  dsimp only [Reference.relabel, Reference.numbered]
  rw [hg]
  cases S.depth? r.name.lexeme with
  | none => exact .note (.global k r.name)
  | some depth => exact .note (.local k ⟨kind, r.name, depth⟩)

theorem natural_variableReference :
    Natural g shift (variableReference (r.numbered k))
      (variableReference ((r.relabel g).numbered (k + shift))) := by
  refine .bind .scopes fun S => ?_
  dsimp only [Reference.relabel, Reference.numbered]
  rw [hg]
  exact .bind (.require _ r.name _) fun _ => natural_reference hg r k .variable

theorem natural_thisReference (ctx : Context) :
    Natural g shift (thisReference ctx (r.numbered k))
      (thisReference ctx ((r.relabel g).numbered (k + shift))) := by
  rcases ctx with ⟨_, _ | _ | _⟩
  · exact .note (.violation r.name .thisOutsideClass)
  · exact natural_reference hg r k .this
  · exact natural_reference hg r k .this

theorem natural_superReference (ctx : Context) :
    Natural g shift (superReference ctx (r.numbered k))
      (superReference ctx ((r.relabel g).numbered (k + shift))) := by
  rcases ctx with ⟨_, _ | _ | _⟩
  · exact .bind (.note (.violation r.name _)) fun _ => natural_reference hg r k .super
  · exact .bind (.note (.violation r.name _)) fun _ => natural_reference hg r k .super
  · exact .bind (.ok ()) fun _ => natural_reference hg r k .super

end

/-!
# Expressions
-/

omit hg

mutual

theorem natural_expr (hg : ∀ t, (g t).lexeme = t.lexeme) (ctx : Context) (k : NodeId) :
    (e : Expr) → Natural g shift (expr leave ctx (e.numbered k))
      (expr leave ctx ((e.relabel g).numbered (k + shift)))
  | .assign target value => by
      rw [Expr.relabel, Expr.numbered, Expr.numbered, value.places_relabel, Nat.add_right_comm]
      exact .bind (natural_expr hg ctx k value) fun _ => natural_reference hg target _ .assign
  | .binary left _ right => by
      rw [Expr.relabel, Expr.numbered, Expr.numbered, left.places_relabel, Nat.add_right_comm]
      exact .bind (natural_expr hg ctx k left) fun _ => natural_expr hg ctx _ right
  | .call callee _ arguments => by
      rw [Expr.relabel, Expr.numbered, Expr.numbered, callee.places_relabel, Nat.add_right_comm]
      exact .bind (natural_expr hg ctx k callee) fun _ => natural_exprs hg ctx _ arguments
  | .conditional condition thenBranch elseBranch => by
      rw [Expr.relabel, Expr.numbered, Expr.numbered, condition.places_relabel,
        thenBranch.places_relabel, Nat.add_right_comm k shift, Nat.add_right_comm _ shift]
      exact .bind (natural_expr hg ctx k condition) fun _ =>
        .bind (natural_expr hg ctx _ thenBranch) fun _ => natural_expr hg ctx _ elseBranch
  | .get object _ => natural_expr hg ctx k object
  | .grouping inner => natural_expr hg ctx k inner
  | .literal _ => .ok ()
  | .logical left _ right => by
      rw [Expr.relabel, Expr.numbered, Expr.numbered, left.places_relabel, Nat.add_right_comm]
      exact .bind (natural_expr hg ctx k left) fun _ => natural_expr hg ctx _ right
  | .set object _ value => by
      rw [Expr.relabel, Expr.numbered, Expr.numbered, value.places_relabel, Nat.add_right_comm]
      exact .bind (natural_expr hg ctx k value) fun _ => natural_expr hg ctx _ object
  | .superRef keyword _ => natural_superReference hg keyword k ctx
  | .thisRef keyword => natural_thisReference hg keyword k ctx
  | .unary _ right => natural_expr hg ctx k right
  | .var name => natural_variableReference hg name k
  | .misfit _ => .ok ()

theorem natural_exprs (hg : ∀ t, (g t).lexeme = t.lexeme) (ctx : Context) (k : NodeId) :
    (es : List Expr) → Natural g shift (exprs leave ctx (Expr.allNumbered k es))
      (exprs leave ctx (Expr.allNumbered (k + shift) (Expr.relabels g es)))
  | [] => .ok ()
  | e :: es => by
      rw [Expr.relabels, Expr.allNumbered, Expr.allNumbered, e.places_relabel, Nat.add_right_comm]
      exact .bind (natural_expr hg ctx k e) fun _ => natural_exprs hg ctx _ es

end

include hg

theorem natural_optionalExpr (ctx : Context) (k : NodeId) (value : Option Expr) :
    Natural g shift (optionalExpr leave ctx (Expr.optionalNumbered k value))
      (optionalExpr leave ctx
        (Expr.optionalNumbered (k + shift) (value.map (Expr.relabel g)))) := by
  cases value with
  | none => exact .ok ()
  | some e => exact natural_expr hg ctx k e

/-!
# Statements
-/

theorem natural_superclass (name : Token) (k : NodeId) (parent : Option Reference) :
    Natural g shift (superclass name (Reference.optionalNumbered k parent))
      (superclass (g name)
        (Reference.optionalNumbered (k + shift) (parent.map (Reference.relabel g)))) := by
  cases parent with
  | none => exact .ok ()
  | some parent =>
      have hallowed : ((g name).lexeme != (g parent.name).lexeme) =
          (name.lexeme != parent.name.lexeme) := by
        rw [hg, hg]
      simp only [Option.map_some, Reference.optionalNumbered, superclass]
      dsimp only [Reference.relabel, Reference.numbered]
      rw [hallowed]
      exact .bind (.require _ parent.name _) fun _ => natural_variableReference hg parent k

omit hg

theorem name_relabel (f : Function) : (f.relabel g).name = g f.name := by
  rcases f with ⟨name, params, body⟩
  rw [Function.relabel]

theorem methodKind_eq {f f' : Function} (hname : f'.name.lexeme = f.name.lexeme) :
    methodKind f' = methodKind f := by
  rw [methodKind, methodKind, Function.isInitialiser, Function.isInitialiser, hname]

mutual

theorem natural_stmt (hg : ∀ t, (g t).lexeme = t.lexeme) (ctx : Context) (k : NodeId) :
    (s : Stmt) → Natural g shift (stmt leave ctx (s.numbered k))
      (stmt leave ctx ((s.relabel g).numbered (k + shift)))
  | .block body => by
      rw [Stmt.relabel, Stmt.numbered, Stmt.numbered, stmt, stmt]
      exact (natural_stmts hg ctx k body).within []
  | .classDecl name parent methods => by
      rw [Stmt.relabel, Stmt.numbered, Stmt.numbered, stmt, stmt, Reference.isSome_optionalNumbered,
        Reference.isSome_optionalNumbered, Option.isSome_map, Reference.optionalPlaces_relabel,
        Nat.add_right_comm]
      exact .bind (natural_declare hg name) fun _ => .bind (natural_mark hg name true) fun _ =>
        .bind (natural_superclass hg name k parent) fun _ =>
          (natural_functions hg _ _ methods).classScopes _
  | .expression inner => by
      rw [Stmt.relabel, Stmt.numbered, Stmt.numbered, stmt, stmt]
      exact natural_expr hg ctx k inner
  | .funDecl f => by
      rw [Stmt.relabel, Stmt.numbered, Stmt.numbered, stmt, stmt, Function.name_numbered,
        Function.name_numbered, name_relabel]
      exact .bind (natural_declare hg f.name) fun _ => .bind (natural_mark hg f.name true) fun _ =>
        natural_function hg ctx .function k f
  | .ifElse condition thenBranch none => by
      rw [Stmt.relabel, Stmt.numbered, Stmt.numbered, stmt, stmt, condition.places_relabel,
        Nat.add_right_comm]
      exact .bind (natural_expr hg ctx k condition) fun _ =>
        .bind (natural_stmt hg ctx _ thenBranch) fun _ => .ok ()
  | .ifElse condition thenBranch (some elseBranch) => by
      rw [Stmt.relabel, Stmt.numbered, Stmt.numbered, stmt, stmt, condition.places_relabel,
        thenBranch.places_relabel, Nat.add_right_comm k shift, Nat.add_right_comm _ shift]
      exact .bind (natural_expr hg ctx k condition) fun _ =>
        .bind (natural_stmt hg ctx _ thenBranch) fun _ => natural_stmt hg ctx _ elseBranch
  | .print inner => by
      rw [Stmt.relabel, Stmt.numbered, Stmt.numbered, stmt, stmt]
      exact natural_expr hg ctx k inner
  | .ret keyword value => by
      rw [Stmt.relabel, Stmt.numbered, Stmt.numbered, stmt, stmt, Expr.isSome_optionalNumbered,
        Expr.isSome_optionalNumbered, Option.isSome_map]
      exact .bind (Natural.checkReturn ctx keyword _) fun _ => natural_optionalExpr hg ctx k value
  | .varDecl name initial => by
      rw [Stmt.relabel, Stmt.numbered, Stmt.numbered, stmt, stmt]
      exact .bind (natural_declare hg name) fun _ =>
        .bind (natural_optionalExpr hg ctx k initial) fun _ => natural_mark hg name true
  | .whileLoop condition body => by
      rw [Stmt.relabel, Stmt.numbered, Stmt.numbered, stmt, stmt, condition.places_relabel,
        Nat.add_right_comm]
      exact .bind (natural_expr hg ctx k condition) fun _ => natural_stmt hg ctx _ body
  | .misfit form => by
      rw [Stmt.relabel, Stmt.numbered, Stmt.numbered, stmt, stmt]
      exact .ok ()

theorem natural_stmts (hg : ∀ t, (g t).lexeme = t.lexeme) (ctx : Context) (k : NodeId) :
    (ss : List Stmt) → Natural g shift (stmts leave ctx (Stmt.allNumbered k ss))
      (stmts leave ctx (Stmt.allNumbered (k + shift) (Stmt.relabels g ss)))
  | [] => by
      rw [Stmt.relabels, Stmt.allNumbered, Stmt.allNumbered, stmts]
      exact .ok ()
  | s :: ss => by
      rw [Stmt.relabels, Stmt.allNumbered, Stmt.allNumbered, stmts, stmts, s.places_relabel,
        Nat.add_right_comm]
      exact .bind (natural_stmt hg ctx k s) fun _ => natural_stmts hg ctx _ ss

theorem natural_function (hg : ∀ t, (g t).lexeme = t.lexeme) (ctx : Context)
    (kind : FunctionKind) (k : NodeId) :
    (f : Function) → Natural g shift (function leave ctx kind (f.numbered k))
      (function leave ctx kind ((f.relabel g).numbered (k + shift)))
  | ⟨name, params, body⟩ => by
      rw [Function.relabel, Function.numbered, Function.numbered, function, function]
      exact .within (.bind (natural_declareAll hg params) fun _ => natural_stmts hg _ k body) []

theorem natural_functions (hg : ∀ t, (g t).lexeme = t.lexeme) (ctx : Context) (k : NodeId) :
    (fs : List Function) → Natural g shift (functions leave ctx (Function.allNumbered k fs))
      (functions leave ctx (Function.allNumbered (k + shift) (Function.relabels g fs)))
  | [] => by
      rw [Function.relabels, Function.allNumbered, Function.allNumbered, functions]
      exact .ok ()
  | f :: fs => by
      have hkind : methodKind ((f.relabel g).numbered (k + shift)) = methodKind (f.numbered k) := by
        apply methodKind_eq
        rw [Function.name_numbered, Function.name_numbered, name_relabel, hg]
      rw [Function.relabels, Function.allNumbered, Function.allNumbered, functions, functions,
        hkind, f.places_relabel, Nat.add_right_comm]
      exact .bind (natural_function hg ctx _ k f) fun _ => natural_functions hg ctx _ fs

end

end

end Resolve

theorem findings_resolve_relabels {g : Token → Token} (hg : ∀ t, (g t).lexeme = t.lexeme)
    (k shift : Nat) (trees : List Stmt) :
    (resolve (Stmt.allNumbered (k + shift) (Stmt.relabels g trees))).findings =
      (resolve (Stmt.allNumbered k trees)).findings.map (Finding.relabel g shift) := by
  rw [resolve, Resolve.natural_stmts hg {} k trees []]
  rfl

theorem resolve_relabels_silent {g : Token → Token} (hg : ∀ t, (g t).lexeme = t.lexeme)
    (trees : List Stmt) :
    (resolve (Stmt.allNumbered 0 (Stmt.relabels g trees))).diagnostics = [] ↔
      (resolve (Stmt.allNumbered 0 trees)).diagnostics = [] := by
  have hsame : ∀ finding : Finding,
      (finding.relabel g 0).diagnostic? = none ↔ finding.diagnostic? = none := by
    intro finding
    cases finding <;> simp [Finding.relabel, Finding.diagnostic?]
  have hfindings := findings_resolve_relabels hg 0 0 trees
  rw [← Resolve.silent_iff_diagnostics, ← Resolve.silent_iff_diagnostics]
  rw [Nat.add_zero] at hfindings
  simp only [Resolve.Silent, hfindings, List.forall_mem_map, hsame]

/-!
# Tables
-/

theorem findings_resolve_numbered (k : Nat) (trees : List Stmt) :
    (resolve (Stmt.allNumbered k trees)).findings =
      (resolve (Stmt.allNumbered 0 trees)).findings.map (Finding.relabel id k) := by
  have hfindings := findings_resolve_relabels (g := id) (fun _ => rfl) 0 k trees
  rwa [Stmt.relabels_id, Nat.zero_add] at hfindings

namespace Locals

def append (l l' : Locals) : Locals := ⟨l.cells ++ l'.cells⟩

def ofProgram (program : List Stmt) : Locals :=
  learn {} (Stmt.allPlaces program) (resolve (Stmt.allNumbered 0 program)).findings

theorem depth?_append_right (l l' : Locals) (node : Nat) :
    (l.append l').depth? (node + l.size) = l'.depth? node := by
  have hcell : (l.cells ++ l'.cells)[node + l.size]? = l'.cells[node]? := by
    rw [size, Array.getElem?_append_right (Nat.le_add_left _ _), Nat.add_sub_cancel]
  rw [depth?, append, hcell, depth?]

theorem find_append (l l' : Locals) (finding : Finding) :
    (l.append l').find (finding.relabel id l.size) = l.append (l'.find finding) := by
  cases finding with
  | «local» node d =>
      show Locals.mk ((l.cells ++ l'.cells).setIfInBounds (node + l.size) (some d)) =
        ⟨l.cells ++ l'.cells.setIfInBounds node (some d)⟩
      rw [size, Array.setIfInBounds_append_right (Nat.le_add_left _ _), Nat.add_sub_cancel]
  | _ => rfl

theorem foldl_find_append (l l' : Locals) (findings : List Finding) :
    (findings.map (Finding.relabel id l.size)).foldl find (l.append l') =
      l.append (findings.foldl find l') := by
  induction findings generalizing l' with
  | nil => rfl
  | cons finding findings ih =>
      rw [List.map_cons, List.foldl_cons, find_append, ih]
      rfl

theorem learn_eq_append (l : Locals) (program : List Stmt) :
    l.learn (Stmt.allPlaces program) (resolve (Stmt.allNumbered l.size program)).findings =
      l.append (ofProgram program) := by
  have hextend : ∀ count, l.extend count = l.append (extend {} count) := by
    intro count
    rw [extend, append, extend, Array.empty_append]
  rw [findings_resolve_numbered, learn, hextend, foldl_find_append]
  rfl

theorem depth?_append_left (l l' : Locals) {node : Nat} (hlt : node < l.size) :
    (l.append l').depth? node = l.depth? node := by
  have hcell : (l.cells ++ l'.cells)[node]? = l.cells[node]? := Array.getElem?_append_left hlt
  rw [depth?, append, hcell, depth?]

/-- The table with the tokens relabelled at which the distances were found. -/
def relabel (g : Token → Token) (l : Locals) : Locals :=
  ⟨l.cells.map (Option.map (Distance.relabel g))⟩

@[simp]
theorem depth?_relabel (g : Token → Token) (l : Locals) (node : NodeId) :
    (l.relabel g).depth? node = l.depth? node := by
  rw [depth?, depth?, relabel, Array.getElem?_map]
  cases l.cells[node]? with
  | none => rfl
  | some cell => cases cell <;> rfl

theorem foldl_find_relabel (g : Token → Token) (l : Locals) (findings : List Finding) :
    (findings.map (Finding.relabel g 0)).foldl find (l.relabel g) =
      (findings.foldl find l).relabel g := by
  have hfind : ∀ (l : Locals) (finding : Finding),
      (l.relabel g).find (finding.relabel g 0) = (l.find finding).relabel g := by
    intro l finding
    cases finding with
    | «local» node d => simp [Finding.relabel, find, insert, relabel, Array.map_setIfInBounds]
    | _ => rfl
  induction findings generalizing l with
  | nil => rfl
  | cons finding findings ih => rw [List.map_cons, List.foldl_cons, List.foldl_cons, hfind, ih]

theorem ofProgram_relabels {g : Token → Token} (hg : ∀ t, (g t).lexeme = t.lexeme)
    (program : List Stmt) :
    ofProgram (Stmt.relabels g program) = (ofProgram program).relabel g := by
  have hempty : ∀ count, extend {} count = (extend {} count).relabel g := by
    intro count
    simp [extend, relabel]
  have hfindings := findings_resolve_relabels hg 0 0 program
  rw [Nat.add_zero] at hfindings
  rw [ofProgram, ofProgram, learn, learn, Stmt.allPlaces_relabels, hfindings, hempty,
    foldl_find_relabel, ← hempty]

end Locals

end Lox
