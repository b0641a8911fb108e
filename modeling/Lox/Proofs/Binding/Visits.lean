import Lox.Proofs.Syntax.WellFormed
import Lox.Proofs.Syntax.Numbering

/-!
# Which declaration a name belongs to

A walk over a tree that knows the local declarations around every place and the
distances at the nodes, and lists every name of the tree with what is known about
it: a local declaration, a reference with its distance and the declarations around
it, or a name that is bound outside of all scopes or is no binding at all.
-/

namespace Lox
namespace Binding

/-!
# Layers of declarations
-/

/-- A name that a scope declares: a variable or parameter, or else a function or class. -/
structure Declaration where
  name : Token
  isVariable : Bool

/-- The declarations of one scope, the latest first, or one of the scopes around methods. -/
inductive Layer where
  | names (declared : List Declaration)
  | this
  | super

def Layer.declared : Layer → List Declaration
  | .names declared => declared
  | .this | .super => []

/-- The layers with one more declaration in the innermost one; globals are not kept. -/
def declare (declaration : Declaration) : List Layer → List Layer
  | .names declared :: Δ => .names (declaration :: declared) :: Δ
  | Δ => Δ

def classLayers (subclass : Bool) (Δ : List Layer) : List Layer :=
  .this :: if subclass then .super :: Δ else Δ

def parameters (earlier : List Declaration) : List Token → List Declaration
  | [] => earlier
  | name :: names => parameters (⟨name, true⟩ :: earlier) names

end Binding

def Stmt.declaration? : Stmt → Option Binding.Declaration
  | .classDecl name _ _ => some ⟨name, false⟩
  | .funDecl f => some ⟨f.name, false⟩
  | .varDecl name _ => some ⟨name, true⟩
  | _ => none

namespace Binding

def after (s : Stmt) (Δ : List Layer) : List Layer :=
  match s.declaration? with
  | some declaration => declare declaration Δ
  | none => Δ

def afterAll (Δ : List Layer) : List Stmt → List Layer
  | [] => Δ
  | s :: ss => afterAll (after s Δ) ss

/-!
# Visits
-/

inductive Visit where
  | declare (declaration : Declaration) (earlier : List Declaration)
  | refer (name : Token) (depth : Option Nat) (layers : List Layer)
  | keep (name : Token)

def declareVisits (declaration : Declaration) : List Layer → List Visit
  | .names declared :: _ => [.declare declaration declared]
  | _ => [.keep declaration.name]

def parameterVisits (earlier : List Declaration) : List Token → List Visit
  | [] => []
  | name :: names =>
      .declare ⟨name, true⟩ earlier :: parameterVisits (⟨name, true⟩ :: earlier) names

section

variable (known : NodeId → Option Nat)

def referenceVisit (Δ : List Layer) (r : Reference) : Visit := .refer r.name (known r.node) Δ

mutual

def exprVisits (Δ : List Layer) : Expr → List Visit
  | .assign target value => exprVisits Δ value ++ [referenceVisit known Δ target]
  | .binary left _ right => exprVisits Δ left ++ exprVisits Δ right
  | .call callee _ arguments => exprVisits Δ callee ++ exprsVisits Δ arguments
  | .conditional condition thenBranch elseBranch =>
      exprVisits Δ condition ++ exprVisits Δ thenBranch ++ exprVisits Δ elseBranch
  | .get object name => exprVisits Δ object ++ [.keep name]
  | .grouping inner => exprVisits Δ inner
  | .literal _ => []
  | .logical left _ right => exprVisits Δ left ++ exprVisits Δ right
  | .set object name value => exprVisits Δ value ++ exprVisits Δ object ++ [.keep name]
  | .superRef _ method => [.keep method]
  | .thisRef _ => []
  | .unary _ right => exprVisits Δ right
  | .var name => [referenceVisit known Δ name]
  | .misfit _ => []

def exprsVisits (Δ : List Layer) : List Expr → List Visit
  | [] => []
  | e :: es => exprVisits Δ e ++ exprsVisits Δ es

end

def optionalVisits (Δ : List Layer) : Option Expr → List Visit
  | none => []
  | some e => exprVisits known Δ e

def parentVisits (Δ : List Layer) : Option Reference → List Visit
  | none => []
  | some parent => [referenceVisit known Δ parent]

mutual

def stmtVisits (Δ : List Layer) : Stmt → List Visit
  | .block body => stmtsVisits (.names [] :: Δ) body
  | .classDecl name parent methods =>
      declareVisits ⟨name, false⟩ Δ ++ parentVisits known (declare ⟨name, false⟩ Δ) parent ++
        methodsVisits (classLayers parent.isSome (declare ⟨name, false⟩ Δ)) methods
  | .expression inner => exprVisits known Δ inner
  | .funDecl f => declareVisits ⟨f.name, false⟩ Δ ++ functionVisits (declare ⟨f.name, false⟩ Δ) f
  | .ifElse condition thenBranch none => exprVisits known Δ condition ++ stmtVisits Δ thenBranch
  | .ifElse condition thenBranch (some elseBranch) =>
      exprVisits known Δ condition ++ stmtVisits Δ thenBranch ++ stmtVisits Δ elseBranch
  | .print inner => exprVisits known Δ inner
  | .ret _ value => optionalVisits known Δ value
  | .varDecl name initial =>
      declareVisits ⟨name, true⟩ Δ ++ optionalVisits known (declare ⟨name, true⟩ Δ) initial
  | .whileLoop condition body => exprVisits known Δ condition ++ stmtVisits Δ body
  | .misfit _ => []

def stmtsVisits (Δ : List Layer) : List Stmt → List Visit
  | [] => []
  | s :: ss => stmtVisits Δ s ++ stmtsVisits (after s Δ) ss

def functionVisits (Δ : List Layer) : Function → List Visit
  | ⟨_, params, body⟩ =>
      parameterVisits [] params ++ stmtsVisits (.names (parameters [] params) :: Δ) body

def methodsVisits (Δ : List Layer) : List Function → List Visit
  | [] => []
  | f :: fs => .keep f.name :: functionVisits Δ f ++ methodsVisits Δ fs

end

end

/-!
# Declarations are visited

Whatever declaration is known at a name was visited itself, unless it was known
from the start.
-/

def Visit.known : Visit → List Declaration
  | .declare declaration earlier => declaration :: earlier
  | .refer _ _ layers => layers.flatMap Layer.declared
  | .keep _ => []

def Visited (declaration : Declaration) (visits : List Visit) : Prop :=
  ∃ earlier, .declare declaration earlier ∈ visits

/-- All declarations known at visited names are visited, or those of the given layers. -/
def Closed (Δ : List Layer) (visits : List Visit) : Prop :=
  ∀ v ∈ visits, ∀ δ ∈ v.known, δ ∈ Δ.flatMap Layer.declared ∨ Visited δ visits

theorem Visited.left {δ : Declaration} {first : List Visit} (hδ : Visited δ first)
    (second : List Visit) : Visited δ (first ++ second) := by
  rcases hδ with ⟨earlier, hmem⟩
  exact ⟨earlier, List.mem_append_left _ hmem⟩

theorem Visited.right {δ : Declaration} {second : List Visit} (hδ : Visited δ second)
    (first : List Visit) : Visited δ (first ++ second) := by
  rcases hδ with ⟨earlier, hmem⟩
  exact ⟨earlier, List.mem_append_right _ hmem⟩

/-- The second walk starts with declarations that the first one visited. -/
theorem Closed.append {Δ Δ' : List Layer} {first second : List Visit} (hfirst : Closed Δ first)
    (hsecond : Closed Δ' second)
    (hlayers : ∀ δ ∈ Δ'.flatMap Layer.declared, δ ∈ Δ.flatMap Layer.declared ∨ Visited δ first) :
    Closed Δ (first ++ second) := by
  intro v hv δ hδ
  rcases List.mem_append.mp hv with hv | hv
  · exact (hfirst v hv δ hδ).imp_right (·.left second)
  · rcases hsecond v hv δ hδ with hlayer | hvisited
    · exact (hlayers δ hlayer).imp_right (·.left second)
    · exact Or.inr (hvisited.right first)

theorem Closed.append_same {Δ : List Layer} {first second : List Visit} (hfirst : Closed Δ first)
    (hsecond : Closed Δ second) : Closed Δ (first ++ second) :=
  hfirst.append hsecond fun _ hδ => Or.inl hδ

theorem closed_nil (Δ : List Layer) : Closed Δ [] := by
  intro v hv
  cases hv

theorem closed_refer (name : Token) (depth : Option Nat) (Δ : List Layer) :
    Closed Δ [.refer name depth Δ] := by
  intro v hv δ hδ
  cases List.mem_singleton.mp hv
  exact Or.inl hδ

theorem closed_keep (Δ : List Layer) (name : Token) : Closed Δ [.keep name] := by
  intro v hv δ hδ
  cases List.mem_singleton.mp hv
  cases hδ

section

variable (known : NodeId → Option Nat)

mutual

theorem closed_expr (Δ : List Layer) : (e : Expr) → Closed Δ (exprVisits known Δ e)
  | .assign _ value => (closed_expr Δ value).append_same (closed_refer _ _ Δ)
  | .binary left _ right => (closed_expr Δ left).append_same (closed_expr Δ right)
  | .call callee _ arguments => (closed_expr Δ callee).append_same (closed_exprs Δ arguments)
  | .conditional condition thenBranch elseBranch =>
      ((closed_expr Δ condition).append_same (closed_expr Δ thenBranch)).append_same
        (closed_expr Δ elseBranch)
  | .get object name => (closed_expr Δ object).append_same (closed_keep Δ name)
  | .grouping inner => closed_expr Δ inner
  | .literal _ => closed_nil Δ
  | .logical left _ right => (closed_expr Δ left).append_same (closed_expr Δ right)
  | .set object name value =>
      ((closed_expr Δ value).append_same (closed_expr Δ object)).append_same (closed_keep Δ name)
  | .superRef _ method => closed_keep Δ method
  | .thisRef _ => closed_nil Δ
  | .unary _ right => closed_expr Δ right
  | .var _ => closed_refer _ _ Δ
  | .misfit _ => closed_nil Δ

theorem closed_exprs (Δ : List Layer) : (es : List Expr) → Closed Δ (exprsVisits known Δ es)
  | [] => closed_nil Δ
  | e :: es => (closed_expr Δ e).append_same (closed_exprs Δ es)

end

theorem closed_optional (Δ : List Layer) (e : Option Expr) :
    Closed Δ (optionalVisits known Δ e) := by
  cases e with
  | none => exact closed_nil Δ
  | some e => exact closed_expr known Δ e

theorem closed_parent (Δ : List Layer) (parent : Option Reference) :
    Closed Δ (parentVisits known Δ parent) := by
  cases parent with
  | none => exact closed_nil Δ
  | some parent => exact closed_refer _ _ Δ

theorem closed_declare (δ : Declaration) (Δ : List Layer) :
    Closed Δ (declareVisits δ Δ) ∧
      ∀ ε ∈ (declare δ Δ).flatMap Layer.declared,
        ε ∈ Δ.flatMap Layer.declared ∨ Visited ε (declareVisits δ Δ) := by
  match Δ with
  | [] => exact ⟨closed_keep _ _, fun ε hε => Or.inl hε⟩
  | .this :: Δ => exact ⟨closed_keep _ _, fun ε hε => Or.inl hε⟩
  | .super :: Δ => exact ⟨closed_keep _ _, fun ε hε => Or.inl hε⟩
  | .names declared :: Δ =>
      have hvisited : Visited δ (declareVisits δ (.names declared :: Δ)) :=
        ⟨declared, List.mem_singleton_self _⟩
      constructor
      · intro v hv ε hε
        cases List.mem_singleton.mp hv
        rcases List.mem_cons.mp hε with rfl | hε
        · exact Or.inr hvisited
        · exact Or.inl (List.mem_append_left _ hε)
      · intro ε hε
        rcases List.mem_cons.mp hε with rfl | hε
        · exact Or.inr hvisited
        · exact Or.inl hε

theorem closed_parameters (earlier : List Declaration) (Δ : List Layer) (params : List Token) :
    Closed (.names earlier :: Δ) (parameterVisits earlier params) ∧
      ∀ δ ∈ parameters earlier params,
        δ ∈ earlier ∨ Visited δ (parameterVisits earlier params) := by
  induction params generalizing earlier with
  | nil => exact ⟨closed_nil _, fun δ hδ => Or.inl hδ⟩
  | cons name names ih =>
      rcases ih (⟨name, true⟩ :: earlier) with ⟨hclosed, hknown⟩
      rcases closed_declare ⟨name, true⟩ (.names earlier :: Δ) with ⟨hfirst, hlayers⟩
      refine ⟨hfirst.append hclosed hlayers, ?_⟩
      intro δ hδ
      rcases hknown δ hδ with hearlier | hvisited
      · rcases List.mem_cons.mp hearlier with rfl | hearlier
        · exact Or.inr ⟨earlier, List.mem_cons_self⟩
        · exact Or.inl hearlier
      · exact Or.inr (hvisited.right [_])

theorem declared_classLayers (subclass : Bool) (Δ : List Layer) :
    (classLayers subclass Δ).flatMap Layer.declared = Δ.flatMap Layer.declared := by
  cases subclass <;> rfl

theorem visited_after (s : Stmt) (Δ : List Layer) :
    ∀ δ ∈ (after s Δ).flatMap Layer.declared,
      δ ∈ Δ.flatMap Layer.declared ∨ Visited δ (stmtVisits known Δ s) := by
  intro δ hδ
  cases s with
  | classDecl name parent methods =>
      refine ((closed_declare ⟨name, false⟩ Δ).2 δ hδ).imp_right ?_
      intro hvisited
      exact (hvisited.left _).left _
  | funDecl f => exact ((closed_declare ⟨f.name, false⟩ Δ).2 δ hδ).imp_right (·.left _)
  | varDecl name initial => exact ((closed_declare ⟨name, true⟩ Δ).2 δ hδ).imp_right (·.left _)
  | _ => exact Or.inl hδ

mutual

theorem closed_stmt (Δ : List Layer) : (s : Stmt) → Closed Δ (stmtVisits known Δ s)
  | .block body => closed_stmts (.names [] :: Δ) body
  | .classDecl name parent methods => by
      rcases closed_declare ⟨name, false⟩ Δ with ⟨hname, hlayers⟩
      have hparent := hname.append (closed_parent known _ parent) hlayers
      refine hparent.append (closed_methods _ methods) ?_
      intro δ hδ
      rw [declared_classLayers] at hδ
      exact (hlayers δ hδ).imp_right (·.left _)
  | .expression inner => closed_expr known Δ inner
  | .funDecl f => by
      rcases closed_declare ⟨f.name, false⟩ Δ with ⟨hname, hlayers⟩
      exact hname.append (closed_function _ f) hlayers
  | .ifElse condition thenBranch none =>
      (closed_expr known Δ condition).append_same (closed_stmt Δ thenBranch)
  | .ifElse condition thenBranch (some elseBranch) =>
      ((closed_expr known Δ condition).append_same (closed_stmt Δ thenBranch)).append_same
        (closed_stmt Δ elseBranch)
  | .print inner => closed_expr known Δ inner
  | .ret _ value => closed_optional known Δ value
  | .varDecl name initial => by
      rcases closed_declare ⟨name, true⟩ Δ with ⟨hname, hlayers⟩
      exact hname.append (closed_optional known _ initial) hlayers
  | .whileLoop condition body => (closed_expr known Δ condition).append_same (closed_stmt Δ body)
  | .misfit _ => closed_nil Δ

theorem closed_stmts (Δ : List Layer) : (ss : List Stmt) → Closed Δ (stmtsVisits known Δ ss)
  | [] => closed_nil Δ
  | s :: ss =>
      (closed_stmt Δ s).append (closed_stmts (after s Δ) ss) (visited_after known s Δ)

theorem closed_function (Δ : List Layer) : (f : Function) → Closed Δ (functionVisits known Δ f)
  | ⟨_, params, body⟩ => by
      rcases closed_parameters [] Δ params with ⟨hparams, hknown⟩
      refine Closed.append hparams (closed_stmts _ body) ?_
      intro δ hδ
      rcases List.mem_append.mp hδ with hparam | houter
      · exact (hknown δ hparam).imp_left nofun
      · exact Or.inl houter

theorem closed_methods (Δ : List Layer) : (fs : List Function) → Closed Δ (methodsVisits known Δ fs)
  | [] => closed_nil Δ
  | f :: fs =>
      ((closed_keep Δ f.name).append_same (closed_function Δ f)).append_same (closed_methods Δ fs)

end

end

/-!
# Visits and numbers

The walk depends on what is known at the nodes, not on their numbers.
-/

theorem declaration?_numbered (k : NodeId) (s : Stmt) :
    (s.numbered k).declaration? = s.declaration? := by
  fun_cases Stmt.numbered k s <;> simp [Stmt.declaration?, Function.name_numbered]

theorem after_numbered (k : NodeId) (s : Stmt) (Δ : List Layer) :
    after (s.numbered k) Δ = after s Δ := by
  rw [after, after, declaration?_numbered]

section

variable (known : NodeId → Option Nat) (shift : Nat)

mutual

theorem exprVisits_shift (Δ : List Layer) (k : Nat) : (e : Expr) →
    exprVisits known Δ (e.numbered (k + shift)) =
      exprVisits (fun node => known (node + shift)) Δ (e.numbered k)
  | .assign target value => by
      simp only [Expr.numbered, exprVisits, exprVisits_shift Δ _ value, referenceVisit,
        Reference.numbered, Nat.add_right_comm k shift]
  | .binary left _ right => by
      simp only [Expr.numbered, exprVisits, exprVisits_shift Δ _ left, exprVisits_shift Δ _ right,
        Nat.add_right_comm k shift]
  | .call callee _ arguments => by
      simp only [Expr.numbered, exprVisits, exprVisits_shift Δ _ callee,
        exprsVisits_shift Δ _ arguments, Nat.add_right_comm k shift]
  | .conditional condition thenBranch elseBranch => by
      simp only [Expr.numbered, exprVisits, exprVisits_shift Δ _ condition,
        exprVisits_shift Δ _ thenBranch, exprVisits_shift Δ _ elseBranch,
        Nat.add_right_comm _ shift]
  | .get object _ => by simp only [Expr.numbered, exprVisits, exprVisits_shift Δ _ object]
  | .grouping inner => by simp only [Expr.numbered, exprVisits, exprVisits_shift Δ _ inner]
  | .literal _ => rfl
  | .logical left _ right => by
      simp only [Expr.numbered, exprVisits, exprVisits_shift Δ _ left, exprVisits_shift Δ _ right,
        Nat.add_right_comm k shift]
  | .set object _ value => by
      simp only [Expr.numbered, exprVisits, exprVisits_shift Δ _ value,
        exprVisits_shift Δ _ object, Nat.add_right_comm k shift]
  | .superRef _ _ => rfl
  | .thisRef _ => rfl
  | .unary _ right => by simp only [Expr.numbered, exprVisits, exprVisits_shift Δ _ right]
  | .var _ => rfl
  | .misfit _ => rfl

theorem exprsVisits_shift (Δ : List Layer) (k : Nat) : (es : List Expr) →
    exprsVisits known Δ (Expr.allNumbered (k + shift) es) =
      exprsVisits (fun node => known (node + shift)) Δ (Expr.allNumbered k es)
  | [] => rfl
  | e :: es => by
      simp only [Expr.allNumbered, exprsVisits, exprVisits_shift Δ _ e, exprsVisits_shift Δ _ es,
        Nat.add_right_comm k shift]

end

theorem optionalVisits_shift (Δ : List Layer) (k : Nat) (e : Option Expr) :
    optionalVisits known Δ (Expr.optionalNumbered (k + shift) e) =
      optionalVisits (fun node => known (node + shift)) Δ (Expr.optionalNumbered k e) := by
  cases e with
  | none => rfl
  | some e => exact exprVisits_shift known shift Δ k e

theorem parentVisits_shift (Δ : List Layer) (k : Nat) (parent : Option Reference) :
    parentVisits known Δ (Reference.optionalNumbered (k + shift) parent) =
      parentVisits (fun node => known (node + shift)) Δ (Reference.optionalNumbered k parent) := by
  cases parent <;> rfl

mutual

theorem stmtVisits_shift (Δ : List Layer) (k : Nat) : (s : Stmt) →
    stmtVisits known Δ (s.numbered (k + shift)) =
      stmtVisits (fun node => known (node + shift)) Δ (s.numbered k)
  | .block body => by simp only [Stmt.numbered, stmtVisits, stmtsVisits_shift _ _ body]
  | .classDecl name parent methods => by
      simp only [Stmt.numbered, stmtVisits, parentVisits_shift, Reference.isSome_optionalNumbered,
        methodsVisits_shift _ _ methods, Nat.add_right_comm k shift]
  | .expression inner => by simp only [Stmt.numbered, stmtVisits, exprVisits_shift]
  | .funDecl f => by
      simp only [Stmt.numbered, stmtVisits, Function.name_numbered, functionVisits_shift _ _ f]
  | .ifElse condition thenBranch none => by
      simp only [Stmt.numbered, stmtVisits, exprVisits_shift, stmtVisits_shift _ _ thenBranch,
        Nat.add_right_comm k shift]
  | .ifElse condition thenBranch (some elseBranch) => by
      simp only [Stmt.numbered, stmtVisits, exprVisits_shift, stmtVisits_shift _ _ thenBranch,
        stmtVisits_shift _ _ elseBranch, Nat.add_right_comm _ shift]
  | .print inner => by simp only [Stmt.numbered, stmtVisits, exprVisits_shift]
  | .ret _ value => by simp only [Stmt.numbered, stmtVisits, optionalVisits_shift]
  | .varDecl name initial => by simp only [Stmt.numbered, stmtVisits, optionalVisits_shift]
  | .whileLoop condition body => by
      simp only [Stmt.numbered, stmtVisits, exprVisits_shift, stmtVisits_shift _ _ body,
        Nat.add_right_comm k shift]
  | .misfit _ => rfl

theorem stmtsVisits_shift (Δ : List Layer) (k : Nat) : (ss : List Stmt) →
    stmtsVisits known Δ (Stmt.allNumbered (k + shift) ss) =
      stmtsVisits (fun node => known (node + shift)) Δ (Stmt.allNumbered k ss)
  | [] => rfl
  | s :: ss => by
      simp only [Stmt.allNumbered, stmtsVisits, stmtVisits_shift _ _ s, after_numbered,
        stmtsVisits_shift _ _ ss, Nat.add_right_comm k shift]

theorem functionVisits_shift (Δ : List Layer) (k : Nat) : (f : Function) →
    functionVisits known Δ (f.numbered (k + shift)) =
      functionVisits (fun node => known (node + shift)) Δ (f.numbered k)
  | ⟨_, _, body⟩ => by
      simp only [Function.numbered, functionVisits, stmtsVisits_shift _ _ body]

theorem methodsVisits_shift (Δ : List Layer) (k : Nat) : (fs : List Function) →
    methodsVisits known Δ (Function.allNumbered (k + shift) fs) =
      methodsVisits (fun node => known (node + shift)) Δ (Function.allNumbered k fs)
  | [] => rfl
  | f :: fs => by
      simp only [Function.allNumbered, methodsVisits, Function.name_numbered,
        functionVisits_shift _ _ f, methodsVisits_shift _ _ fs, Nat.add_right_comm k shift]

end

end

end Binding
end Lox
