import Lox.Proofs.Binding.Visits
import Lox.Proofs.Lexical.Alike

/-!
# Scopes of the resolver and layers of declarations

The scopes that the resolver has at a place of a tree, with the tokens of the
tree relabelled by `g`, show the layers of declarations around that place.  A
name that is looked up in them is found in the nearest layer that declares it.
-/

namespace Lox
namespace Binding

open Lexical (Frame Naming)

variable (g : Token → Token)

/-!
# What a layer declares
-/

/-- Whether a layer declares a name, in a tree with relabelled tokens. -/
def Layer.Declares (name : String) : Layer → Prop
  | .names declared => ∃ δ ∈ declared, (g δ.name).lexeme = name
  | .this => name = "this"
  | .super => name = "super"

def Undeclared (name : String) (Δ : List Layer) : Prop :=
  ∀ layer ∈ Δ, ∀ δ ∈ layer.declared, (g δ.name).lexeme ≠ name

def Reserved (name : String) : Prop := name = "this" ∨ name = "super"

theorem Layer.declares_iff {g : Token → Token} {layer : Layer} {name : String}
    (hname : ¬ Reserved name) :
    layer.Declares g name ↔ ∃ δ ∈ layer.declared, (g δ.name).lexeme = name := by
  cases layer with
  | names declared => exact Iff.rfl
  | this =>
      constructor
      · intro hthis
        exact absurd (Or.inl hthis) hname
      · rintro ⟨δ, hδ, _⟩
        cases hδ
  | super =>
      constructor
      · intro hsuper
        exact absurd (Or.inr hsuper) hname
      · rintro ⟨δ, hδ, _⟩
        cases hδ

theorem undeclared_iff {g : Token → Token} {name : String} {Δ : List Layer}
    (hname : ¬ Reserved name) :
    Undeclared g name Δ ↔ ∀ layer ∈ Δ, ¬ layer.Declares g name := by
  constructor
  · intro hundeclared layer hlayer hdeclares
    rcases (Layer.declares_iff hname).mp hdeclares with ⟨δ, hδ, hlexeme⟩
    exact hundeclared layer hlayer δ hδ hlexeme
  · intro hnone layer hlayer δ hδ hlexeme
    exact hnone layer hlayer ((Layer.declares_iff hname).mpr ⟨δ, hδ, hlexeme⟩)

/-!
# Scopes that show layers
-/

/--
Scopes that declare what the layers around a place declare.  The innermost one
may be in the middle of a declaration.
-/
structure Shows (current : Option Declaration) (Δ : List Layer) (scopes : Scopes) : Prop where
  declares : List.Forall₂ (fun layer scope => ∀ name, Scope.declares scope name = true ↔
    Layer.Declares g name layer) Δ scopes
  unfinished : ∀ name, scopes.unfinishedHere name = true ↔
    ∃ δ ∈ current, (g δ.name).lexeme = name
  innermost : ∀ δ ∈ current, ∃ layer ∈ Δ.head?, δ ∈ layer.declared

/-- The marks that the resolver leaves for a finished declaration. -/
def marks (δ : Declaration) : Scope := [((g δ.name).lexeme, true), ((g δ.name).lexeme, false)]

def Layer.scope : Layer → Scope
  | .names declared => declared.flatMap (marks g)
  | .this => [("this", true)]
  | .super => [("super", true)]

def scopes (Δ : List Layer) : Scopes := Δ.map (Layer.scope g)

variable {g : Token → Token}

theorem Layer.mark?_scope_names (declared : List Declaration) (name : String) :
    Scope.mark? (Layer.scope g (.names declared)) name = some true ∧
        (∃ δ ∈ declared, (g δ.name).lexeme = name) ∨
      Scope.mark? (Layer.scope g (.names declared)) name = none ∧
        ¬ ∃ δ ∈ declared, (g δ.name).lexeme = name := by
  induction declared with
  | nil =>
      refine Or.inr ⟨rfl, ?_⟩
      rintro ⟨δ, hδ, _⟩
      cases hδ
  | cons δ declared ih =>
      have hscope : Layer.scope g (.names (δ :: declared)) =
          ((g δ.name).lexeme, true) :: ((g δ.name).lexeme, false) ::
            Layer.scope g (.names declared) := rfl
      rw [hscope]
      by_cases hname : name = (g δ.name).lexeme
      · refine Or.inl ⟨?_, δ, List.mem_cons_self, hname.symm⟩
        simp [Scope.mark?, hname]
      · have hskip : Scope.mark? (((g δ.name).lexeme, true) :: ((g δ.name).lexeme, false) ::
            Layer.scope g (.names declared)) name =
            Scope.mark? (Layer.scope g (.names declared)) name := by
          simp [Scope.mark?, List.lookup_cons, beq_eq_false_iff_ne.mpr hname]
        rw [hskip]
        rcases ih with ⟨hmark, ε, hε, hlexeme⟩ | ⟨hmark, hnone⟩
        · exact Or.inl ⟨hmark, ε, List.mem_cons_of_mem _ hε, hlexeme⟩
        · refine Or.inr ⟨hmark, ?_⟩
          rintro ⟨ε, hε, hlexeme⟩
          rcases List.mem_cons.mp hε with rfl | hε
          · exact hname hlexeme.symm
          · exact hnone ⟨ε, hε, hlexeme⟩

theorem Layer.declares_scope (layer : Layer) (name : String) :
    Scope.declares (Layer.scope g layer) name = true ↔ layer.Declares g name := by
  cases layer with
  | names declared =>
      rcases Layer.mark?_scope_names (g := g) declared name with ⟨hmark, hsome⟩ | ⟨hmark, hnone⟩
      · simp only [Scope.declares, hmark, Option.isSome_some, true_iff]
        exact hsome
      · simp only [Scope.declares, hmark, Option.isSome_none, Bool.false_eq_true, false_iff]
        exact hnone
  | this =>
      by_cases hname : name = "this" <;>
        simp [scope, Scope.declares, Scope.mark?, Declares, hname]
  | super =>
      by_cases hname : name = "super" <;>
        simp [scope, Scope.declares, Scope.mark?, Declares, hname]

theorem forall₂_declares_scopes (Δ : List Layer) :
    List.Forall₂ (fun layer scope => ∀ name, Scope.declares scope name = true ↔
      Layer.Declares g name layer) Δ (scopes g Δ) := by
  induction Δ with
  | nil => exact .nil
  | cons layer Δ ih => exact .cons (Layer.declares_scope layer) ih

theorem shows_scopes (Δ : List Layer) : Shows g none Δ (scopes g Δ) := by
  refine ⟨forall₂_declares_scopes Δ, ?_, by simp⟩
  intro name
  suffices hfalse : (scopes g Δ).unfinishedHere name = false by simp [hfalse]
  match Δ with
  | [] => rfl
  | .names declared :: Δ =>
      have hunfinished : (scopes g (.names declared :: Δ)).unfinishedHere name =
          (Scope.mark? (Layer.scope g (.names declared)) name == some false) := rfl
      rw [hunfinished]
      rcases Layer.mark?_scope_names (g := g) declared name with ⟨hmark, _⟩ | ⟨hmark, _⟩ <;>
        rw [hmark] <;> rfl
  | .this :: Δ =>
      cases hname : name == "this" <;>
        simp [scopes, Layer.scope, Scopes.unfinishedHere, Scope.mark?, List.lookup_cons, hname]
  | .super :: Δ =>
      cases hname : name == "super" <;>
        simp [scopes, Layer.scope, Scopes.unfinishedHere, Scope.mark?, List.lookup_cons, hname]

theorem shows_unfinished (δ : Declaration) (declared : List Declaration) (Δ : List Layer) :
    Shows g (some δ) (.names (δ :: declared) :: Δ)
      ((scopes g (.names declared :: Δ)).mark (g δ.name).lexeme false) := by
  have hmark : (scopes g (.names declared :: Δ)).mark (g δ.name).lexeme false =
      (((g δ.name).lexeme, false) :: Layer.scope g (.names declared)) :: scopes g Δ := rfl
  rw [hmark]
  refine ⟨?_, ?_, by simp [Layer.declared]⟩
  · refine .cons ?_ (forall₂_declares_scopes Δ)
    intro name
    rw [← Layer.declares_scope]
    by_cases hname : name = (g δ.name).lexeme
    · simp [Layer.scope, marks, Scope.declares, Scope.mark?, hname]
    · simp [Layer.scope, marks, Scope.declares, Scope.mark?, List.lookup_cons,
        beq_eq_false_iff_ne.mpr hname]
  · intro name
    by_cases hname : name = (g δ.name).lexeme
    · simp [Scopes.unfinishedHere, Scope.mark?, hname]
    · have hskip : Scopes.unfinishedHere ((((g δ.name).lexeme, false) ::
          Layer.scope g (.names declared)) :: scopes g Δ) name =
          (Scope.mark? (Layer.scope g (.names declared)) name == some false) := by
        simp [Scopes.unfinishedHere, Scope.mark?, List.lookup_cons, beq_eq_false_iff_ne.mpr hname]
      have hsame : (∃ ε ∈ some δ, (g ε.name).lexeme = name) ↔ False := by
        simp [Ne.symm hname]
      rw [hskip, hsame]
      rcases Layer.mark?_scope_names (g := g) declared name with ⟨hfound, _⟩ | ⟨hfound, _⟩ <;>
        simp [hfound]

/-!
# Looking up a name
-/

namespace Shows

variable {current : Option Declaration} {Δ : List Layer} {scopes : Scopes} {name : String}

theorem depth?_eq_none (hshows : Shows g current Δ scopes) :
    scopes.depth? name = none ↔ ∀ layer ∈ Δ, ¬ layer.Declares g name := by
  have hdeclares := hshows.declares
  clear hshows
  induction hdeclares with
  | nil => simp [Scopes.depth?]
  | @cons layer scope Δ scopes hscope _ ih =>
      by_cases hhere : Scope.declares scope name = true
      · have hlayer := (hscope name).mp hhere
        simp [Scopes.depth?, List.findIdx?_cons, hhere, hlayer]
      · have hlayer : ¬ layer.Declares g name := fun h => hhere ((hscope name).mpr h)
        simpa [Scopes.depth?, List.findIdx?_cons, hhere, hlayer] using ih

theorem depth?_eq_some (hshows : Shows g current Δ scopes) {depth : Nat} :
    scopes.depth? name = some depth ↔
      (∃ layer, Δ[depth]? = some layer ∧ layer.Declares g name) ∧
        ∀ layer ∈ Δ.take depth, ¬ layer.Declares g name := by
  have hdeclares := hshows.declares
  clear hshows
  induction hdeclares generalizing depth with
  | nil => simp [Scopes.depth?]
  | @cons layer scope Δ scopes hscope _ ih =>
      by_cases hhere : Scope.declares scope name = true
      · have hlayer := (hscope name).mp hhere
        cases depth with
        | zero => simp [Scopes.depth?, List.findIdx?_cons, hhere, hlayer]
        | succ depth => simp [Scopes.depth?, List.findIdx?_cons, hhere, hlayer]
      · have hlayer : ¬ layer.Declares g name := fun h => hhere ((hscope name).mpr h)
        cases depth with
        | zero => simp [Scopes.depth?, List.findIdx?_cons, hhere, hlayer]
        | succ depth =>
            have hrest := @ih depth
            simpa [Scopes.depth?, List.findIdx?_cons, hhere, hlayer] using hrest

end Shows

end Binding
end Lox
