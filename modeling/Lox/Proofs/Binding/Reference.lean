import Lox.Proofs.Binding.Scopes
import Lox.Proofs.Resolve

/-!
# Relabelled references

A function on tokens that keeps kinds may give new names to the locals of a tree.
What it has to do for a name depends on what the walk over the tree knows about
that name.  A name that is treated well is found at the same distance as before,
and the two references are alike.
-/

namespace Lox
namespace Binding

open Lexical

/-!
# Names that are treated well
-/

/--
A function on tokens that keeps what is not a name, and relates every token to its
image.  What is known at a node is what is seen there.
-/
structure Relates (sides : Sides) (known : NodeId → Option Nat) (p : Token → Prop)
    (g : Token → Token) : Prop where
  known : ∀ {node depth}, sides.sees node depth → known node = depth
  kind : ∀ t, (g t).kind = t.kind
  lexeme : ∀ t, t.kind ≠ .identifier → (g t).lexeme = t.lexeme
  related : ∀ t, p t → sides.related t (g t)
  plain : ∀ t, t.Named p → ¬ Reserved t.lexeme ∧ ¬ Reserved (g t).lexeme
  this : ∀ t, p t → t.kind = .kwThis → t.lexeme = "this"
  super : ∀ t, p t → t.kind = .kwSuper → t.lexeme = "super"

def LayersNamed (p : Token → Prop) (Δ : List Layer) : Prop :=
  ∀ layer ∈ Δ, ∀ δ ∈ layer.declared, δ.name.Named p

/--
What a function on tokens has to do for a name.  A new local name must be new in
its scope, and the name of a function or class stays.  A reference must get the
new name of its declaration, and no nearer scope may declare that name.
-/
def Good (p : Token → Prop) (g : Token → Token) : Visit → Prop
  | .declare δ earlier =>
      δ.name.Named p → (∀ ε ∈ earlier, ε.name.Named p) →
      (∀ ε ∈ earlier, ε.name.lexeme ≠ δ.name.lexeme) →
        (∀ ε ∈ earlier, (g ε.name).lexeme ≠ (g δ.name).lexeme) ∧
          (δ.isVariable = false → (g δ.name).lexeme = δ.name.lexeme)
  | .refer name none Δ =>
      name.Named p → LayersNamed p Δ → Undeclared id name.lexeme Δ →
        (g name).lexeme = name.lexeme ∧ Undeclared g (g name).lexeme Δ
  | .refer name (some depth) Δ =>
      name.Named p → LayersNamed p Δ → Undeclared id name.lexeme (Δ.take depth) →
        ∀ layer, Δ[depth]? = some layer → ∀ δ ∈ layer.declared, δ.name.lexeme = name.lexeme →
          (g name).lexeme = (g δ.name).lexeme ∧ Undeclared g (g name).lexeme (Δ.take depth)
  | .keep name => (g name).lexeme = name.lexeme

def AllGood (p : Token → Prop) (g : Token → Token) (visits : List Visit) : Prop :=
  ∀ v ∈ visits, Good p g v

@[simp]
theorem allGood_append {p : Token → Prop} {g : Token → Token} {first second : List Visit} :
    AllGood p g (first ++ second) ↔ AllGood p g first ∧ AllGood p g second := by
  simp only [AllGood, List.mem_append, or_imp, forall_and]

@[simp]
theorem allGood_cons {p : Token → Prop} {g : Token → Token} {visit : Visit}
    {visits : List Visit} :
    AllGood p g (visit :: visits) ↔ Good p g visit ∧ AllGood p g visits := by
  simp only [AllGood, List.mem_cons, or_imp, forall_and, forall_eq]

def OneToOne (g : Token → Token) (declared : List Declaration) : Prop :=
  ∀ δ ∈ declared, ∀ ε ∈ declared,
    (δ.name.lexeme = ε.name.lexeme ↔ (g δ.name).lexeme = (g ε.name).lexeme)

/-- What is known about the layers around a place in a class of some kind. -/
structure Around (p : Token → Prop) (g : Token → Token) (cls : ClassKind)
    (Δ : List Layer) : Prop where
  named : LayersNamed p Δ
  oneToOne : ∀ layer ∈ Δ, OneToOne g layer.declared
  inClass : cls ≠ .none → ∃ depth, Δ[depth]? = some .this ∧
    (∀ layer ∈ Δ.take depth, ∃ declared, layer = .names declared) ∧
    (cls = .subclass → Δ[depth + 1]? = some .super)

/-!
# Layers and frames
-/

/-- The naming of a frame pairs the old and the new names of a layer. -/
def Layer.Covered (g : Token → Token) : Layer → Frame → Prop
  | .names declared, .names naming _ =>
      ∀ δ ∈ declared, naming.pairs δ.name.lexeme (g δ.name).lexeme
  | .this, .this => True
  | .super, .super => True
  | _, _ => False

abbrev Covers (g : Token → Token) (Δ : List Layer) (Γ : List Frame) : Prop :=
  List.Forall₂ (Layer.Covered g) Δ Γ

/-- All declared names are bound, except the one whose declaration is not finished. -/
def Finished (current : Option Declaration) (Δ : List Layer) (Γ : List Frame) : Prop :=
  ∀ depth declared naming bound, Δ[depth]? = some (.names declared) →
    Γ[depth]? = some (.names naming bound) → ∀ δ ∈ declared,
      ¬ (depth = 0 ∧ ∃ ε ∈ current, ε.name.lexeme = δ.name.lexeme) → bound δ.name.lexeme

theorem Covers.getElem? {g : Token → Token} {Δ : List Layer} {Γ : List Frame}
    (hcovers : Covers g Δ Γ) {depth : Nat} {layer : Layer} (hlayer : Δ[depth]? = some layer) :
    ∃ frame, Γ[depth]? = some frame ∧ layer.Covered g frame := by
  induction hcovers generalizing depth with
  | nil => cases hlayer
  | @cons first frame Δ Γ hfirst _ ih =>
      cases depth with
      | zero =>
          cases hlayer
          exact ⟨frame, rfl, hfirst⟩
      | succ depth => exact ih hlayer

theorem Covers.this {g : Token → Token} {Δ : List Layer} {Γ : List Frame}
    (hcovers : Covers g Δ Γ) {depth : Nat} (hlayer : Δ[depth]? = some .this) :
    Γ[depth]? = some .this := by
  rcases hcovers.getElem? hlayer with ⟨frame, hframe, hcovered⟩
  cases frame with
  | this => exact hframe
  | names naming bound => cases hcovered
  | super => cases hcovered

theorem Covers.super {g : Token → Token} {Δ : List Layer} {Γ : List Frame}
    (hcovers : Covers g Δ Γ) {depth : Nat} (hlayer : Δ[depth]? = some .super) :
    Γ[depth]? = some .super := by
  rcases hcovers.getElem? hlayer with ⟨frame, hframe, hcovered⟩
  cases frame with
  | super => exact hframe
  | names naming bound => cases hcovered
  | this => cases hcovered

theorem Covers.namesWithin {g : Token → Token} {Δ : List Layer} {Γ : List Frame}
    (hcovers : Covers g Δ Γ) {depth : Nat}
    (hlayers : ∀ layer ∈ Δ.take depth, ∃ declared, layer = .names declared) :
    NamesWithin Γ depth := by
  induction hcovers generalizing depth with
  | nil =>
      intro frame hframe
      rw [List.take_nil] at hframe
      cases hframe
  | @cons layer frame Δ Γ hfirst _ ih =>
      cases depth with
      | zero =>
          intro other hother
          cases hother
      | succ depth =>
          rw [List.take_succ_cons] at hlayers
          intro other hother
          rw [List.take_succ_cons] at hother
          rcases List.mem_cons.mp hother with rfl | hrest
          · rcases hlayers layer List.mem_cons_self with ⟨declared, rfl⟩
            cases other with
            | names naming bound => exact ⟨naming, bound, rfl⟩
            | this => cases hfirst
            | super => cases hfirst
          · exact ih (fun layer hlayer => hlayers layer (List.mem_cons_of_mem _ hlayer)) other hrest

/-!
# Looking up a relabelled name
-/

inductive Bound (g : Token → Token) (Δ : List Layer) (name : Token) : Option Nat → Prop where
  | outside :
      (g name).lexeme = name.lexeme → Undeclared g (g name).lexeme Δ → Bound g Δ name none
  | inside {depth : Nat} {layer : Layer} {δ : Declaration} :
      Δ[depth]? = some layer → δ ∈ layer.declared → δ.name.lexeme = name.lexeme →
      (g δ.name).lexeme = (g name).lexeme → Undeclared g (g name).lexeme (Δ.take depth) →
      Bound g Δ name (some depth)

/-- The innermost scope gives the new name of a reference to no other name. -/
theorem Bound.lexeme_of_innermost {g : Token → Token} {Δ : List Layer} {name : Token}
    {depth : Option Nat} (hbound : Bound g Δ name depth)
    (honeToOne : ∀ layer ∈ Δ, OneToOne g layer.declared) {innermost : Layer}
    (hinnermost : innermost ∈ Δ.head?) {ε : Declaration} (hε : ε ∈ innermost.declared)
    (hlexeme : (g ε.name).lexeme = (g name).lexeme) : ε.name.lexeme = name.lexeme := by
  have hmem : innermost ∈ Δ := List.mem_of_mem_head? hinnermost
  cases hbound with
  | outside _ hundeclared => exact absurd hlexeme (hundeclared innermost hmem ε hε)
  | @inside depth layer δ hlayer hδ hsame hsame' hundeclared =>
      cases Δ with
      | nil => cases hmem
      | cons first Δ =>
          cases hinnermost
          cases depth with
          | zero =>
              cases hlayer
              have hnames := honeToOne innermost hmem ε hε δ hδ
              exact (hnames.mpr (hlexeme.trans hsame'.symm)).trans hsame
          | succ depth =>
              exact absurd hlexeme (hundeclared innermost List.mem_cons_self ε hε)

section

variable {sides : Sides} {known : NodeId → Option Nat} {p : Token → Prop} {g : Token → Token}
variable {cls : ClassKind} {current : Option Declaration} {Δ : List Layer} {S S' : Scopes}
variable (hg : Relates sides known p g) (haround : Around p g cls Δ)
variable (hshows : Shows id current Δ S) (hshows' : Shows g current Δ S')
variable {name : Token} (hname : name.Named p)

include hg haround hshows hshows' hname

/-- A name that is treated well is bound as before, and found at the same distance. -/
theorem bound_depth? (hgood : Good p g (.refer name (S.depth? name.lexeme) Δ)) :
    Bound g Δ name (S.depth? name.lexeme) ∧
      S'.depth? (g name).lexeme = S.depth? name.lexeme := by
  obtain ⟨hplain, hplain'⟩ := hg.plain name hname
  cases hdepth : S.depth? name.lexeme with
  | none =>
      rw [hdepth] at hgood
      have hundeclared := (undeclared_iff hplain).mpr (hshows.depth?_eq_none.mp hdepth)
      obtain ⟨hlexeme, hundeclared'⟩ := hgood hname haround.named hundeclared
      refine ⟨.outside hlexeme hundeclared', ?_⟩
      exact hshows'.depth?_eq_none.mpr ((undeclared_iff hplain').mp hundeclared')
  | some depth =>
      rw [hdepth] at hgood
      obtain ⟨⟨layer, hlayer, hdeclares⟩, hnearer⟩ := hshows.depth?_eq_some.mp hdepth
      have hundeclared := (undeclared_iff hplain).mpr hnearer
      obtain ⟨δ, hδ, hlexeme⟩ := (Layer.declares_iff hplain).mp hdeclares
      obtain ⟨hsame, hundeclared'⟩ :=
        hgood hname haround.named hundeclared layer hlayer δ hδ hlexeme
      refine ⟨.inside hlayer hδ hlexeme hsame.symm hundeclared', ?_⟩
      apply hshows'.depth?_eq_some.mpr
      refine ⟨⟨layer, hlayer, ?_⟩, (undeclared_iff hplain').mp hundeclared'⟩
      exact (Layer.declares_iff hplain').mpr ⟨δ, hδ, hsame.symm⟩

/-- If a name is not the one whose declaration is not finished, nor is the new one. -/
theorem unfinishedHere_relabelled (hgood : Good p g (.refer name (S.depth? name.lexeme) Δ))
    (hfinished : S.unfinishedHere name.lexeme = false) :
    S'.unfinishedHere (g name).lexeme = false := by
  obtain ⟨hbound, _⟩ := bound_depth? hg haround hshows hshows' hname hgood
  rw [← Bool.not_eq_true]
  intro hunfinished
  rcases (hshows'.unfinished _).mp hunfinished with ⟨ε, hε, hlexeme⟩
  rcases hshows'.innermost ε hε with ⟨innermost, hinnermost, hmem⟩
  have hsame := hbound.lexeme_of_innermost haround.oneToOne hinnermost hmem hlexeme
  have hcurrent : S.unfinishedHere name.lexeme = true :=
    (hshows.unfinished _).mpr ⟨ε, hε, hsame⟩
  rw [hfinished] at hcurrent
  cases hcurrent

/-- The two references are alike; one that is read must not be the one that is not bound. -/
theorem refers_relabelled (hgood : Good p g (.refer name (S.depth? name.lexeme) Δ))
    {node node' : NodeId} (hsees : sides.sees node (S.depth? name.lexeme))
    (hsees' : sides.sees' node' (S'.depth? (g name).lexeme))
    {reading : Bool} {unbound : Option Declaration}
    (hbinds : reading = true → ∀ ε ∈ unbound, ε.name.lexeme ≠ name.lexeme)
    {Γ : List Frame} (hcovers : Covers g Δ Γ) (hnames : Finished unbound Δ Γ) :
    Refers sides Γ reading ⟨name, node⟩ ⟨g name, node'⟩ := by
  obtain ⟨hbound, hdepth'⟩ := bound_depth? hg haround hshows hshows' hname hgood
  rw [hdepth'] at hsees'
  cases hdepth : S.depth? name.lexeme with
  | none =>
      rw [hdepth] at hbound hsees hsees'
      cases hbound with
      | outside hlexeme _ => exact .global hsees hsees' hlexeme (hg.related name hname.2)
  | some depth =>
      rw [hdepth] at hbound hsees hsees'
      cases hbound with
      | @inside _ layer δ hlayer hδ hsame hsame' _ =>
          cases layer with
          | this => cases hδ
          | super => cases hδ
          | names declared =>
              rcases hcovers.getElem? hlayer with ⟨frame, hframe, hcovered⟩
              cases frame with
              | this => cases hcovered
              | super => cases hcovered
              | names naming bound =>
                  refine .local hsees hsees' hframe ?_ ?_
                  · rw [← hsame, ← hsame']
                    exact hcovered δ hδ
                  · intro hreading
                    rw [← hsame]
                    apply hnames depth declared naming bound hlayer hframe δ hδ
                    rintro ⟨_, ε, hε, hlexeme⟩
                    exact hbinds hreading ε hε (hlexeme.trans hsame)

end

/-!
# Receivers

Declared names are never those of the scopes around methods.
-/

section

variable {g : Token → Token} {current : Option Declaration} {Δ : List Layer} {S : Scopes}
variable {depth : Nat}
variable (hshows : Shows g current Δ S)
variable (hplain : ∀ layer ∈ Δ, ∀ δ ∈ layer.declared, ¬ Reserved (g δ.name).lexeme)
variable (hthis : Δ[depth]? = some .this)
variable (hnames : ∀ layer ∈ Δ.take depth, ∃ declared, layer = .names declared)

include hplain hnames in
theorem not_declares_of_reserved {name : String} (hname : Reserved name) :
    ∀ layer ∈ Δ.take depth, ¬ layer.Declares g name := by
  intro layer hlayer hdeclares
  rcases hnames layer hlayer with ⟨declared, rfl⟩
  rcases hdeclares with ⟨δ, hδ, rfl⟩
  exact hplain _ (List.mem_of_mem_take hlayer) δ hδ hname

include hshows hplain hthis hnames

theorem depth?_this : S.depth? "this" = some depth := by
  apply hshows.depth?_eq_some.mpr
  have hnearer := not_declares_of_reserved hplain hnames (Or.inl rfl)
  exact ⟨⟨.this, hthis, rfl⟩, hnearer⟩

theorem depth?_super (hsuper : Δ[depth + 1]? = some .super) :
    S.depth? "super" = some (depth + 1) := by
  apply hshows.depth?_eq_some.mpr
  refine ⟨⟨.super, hsuper, rfl⟩, ?_⟩
  intro layer hlayer
  rw [List.take_add_one, hthis, List.mem_append] at hlayer
  rcases hlayer with hnearer | hhere
  · exact not_declares_of_reserved hplain hnames (Or.inr rfl) layer hnearer
  · cases List.mem_singleton.mp hhere
    have hdifferent : ("super" : String) ≠ "this" := by decide
    exact hdifferent

end

end Binding
end Lox
