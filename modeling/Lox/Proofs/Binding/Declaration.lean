import Lox.Proofs.Binding.Expression

/-!
# Relabelled declarations

Declaring a name adds it to the innermost layer.  If the name is treated well, the
relabelled declaration breaks no rule, and what is known about the layers stays
true of the new ones.
-/

namespace Lox
namespace Binding

open Lexical Resolve

/-!
# Places of statements
-/

/-- Statements stand in a scope for names or outside of all scopes. -/
inductive Place : List Layer → Prop where
  | outermost : Place []
  | scope (declared : List Declaration) (Δ : List Layer) : Place (.names declared :: Δ)

/-- The declaration that is not finished behind the name of a variable. -/
def pending (δ : Declaration) : List Layer → Option Declaration
  | .names _ :: _ => some δ
  | _ => none

section

variable {g : Token → Token} {δ : Declaration} {Δ : List Layer}

theorem Place.declare (hplace : Place Δ) : Place (declare δ Δ) := by
  cases hplace with
  | outermost => exact .outermost
  | scope declared Δ => exact .scope (δ :: declared) Δ

theorem Place.after (hplace : Place Δ) (s : Stmt) : Place (after s Δ) := by
  unfold Binding.after
  split
  · exact hplace.declare
  · exact hplace

theorem scopes_declare (hplace : Place Δ) :
    ((scopes g Δ).mark (g δ.name).lexeme false).mark (g δ.name).lexeme true =
      scopes g (declare δ Δ) := by
  cases hplace with
  | outermost => rfl
  | scope declared Δ => rfl

theorem shows_pending (hplace : Place Δ) :
    Shows g (pending δ Δ) (declare δ Δ) ((scopes g Δ).mark (g δ.name).lexeme false) := by
  cases hplace with
  | outermost => exact shows_scopes []
  | scope declared Δ => exact shows_unfinished δ declared Δ

/-!
# Frames
-/

variable {Γ : List Frame}

theorem Covers.of_declare (hcovers : Covers g (declare δ Δ) Γ) : Covers g Δ Γ := by
  unfold Binding.declare at hcovers
  split at hcovers
  · cases hcovers with
    | @cons _ frame _ Γ hframe hrest =>
        refine .cons ?_ hrest
        cases frame with
        | names naming bound => exact fun ε hε => hframe ε (List.mem_cons_of_mem _ hε)
        | this => cases hframe
        | super => cases hframe
  · exact hcovers

theorem Covers.of_after {s : Stmt} (hcovers : Covers g (after s Δ) Γ) : Covers g Δ Γ := by
  unfold Binding.after at hcovers
  split at hcovers
  · exact hcovers.of_declare
  · exact hcovers

theorem Covers.bind (hcovers : Covers g Δ Γ) (name : String) : Covers g Δ (bind name Γ) := by
  cases hcovers with
  | nil => exact .nil
  | @cons layer frame Δ Γ hframe hrest =>
      cases frame with
      | names naming bound =>
          refine .cons ?_ hrest
          cases layer with
          | names declared => exact hframe
          | this => cases hframe
          | super => cases hframe
      | this => exact .cons hframe hrest
      | super => exact .cons hframe hrest

theorem Finished.declare (hfinished : Finished none Δ Γ) (hcovers : Covers g Δ Γ) :
    Finished none (declare δ Δ) (bind δ.name.lexeme Γ) := by
  intro depth declared naming bound hlayer hframe ε hε hcurrent
  cases hcovers with
  | nil => cases hlayer
  | @cons layer frame Δ Γ hcovered hrest =>
      cases depth with
      | succ depth =>
          -- the outer layers and frames are those of before
          have hlayer' : (layer :: Δ)[depth + 1]? = some (.names declared) := by
            cases layer <;> exact hlayer
          have hframe' : (frame :: Γ)[depth + 1]? = some (.names naming bound) := by
            cases frame <;> exact hframe
          exact hfinished (depth + 1) declared naming bound hlayer' hframe' ε hε (by simp)
      | zero =>
          cases layer with
          | this => cases hlayer
          | super => cases hlayer
          | names earlier =>
              cases frame with
              | this => cases hframe
              | super => cases hframe
              | names naming' bound' =>
                  cases hlayer
                  cases hframe
                  rcases List.mem_cons.mp hε with rfl | hearlier
                  · exact Or.inl rfl
                  · exact Or.inr
                      (hfinished 0 earlier naming bound' rfl rfl ε hearlier (by simp))

theorem Finished.pending (hfinished : Finished none Δ Γ) :
    Finished (pending δ Δ) (Binding.declare δ Δ) Γ := by
  intro depth declared naming bound hlayer hframe ε hε hcurrent
  match Δ with
  | [] => cases hlayer
  | .this :: Δ => exact hfinished depth declared naming bound hlayer hframe ε hε (by simp)
  | .super :: Δ => exact hfinished depth declared naming bound hlayer hframe ε hε (by simp)
  | .names earlier :: Δ =>
      cases depth with
      | succ depth => exact hfinished (depth + 1) declared naming bound hlayer hframe ε hε (by simp)
      | zero =>
          cases hlayer
          rcases List.mem_cons.mp hε with rfl | hearlier
          · exact absurd ⟨rfl, ε, rfl, rfl⟩ hcurrent
          · exact hfinished 0 earlier naming bound rfl hframe ε hearlier (by simp)

theorem Finished.cons_names {declared : List Declaration} {naming : Naming}
    {bound : String → Prop} (hfinished : Finished none Δ Γ)
    (hbound : ∀ δ ∈ declared, bound δ.name.lexeme) :
    Finished none (.names declared :: Δ) (.names naming bound :: Γ) := by
  intro depth declared' naming' bound' hlayer hframe ε hε _
  cases depth with
  | zero =>
      cases hlayer
      cases hframe
      exact hbound ε hε
  | succ depth => exact hfinished depth declared' naming' bound' hlayer hframe ε hε (by simp)

theorem Finished.cons_receiver {layer : Layer} {frame : Frame} (hfinished : Finished none Δ Γ)
    (hlayer : layer.declared = []) :
    Finished none (layer :: Δ) (frame :: Γ) := by
  intro depth declared naming bound hnames hframe ε hε _
  cases depth with
  | zero =>
      cases hnames
      rw [show declared = [] from hlayer] at hε
      cases hε
  | succ depth => exact hfinished depth declared naming bound hnames hframe ε hε (by simp)

end

/-!
# Declaring a relabelled name
-/

section

variable {p : Token → Prop} {g : Token → Token} {cls : ClassKind} {δ : Declaration}
variable {Δ : List Layer}

theorem Around.cons_names {declared : List Declaration} (haround : Around p g cls Δ)
    (hnamed : ∀ δ ∈ declared, δ.name.Named p) (honeToOne : OneToOne g declared) :
    Around p g cls (.names declared :: Δ) := by
  refine ⟨?_, ?_, ?_⟩
  · intro layer hlayer
    rcases List.mem_cons.mp hlayer with rfl | houter
    · exact hnamed
    · exact haround.named layer houter
  · intro layer hlayer
    rcases List.mem_cons.mp hlayer with rfl | houter
    · exact honeToOne
    · exact haround.oneToOne layer houter
  · intro hcls
    rcases haround.inClass hcls with ⟨depth, hthis, hlayers, hsuper⟩
    refine ⟨depth + 1, hthis, ?_, hsuper⟩
    intro layer hlayer
    rcases List.mem_cons.mp hlayer with rfl | houter
    · exact ⟨declared, rfl⟩
    · exact hlayers layer houter

theorem Around.of_cons_names {declared : List Declaration}
    (haround : Around p g cls (.names declared :: Δ)) : Around p g cls Δ := by
  refine ⟨?_, ?_, ?_⟩
  · exact fun layer hlayer => haround.named layer (List.mem_cons_of_mem _ hlayer)
  · exact fun layer hlayer => haround.oneToOne layer (List.mem_cons_of_mem _ hlayer)
  · intro hcls
    rcases haround.inClass hcls with ⟨depth, hthis, hlayers, hsuper⟩
    cases depth with
    | zero => cases hthis
    | succ depth =>
        refine ⟨depth, hthis, ?_, hsuper⟩
        exact fun layer hlayer => hlayers layer (List.mem_cons_of_mem _ hlayer)

theorem Around.classLayers (haround : Around p g cls Δ) (subclass : Bool) :
    Around p g (if subclass then .subclass else .plain) (classLayers subclass Δ) := by
  have hmem : ∀ layer ∈ Binding.classLayers subclass Δ, layer ∈ Δ ∨ layer.declared = [] := by
    intro layer hlayer
    cases subclass with
    | false =>
        rcases List.mem_cons.mp hlayer with rfl | houter
        · exact Or.inr rfl
        · exact Or.inl houter
    | true =>
        rcases List.mem_cons.mp hlayer with rfl | hrest
        · exact Or.inr rfl
        · rcases List.mem_cons.mp hrest with rfl | houter
          · exact Or.inr rfl
          · exact Or.inl houter
  refine ⟨?_, ?_, ?_⟩
  · intro layer hlayer δ hδ
    rcases hmem layer hlayer with houter | hnone
    · exact haround.named layer houter δ hδ
    · rw [hnone] at hδ
      cases hδ
  · intro layer hlayer δ hδ
    rcases hmem layer hlayer with houter | hnone
    · exact haround.oneToOne layer houter δ hδ
    · rw [hnone] at hδ
      cases hδ
  · intro _
    refine ⟨0, rfl, by simp, ?_⟩
    cases subclass with
    | false => exact fun hplain => ClassKind.noConfusion hplain
    | true => exact fun _ => rfl

theorem OneToOne.cons {declared : List Declaration} (honeToOne : OneToOne g declared)
    (hnew : ∀ ε ∈ declared, ε.name.lexeme ≠ δ.name.lexeme)
    (hnew' : ∀ ε ∈ declared, (g ε.name).lexeme ≠ (g δ.name).lexeme) :
    OneToOne g (δ :: declared) := by
  intro ε hε ζ hζ
  rcases List.mem_cons.mp hε with rfl | hearlier
  · rcases List.mem_cons.mp hζ with rfl | hearlier
    · simp
    · exact iff_of_false (Ne.symm (hnew ζ hearlier)) (Ne.symm (hnew' ζ hearlier))
  · rcases List.mem_cons.mp hζ with rfl | hearlier'
    · exact iff_of_false (hnew ε hearlier) (hnew' ε hearlier)
    · exact honeToOne ε hearlier ζ hearlier'

theorem silent_declare {name : Token} {declared : List Declaration} :
    Silent (Resolve.declare name (scopes g (.names declared :: Δ))).findings ↔
      ∀ ε ∈ declared, (g ε.name).lexeme ≠ name.lexeme := by
  have hdeclared : (scopes g (.names declared :: Δ)).declaredHere name.lexeme = true ↔
      ∃ ε ∈ declared, (g ε.name).lexeme = name.lexeme := Layer.declares_scope (.names declared) _
  simp only [Resolve.declare, bind_apply, scopes_apply, silent_append, silent_nil,
    silent_require, Bool.not_eq_true']
  rw [← Bool.not_eq_true, hdeclared]
  simp [Resolve.mark]

/-- A relabelled declaration breaks no rule, and its name is kept if it is not a variable. -/
theorem declare_relabelled (hplace : Place Δ) (haround : Around p g cls Δ)
    (hnamed : δ.name.Named p)
    (hsilent : Silent (Resolve.declare δ.name (scopes id Δ)).findings)
    (hgood : AllGood p g (declareVisits δ Δ)) :
    Silent (Resolve.declare (g δ.name) (scopes g Δ)).findings ∧
      Around p g cls (declare δ Δ) ∧
      (δ.isVariable = false → (g δ.name).lexeme = δ.name.lexeme) := by
  cases hplace with
  | outermost =>
      have hkeep := (allGood_cons.mp hgood).1
      refine ⟨?_, haround, fun _ => hkeep⟩
      simp [Resolve.declare, scopes, Scopes.declaredHere, require_apply, Resolve.mark]
  | scope declared Δ =>
      have hdeclared := haround.named _ List.mem_cons_self
      have hnew := silent_declare.mp hsilent
      obtain ⟨hnew', hkept⟩ := (allGood_cons.mp hgood).1 hnamed hdeclared hnew
      refine ⟨silent_declare.mpr hnew', ?_, hkept⟩
      apply haround.of_cons_names.cons_names
      · intro ε hε
        rcases List.mem_cons.mp hε with rfl | hε
        · exact hnamed
        · exact hdeclared ε hε
      · exact (haround.oneToOne _ List.mem_cons_self).cons hnew hnew'

/-- The two names of a declaration belong together in all frames that match. -/
theorem declares_relabelled {Γ : List Frame} (hplace : Place Δ)
    (hgood : AllGood p g (declareVisits δ Δ)) (hcovers : Covers g (declare δ Δ) Γ) :
    Declares δ.name.lexeme (g δ.name).lexeme Γ := by
  cases hplace with
  | outermost =>
      cases hcovers
      exact (allGood_cons.mp hgood).1
  | scope declared Δ =>
      cases hcovers with
      | @cons _ frame _ Γ hframe _ =>
          cases frame with
          | names naming bound => exact hframe δ List.mem_cons_self
          | this => cases hframe
          | super => cases hframe

end

end Binding
end Lox
