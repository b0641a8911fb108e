import Lox.Proofs.Binding.Declaration
import Lox.Proofs.Resolve.Relabel

/-!
# Resolving relabelled statements

If all names of a program are treated well, the relabelled program resolves without
violations, and the two are alike for those who see at the nodes what was found.
-/

namespace Lox
namespace Binding

open Lexical Resolve

/-!
# Layers behind statements
-/

theorem declared?_eq (s : Stmt) : s.declared? = s.declaration?.map Declaration.name := by
  cases s <;> rfl

theorem after_of_declared? {s : Stmt} (hdeclared : s.declared? = none) (Δ : List Layer) :
    after s Δ = Δ := by
  rw [declared?_eq, Option.map_eq_none_iff] at hdeclared
  rw [after, hdeclared]

theorem declared?_numbered (k : NodeId) (s : Stmt) : (s.numbered k).declared? = s.declared? := by
  rw [declared?_eq, declaration?_numbered, ← declared?_eq]

theorem afterAll_names (ss : List Stmt) (declared : List Declaration) (Δ : List Layer) :
    ∃ more, afterAll (.names declared :: Δ) ss = .names (more ++ declared) :: Δ := by
  induction ss generalizing declared with
  | nil => exact ⟨[], rfl⟩
  | cons s ss ih =>
      cases hdeclaration : s.declaration? with
      | none => simpa [afterAll, after, hdeclaration] using ih declared
      | some δ =>
          rcases ih (δ :: declared) with ⟨more, hmore⟩
          refine ⟨more ++ [δ], ?_⟩
          simpa [afterAll, after, hdeclaration, declare] using hmore

theorem Covers.of_afterAll {g : Token → Token} {ss : List Stmt} {Δ : List Layer}
    {Γ : List Frame} (hcovers : Covers g (afterAll Δ ss) Γ) : Covers g Δ Γ := by
  induction ss generalizing Δ with
  | nil => exact hcovers
  | cons s ss ih => exact Covers.of_after (ih hcovers)

theorem Finished.after {g : Token → Token} {Δ : List Layer} {Γ : List Frame}
    (hfinished : Finished none Δ Γ) (hcovers : Covers g Δ Γ) (s : Stmt) :
    Finished none (after s Δ) (Lexical.after s Γ) := by
  rw [Binding.after, Lexical.after, declared?_eq]
  cases s.declaration? with
  | none => exact hfinished
  | some δ => exact hfinished.declare hcovers

theorem Covers.after {g : Token → Token} {Δ : List Layer} {Γ : List Frame}
    (hcovers : Covers g Δ Γ) (s : Stmt) : Covers g Δ (Lexical.after s Γ) := by
  rw [Lexical.after]
  cases s.declared? with
  | none => exact hcovers
  | some name => exact hcovers.bind name.lexeme

theorem mem_parameters {δ : Declaration} (params : List Token) (earlier : List Declaration) :
    δ ∈ parameters earlier params ↔ δ ∈ earlier ∨ ∃ t ∈ params, δ = ⟨t, true⟩ := by
  induction params generalizing earlier with
  | nil => simp [parameters]
  | cons t params ih =>
      rw [parameters, ih, List.mem_cons]
      constructor
      · rintro ((rfl | hearlier) | ⟨u, hu, rfl⟩)
        · exact Or.inr ⟨t, List.mem_cons_self, rfl⟩
        · exact Or.inl hearlier
        · exact Or.inr ⟨u, List.mem_cons_of_mem _ hu, rfl⟩
      · rintro (hearlier | ⟨u, hu, rfl⟩)
        · exact Or.inl (Or.inr hearlier)
        · rcases List.mem_cons.mp hu with rfl | hu
          · exact Or.inl (Or.inl rfl)
          · exact Or.inr ⟨u, hu, rfl⟩

/-!
# Frames of new scopes
-/

variable {sides : Sides} {known : NodeId → Option Nat} {p : Token → Prop} {g : Token → Token}

def OneToOne.naming {declared : List Declaration} (honeToOne : OneToOne g declared) : Naming where
  pairs name name' := ∃ δ ∈ declared, δ.name.lexeme = name ∧ (g δ.name).lexeme = name'
  one_to_one := by
    rintro a a' b b' ⟨δ, hδ, rfl, rfl⟩ ⟨ε, hε, rfl, rfl⟩
    exact honeToOne δ hδ ε hε

theorem Covers.cons_naming {declared : List Declaration} {Δ : List Layer} {Γ : List Frame}
    (hcovers : Covers g Δ Γ) (honeToOne : OneToOne g declared) (bound : String → Prop) :
    Covers g (.names declared :: Δ) (.names honeToOne.naming bound :: Γ) :=
  .cons (fun δ hδ => ⟨δ, hδ, rfl, rfl⟩) hcovers

/-!
# Parts of statements
-/

/-- Behind what was resolved, the scopes show the layers, about which the same is known. -/
structure Proceeds (sides : Sides) (p : Token → Prop) (g : Token → Token) (cls : ClassKind)
    (Δ Δ₁ : List Layer) (alike : List Frame → Prop) (r r' : Resolution Unit) : Prop
    extends ResolvesAlike sides g none Δ Δ₁ alike r' where
  left : r.scopes = scopes id Δ₁
  right : r'.scopes = scopes g Δ₁
  around : Around p g cls Δ₁

theorem declareAll_relabelled {cls : ClassKind} {Δ : List Layer} (params : List Token)
    (declared : List Declaration) (haround : Around p g cls (.names declared :: Δ))
    (hnamed : ∀ t ∈ params, t.Named p)
    (hsilent : Silent (declareAll params (scopes id (.names declared :: Δ))).findings)
    (hgood : AllGood p g (parameterVisits declared params)) :
    Proceeds sides p g cls (.names declared :: Δ) (.names (parameters declared params) :: Δ)
      (fun _ => True) (declareAll params (scopes id (.names declared :: Δ)))
      (declareAll (params.map g) (scopes g (.names declared :: Δ))) := by
  induction params generalizing declared with
  | nil => exact ⟨⟨silent_nil, fun _ _ _ _ => trivial⟩, rfl, rfl, haround⟩
  | cons t params ih =>
      have hstep : ∀ (h : Token → Token) (ts : List Token),
          declareAll (h t :: ts) (scopes h (.names declared :: Δ)) =
            ⟨(), (declareAll ts (scopes h (.names (⟨t, true⟩ :: declared) :: Δ))).scopes,
              (Resolve.declare (h t) (scopes h (.names declared :: Δ))).findings ++
                (declareAll ts (scopes h (.names (⟨t, true⟩ :: declared) :: Δ))).findings⟩ := by
        intro h ts
        have hdeclare := scopes_declare (g := h) (δ := ⟨t, true⟩) (.scope declared Δ)
        simp only [declareAll, bind_apply, declare_scopes, define_apply, List.nil_append,
          hdeclare]
        rfl
      rw [show t :: params = id t :: params from rfl, hstep] at hsilent
      rw [List.map_cons, show t :: params = id t :: params from rfl, hstep, hstep]
      obtain ⟨hsilentFirst, hsilentRest⟩ := silent_append.mp hsilent
      obtain ⟨hgoodFirst, hgoodRest⟩ := allGood_cons.mp hgood
      obtain ⟨hsilent', haround', _⟩ := declare_relabelled (δ := ⟨t, true⟩) (.scope declared Δ)
        haround (hnamed t List.mem_cons_self) hsilentFirst
        (allGood_cons.mpr ⟨hgoodFirst, by simp [AllGood]⟩)
      have hrest := ih (⟨t, true⟩ :: declared) haround'
        (fun u hu => hnamed u (List.mem_cons_of_mem _ hu)) hsilentRest hgoodRest
      exact ⟨⟨silent_append.mpr ⟨hsilent', hrest.silent⟩, fun _ _ _ _ => trivial⟩, hrest.left,
        hrest.right, hrest.around⟩

theorem superclass_relabelled (hg : Relates sides known p g) {cls : ClassKind}
    {Δ : List Layer} (hplace : Place Δ) {name : Token}
    (haround : Around p g cls (declare ⟨name, false⟩ Δ))
    (hname : (g name).lexeme = name.lexeme) {parent : Option Reference}
    (hnamed : ∀ r ∈ parent, r.name.Named p) {k : NodeId}
    (hseen : Seen sides.sees (superclass name (Reference.optionalNumbered k parent)
      (scopes id (declare ⟨name, false⟩ Δ))).findings)
    (hgood : AllGood p g (parentVisits known (declare ⟨name, false⟩ Δ)
      (Reference.optionalNumbered k parent))) (k' : NodeId) :
    ResolvesAlike sides g none Δ (declare ⟨name, false⟩ Δ)
      (fun Γ => AlikeParent sides Γ (Reference.optionalNumbered k parent)
        (Reference.optionalNumbered k' (parent.map (Reference.relabel g))))
      (superclass (g name) (Reference.optionalNumbered k' (parent.map (Reference.relabel g)))
        (scopes g (declare ⟨name, false⟩ Δ))) := by
  cases parent with
  | none => exact ⟨silent_nil, fun _ _ _ _ => .none⟩
  | some r =>
      have hr := hnamed r rfl
      have hshows := shows_scopes (g := id) (declare ⟨name, false⟩ Δ)
      have hshows' := shows_scopes (g := g) (declare ⟨name, false⟩ Δ)
      have hsome : ∀ (n : Token) (r : Reference) (S : Scopes), superclass n (some r) S =
          ⟨(), S, (require (n.lexeme != r.name.lexeme) r.name .inheritsFromItself S).findings ++
              (variableReference r S).findings⟩ := by
        intro n r S
        simp [superclass, require_apply]
      rw [Reference.optionalNumbered, hsome] at hseen
      rw [Option.map_some, Reference.optionalNumbered, Reference.optionalNumbered, hsome]
      obtain ⟨hrequire, hread⟩ := seen_append.mp hseen
      have hother : name.lexeme ≠ r.name.lexeme := by
        simpa [Reference.numbered] using hrequire.silent
      have hgoodParent : Good p g (.refer r.name (known k) _) := (allGood_cons.mp hgood).1
      have hctx : Around p g (Context.mk .none cls).cls _ := haround
      have hparent := variableReference_alike hg hctx hshows hshows' hr hread hgoodParent k'
      have hsees : sides.sees k _ := sees_of_variableReference hread
      rw [hg.known hsees] at hgoodParent
      obtain ⟨hbound, _⟩ := bound_depth? hg haround hshows hshows' hr hgoodParent
      have hother' : (g name).lexeme ≠ (g r.name).lexeme := by
        intro hsame
        apply hother
        cases hplace with
        | outermost =>
            -- outside of all scopes both names are kept
            generalize (scopes id (declare ⟨name, false⟩ [])).depth? r.name.lexeme = depth at hbound
            cases hbound with
            | outside hkept _ => rw [← hname, hsame, hkept]
            | inside hlayer => cases hlayer
        | scope declared Δ =>
            exact hbound.lexeme_of_innermost (ε := ⟨name, false⟩) haround.oneToOne rfl
              List.mem_cons_self hsame
      constructor
      · refine silent_append.mpr ⟨?_, hparent.silent⟩
        simpa [Reference.relabel, Reference.numbered] using hother'
      · intro hseen' Γ hcovers hfinished
        refine .some ?_ (hg.related _ hr.2)
        apply refers_relabelled hg haround hshows hshows' hr hgoodParent hsees
          (sees_of_variableReference (seen_append.mp hseen').2) _ hcovers hfinished.pending
        intro _ ε hε
        cases hplace with
        | outermost => cases hε
        | scope declared Δ =>
            cases hε
            exact hother

theorem methodKind_ne_none (f : Function) : methodKind f ≠ .none := by
  unfold methodKind
  split <;> decide

/-!
# Statements
-/

/-- The frames of a scope are made of all its declarations; what is bound first is a parameter. -/
theorem Proceeds.within {cls : ClassKind} {Δ : List Layer} {declared : List Declaration}
    {ss : List Stmt} {alike : List Frame → Prop} {r r' : Resolution Unit}
    (hbody : Proceeds sides p g cls (.names declared :: Δ) (afterAll (.names declared :: Δ) ss)
      alike r r')
    (bound : String → Prop) (hbound : ∀ δ ∈ declared, bound δ.name.lexeme) :
    ∃ naming : Naming, (∀ δ ∈ declared, naming.pairs δ.name.lexeme (g δ.name).lexeme) ∧
      (Seen sides.sees' r'.findings → ∀ Γ, Covers g Δ Γ → Finished none Δ Γ →
        alike (.names naming bound :: Γ)) := by
  have haround := hbody.around
  have halike := hbody.alike
  rcases afterAll_names ss declared Δ with ⟨more, hmore⟩
  rw [hmore] at haround halike
  have honeToOne := haround.oneToOne _ List.mem_cons_self
  refine ⟨OneToOne.naming honeToOne, ?_, ?_⟩
  · exact fun δ hδ => ⟨δ, List.mem_append_right more hδ, rfl, rfl⟩
  · intro hseen' Γ hcovers hfinished
    exact halike hseen' _ (hcovers.cons_naming honeToOne bound) (hfinished.cons_names hbound)

theorem Around.cons_empty {cls : ClassKind} {Δ : List Layer} (haround : Around p g cls Δ) :
    Around p g cls (.names [] :: Δ) :=
  haround.cons_names (by simp) (by simp [OneToOne])

theorem scopes_finished (g : Token → Token) (δ : Declaration) {Δ : List Layer}
    (hplace : Place Δ) :
    (scopes g Δ).finished (g δ.name).lexeme = scopes g (declare δ Δ) :=
  scopes_declare hplace

theorem scopes_aroundMethods (Δ : List Layer) (subclass : Bool) :
    (scopes g Δ).aroundMethods subclass = scopes g (classLayers subclass Δ) := by
  cases subclass <;> rfl

theorem covers_classFrames {Δ : List Layer} {Γ : List Frame} (hcovers : Covers g Δ Γ)
    (subclass : Bool) :
    Covers g (classLayers subclass Δ) (.this :: classFrames subclass Γ) := by
  cases subclass with
  | false => exact .cons trivial hcovers
  | true => exact .cons trivial (.cons trivial hcovers)

theorem finished_classFrames {Δ : List Layer} {Γ : List Frame} (hfinished : Finished none Δ Γ)
    (subclass : Bool) :
    Finished none (classLayers subclass Δ) (.this :: classFrames subclass Γ) := by
  cases subclass with
  | false => exact hfinished.cons_receiver rfl
  | true => exact (hfinished.cons_receiver rfl).cons_receiver rfl

theorem classDecl_alike (hg : Relates sides known p g) {ctx : Context} {Δ : List Layer}
    (hplace : Place Δ) (haround : Around p g ctx.cls Δ) {name : Token}
    {parent : Option Reference} {methods : List Function} {kind : ClassKind} {inner : List Layer}
    {k : NodeId} (k' : NodeId) (hkind : kind = if parent.isSome then .subclass else .plain)
    (hinner : inner = classLayers parent.isSome (declare ⟨name, false⟩ Δ))
    (hname : name.Named p) (hparent : ∀ r ∈ parent, r.name.Named p)
    (hmethods : ∀ {k}, Around p g kind inner →
      Seen sides.sees (functions leave { ctx with cls := kind } (Function.allNumbered k methods)
        (scopes id inner)).findings →
      AllGood p g (methodsVisits known inner (Function.allNumbered k methods)) → ∀ k',
      ResolvesAlike sides g none inner inner
        (fun Γ => AlikeMethods sides Γ (Function.allNumbered k methods)
          (Function.allNumbered k' (Function.relabels g methods)))
        (functions leave { ctx with cls := kind }
          (Function.allNumbered k' (Function.relabels g methods)) (scopes g inner)))
    (hseen : Seen sides.sees
      (stmt leave ctx ((Stmt.classDecl name parent methods).numbered k) (scopes id Δ)).findings)
    (hgood : AllGood p g
      (stmtVisits known Δ ((Stmt.classDecl name parent methods).numbered k))) :
    Proceeds sides p g ctx.cls Δ (declare ⟨name, false⟩ Δ)
      (fun Γ => AlikeStmt sides (ctx.function != .none) Γ
        ((Stmt.classDecl name parent methods).numbered k)
        (((Stmt.classDecl name parent methods).relabel g).numbered k'))
      (stmt leave ctx ((Stmt.classDecl name parent methods).numbered k) (scopes id Δ))
      (stmt leave ctx (((Stmt.classDecl name parent methods).relabel g).numbered k')
        (scopes g Δ)) := by
  subst hkind hinner
  have hleft : (scopes id Δ).finished name.lexeme = scopes id (declare ⟨name, false⟩ Δ) :=
    scopes_finished id ⟨name, false⟩ hplace
  have hright : (scopes g Δ).finished (g name).lexeme = scopes g (declare ⟨name, false⟩ Δ) :=
    scopes_finished g ⟨name, false⟩ hplace
  rw [Stmt.numbered, stmt_classDecl, hleft, Reference.isSome_optionalNumbered,
    scopes_aroundMethods] at hseen
  rw [Stmt.numbered, stmtVisits, Reference.isSome_optionalNumbered] at hgood
  rw [Stmt.relabel, Stmt.numbered, Stmt.numbered, stmt_classDecl, stmt_classDecl, hleft, hright,
    Reference.isSome_optionalNumbered, Reference.isSome_optionalNumbered, Option.isSome_map,
    scopes_aroundMethods, scopes_aroundMethods]
  obtain ⟨hseenName, hseenRest⟩ := seen_append.mp hseen
  obtain ⟨hseenParent, hseenMethods⟩ := seen_append.mp hseenRest
  obtain ⟨hgoodFirst, hgoodMethods⟩ := allGood_append.mp hgood
  obtain ⟨hgoodName, hgoodParent⟩ := allGood_append.mp hgoodFirst
  obtain ⟨hsilentName', haround', hkept⟩ :=
    declare_relabelled (δ := ⟨name, false⟩) hplace haround hname hseenName.silent hgoodName
  have halikeParent := superclass_relabelled hg hplace haround' (hkept rfl) hparent hseenParent
    hgoodParent
  have ih := hmethods (haround'.classLayers parent.isSome) hseenMethods hgoodMethods
  refine ⟨⟨?_, ?_⟩, rfl, rfl, haround'⟩
  · exact silent_append.mpr
      ⟨hsilentName', silent_append.mpr ⟨(halikeParent _).silent, (ih _).silent⟩⟩
  · intro hseen' Γ hcovers hfinished
    obtain ⟨_, hseenRest'⟩ := seen_append.mp hseen'
    obtain ⟨hseenParent', hseenMethods'⟩ := seen_append.mp hseenRest'
    have hcoversMethods := covers_classFrames (hcovers.bind name.lexeme) parent.isSome
    have hfinishedName : Finished none (declare ⟨name, false⟩ Δ) (Lexical.bind name.lexeme Γ) :=
      Finished.declare hfinished (Covers.of_declare hcovers)
    have hfinishedMethods := finished_classFrames hfinishedName parent.isSome
    have hdeclares : Declares name.lexeme (g name).lexeme Γ :=
      declares_relabelled hplace hgoodName hcovers
    apply AlikeStmt.classDecl hdeclares (hkept rfl)
      ((halikeParent _).alike hseenParent' Γ hcovers hfinished)
    rw [Reference.isSome_optionalNumbered]
    exact (ih _).alike hseenMethods' _ hcoversMethods hfinishedMethods

mutual

theorem stmt_alike (hg : Relates sides known p g) (ctx : Context) (Δ : List Layer)
    (hplace : Place Δ) (haround : Around p g ctx.cls Δ) {k : NodeId} :
    (s : Stmt) → s.WellFormed p →
      Seen sides.sees (stmt leave ctx (s.numbered k) (scopes id Δ)).findings →
      AllGood p g (stmtVisits known Δ (s.numbered k)) → ∀ k',
      Proceeds sides p g ctx.cls Δ (after s Δ)
        (fun Γ => AlikeStmt sides (ctx.function != .none) Γ (s.numbered k)
          ((s.relabel g).numbered k'))
        (stmt leave ctx (s.numbered k) (scopes id Δ))
        (stmt leave ctx ((s.relabel g).numbered k') (scopes g Δ))
  | .block body, hbody, hseen, hgood, k' => by
      rw [Stmt.numbered, stmt_block] at hseen
      rw [Stmt.relabel, Stmt.numbered, Stmt.numbered, stmt_block, stmt_block]
      have ih := stmts_alike hg ctx (.names [] :: Δ) (.scope [] Δ) haround.cons_empty body hbody
        hseen hgood k'
      rcases ih.within (fun _ => False) (by simp) with ⟨naming, _, halike⟩
      refine ⟨⟨ih.silent, ?_⟩, rfl, rfl, haround⟩
      exact fun hseen' Γ hcovers hfinished => .block naming (halike hseen' Γ hcovers hfinished)
  | .classDecl name parent methods, ⟨hname, hparent, hmethods⟩, hseen, hgood, k' =>
      classDecl_alike hg hplace haround k' rfl rfl hname hparent
        (fun hinner => functions_alike hg _ _ hinner methods hmethods) hseen hgood
  | .expression inner, hinner, hseen, hgood, k' => by
      rw [Stmt.numbered, stmt_expression] at hseen
      rw [Stmt.relabel, Stmt.numbered, Stmt.numbered, stmt_expression, stmt_expression]
      have ih := expr_alike hg haround (shows_scopes Δ) (shows_scopes Δ) inner hinner hseen hgood k'
      refine ⟨⟨ih.silent, ?_⟩, expr_scopes _ _ _, expr_scopes _ _ _, haround⟩
      exact fun hseen' Γ hcovers hfinished => .expression (ih.alike hseen' Γ hcovers hfinished)
  | .funDecl f, hf, hseen, hgood, k' => by
      have hnamed : f.name.Named p := by
        rcases f with ⟨name, params, body⟩
        exact hf.1
      have hleft : (scopes id Δ).finished f.name.lexeme = scopes id (declare ⟨f.name, false⟩ Δ) :=
        scopes_finished id ⟨f.name, false⟩ hplace
      have hright : (scopes g Δ).finished (g f.name).lexeme =
          scopes g (declare ⟨f.name, false⟩ Δ) := scopes_finished g ⟨f.name, false⟩ hplace
      rw [Stmt.numbered, stmt_funDecl, Function.name_numbered, hleft] at hseen
      rw [Stmt.numbered, stmtVisits, Function.name_numbered] at hgood
      rw [Stmt.relabel, Stmt.numbered, Stmt.numbered, stmt_funDecl, stmt_funDecl,
        Function.name_numbered, Function.name_numbered, name_relabel, hleft, hright]
      obtain ⟨hseenName, hseenBody⟩ := seen_append.mp hseen
      obtain ⟨hgoodName, hgoodBody⟩ := allGood_append.mp hgood
      obtain ⟨hsilentName', haround', hkept⟩ :=
        declare_relabelled (δ := ⟨f.name, false⟩) hplace haround hnamed hseenName.silent hgoodName
      have ih := function_alike hg ctx .function (by decide) _ haround' f hf (hkept rfl)
        hseenBody hgoodBody k'
      refine ⟨⟨silent_append.mpr ⟨hsilentName', ih.silent⟩, ?_⟩, rfl, rfl, haround'⟩
      intro hseen' Γ hcovers hfinished
      have hdeclares := declares_relabelled hplace hgoodName hcovers
      have hbody := ih.alike (seen_append.mp hseen').2 _ (hcovers.bind f.name.lexeme)
        (hfinished.declare hcovers.of_declare)
      refine .funDecl ?_ ?_
      · rw [Function.name_numbered, Function.name_numbered, name_relabel]
        exact hdeclares
      · rw [Function.name_numbered]
        exact hbody
  | .ifElse condition thenBranch none, ⟨hcondition, hdeclared, hthen⟩, hseen, hgood, k' => by
      rw [Stmt.numbered, stmt_ifThen] at hseen
      rw [Stmt.relabel, Stmt.numbered, Stmt.numbered, stmt_ifThen, stmt_ifThen]
      obtain ⟨hseenCondition, hseenThen⟩ := seen_append.mp hseen
      obtain ⟨hgoodCondition, hgoodThen⟩ := allGood_append.mp hgood
      have ihc := expr_alike hg haround (shows_scopes Δ) (shows_scopes Δ) condition hcondition
        hseenCondition hgoodCondition k'
      have iht := stmt_alike hg ctx Δ hplace haround thenBranch hthen hseenThen hgoodThen
        (k' + (condition.relabel g).places)
      rw [after_of_declared? hdeclared] at iht
      refine ⟨⟨silent_append.mpr ⟨ihc.silent, iht.silent⟩, ?_⟩, iht.left, iht.right, haround⟩
      intro hseen' Γ hcovers hfinished
      obtain ⟨hseenCondition', hseenThen'⟩ := seen_append.mp hseen'
      exact .ifThen (ihc.alike hseenCondition' Γ hcovers hfinished)
        ((declared?_numbered _ _).trans hdeclared) (iht.alike hseenThen' Γ hcovers hfinished)
  | .ifElse condition thenBranch (some elseBranch),
      ⟨hcondition, ⟨hdeclaredThen, hthen⟩, hdeclaredElse, helse⟩, hseen, hgood, k' => by
      rw [Stmt.numbered] at hseen
      obtain ⟨hgoodFirst, hgoodElse⟩ := allGood_append.mp hgood
      obtain ⟨hgoodCondition, hgoodThen⟩ := allGood_append.mp hgoodFirst
      have hseenThen : Seen sides.sees
          (stmt leave ctx (thenBranch.numbered (k + condition.places)) (scopes id Δ)).findings := by
        rw [stmt_ifElse rfl] at hseen
        exact (seen_append.mp (seen_append.mp hseen).2).1
      have iht := stmt_alike hg ctx Δ hplace haround thenBranch hthen hseenThen hgoodThen
        (k' + (condition.relabel g).places)
      rw [after_of_declared? hdeclaredThen] at iht
      rw [stmt_ifElse iht.left] at hseen
      rw [Stmt.relabel, Stmt.numbered, Stmt.numbered, stmt_ifElse iht.left, stmt_ifElse iht.right]
      obtain ⟨hseenCondition, hseenBranches⟩ := seen_append.mp hseen
      have ihc := expr_alike hg haround (shows_scopes Δ) (shows_scopes Δ) condition hcondition
        hseenCondition hgoodCondition k'
      have ihe := stmt_alike hg ctx Δ hplace haround elseBranch helse
        (seen_append.mp hseenBranches).2 hgoodElse
        (k' + (condition.relabel g).places + (thenBranch.relabel g).places)
      rw [after_of_declared? hdeclaredElse] at ihe
      refine ⟨⟨?_, ?_⟩, ihe.left, ihe.right, haround⟩
      · exact silent_append.mpr ⟨ihc.silent, silent_append.mpr ⟨iht.silent, ihe.silent⟩⟩
      · intro hseen' Γ hcovers hfinished
        obtain ⟨hseenCondition', hseenBranches'⟩ := seen_append.mp hseen'
        obtain ⟨hseenThen', hseenElse'⟩ := seen_append.mp hseenBranches'
        exact .ifElse (ihc.alike hseenCondition' Γ hcovers hfinished)
          ((declared?_numbered _ _).trans hdeclaredThen)
          (iht.alike hseenThen' Γ hcovers hfinished)
          ((declared?_numbered _ _).trans hdeclaredElse)
          (ihe.alike hseenElse' Γ hcovers hfinished)
  | .print inner, hinner, hseen, hgood, k' => by
      rw [Stmt.numbered, stmt_print] at hseen
      rw [Stmt.relabel, Stmt.numbered, Stmt.numbered, stmt_print, stmt_print]
      have ih := expr_alike hg haround (shows_scopes Δ) (shows_scopes Δ) inner hinner hseen hgood k'
      refine ⟨⟨ih.silent, ?_⟩, expr_scopes _ _ _, expr_scopes _ _ _, haround⟩
      exact fun hseen' Γ hcovers hfinished => .print (ih.alike hseen' Γ hcovers hfinished)
  | .ret keyword value, hvalue, hseen, hgood, k' => by
      rw [Stmt.numbered, stmt_ret] at hseen
      rw [Stmt.relabel, Stmt.numbered, Stmt.numbered, stmt_ret, stmt_ret]
      obtain ⟨hseenReturn, hseenValue⟩ := seen_append.mp hseen
      have hreturn := silent_checkReturn.mp hseenReturn.silent
      have ih := optionalExpr_alike hg haround (shows_scopes Δ) (shows_scopes Δ) hvalue
        hseenValue hgood k'
      refine ⟨⟨silent_append.mpr ⟨silent_checkReturn.mpr ?_, ih.silent⟩, ?_⟩, rfl, rfl, haround⟩
      · rw [Expr.isSome_optionalNumbered] at hreturn
        rw [Expr.isSome_optionalNumbered, Option.isSome_map]
        exact hreturn
      · intro hseen' Γ hcovers hfinished
        rw [hreturn.1]
        exact .ret (ih.alike (seen_append.mp hseen').2 Γ hcovers hfinished)
  | .varDecl name initial, ⟨hname, hinitial⟩, hseen, hgood, k' => by
      have hleft : (scopes id Δ).finished name.lexeme = scopes id (declare ⟨name, true⟩ Δ) :=
        scopes_finished id ⟨name, true⟩ hplace
      have hright : (scopes g Δ).finished (g name).lexeme = scopes g (declare ⟨name, true⟩ Δ) :=
        scopes_finished g ⟨name, true⟩ hplace
      rw [Stmt.numbered, stmt_varDecl, hleft] at hseen
      rw [Stmt.relabel, Stmt.numbered, Stmt.numbered, stmt_varDecl, stmt_varDecl, hleft, hright]
      obtain ⟨hseenName, hseenInitial⟩ := seen_append.mp hseen
      obtain ⟨hgoodName, hgoodInitial⟩ := allGood_append.mp hgood
      obtain ⟨hsilentName', haround', _⟩ :=
        declare_relabelled (δ := ⟨name, true⟩) hplace haround hname hseenName.silent hgoodName
      have ih := optionalExpr_alike hg haround' (shows_pending hplace) (shows_pending hplace)
        hinitial hseenInitial hgoodInitial k'
      refine ⟨⟨silent_append.mpr ⟨hsilentName', ih.silent⟩, ?_⟩, rfl, rfl, haround'⟩
      intro hseen' Γ hcovers hfinished
      exact .varDecl (declares_relabelled hplace hgoodName hcovers)
        (ih.alike (seen_append.mp hseen').2 Γ hcovers hfinished.pending)
  | .whileLoop condition body, ⟨hcondition, hdeclared, hbody⟩, hseen, hgood, k' => by
      rw [Stmt.numbered, stmt_whileLoop] at hseen
      rw [Stmt.relabel, Stmt.numbered, Stmt.numbered, stmt_whileLoop, stmt_whileLoop]
      obtain ⟨hseenCondition, hseenBody⟩ := seen_append.mp hseen
      obtain ⟨hgoodCondition, hgoodBody⟩ := allGood_append.mp hgood
      have ihc := expr_alike hg haround (shows_scopes Δ) (shows_scopes Δ) condition hcondition
        hseenCondition hgoodCondition k'
      have ihb := stmt_alike hg ctx Δ hplace haround body hbody hseenBody hgoodBody
        (k' + (condition.relabel g).places)
      rw [after_of_declared? hdeclared] at ihb
      refine ⟨⟨silent_append.mpr ⟨ihc.silent, ihb.silent⟩, ?_⟩, ihb.left, ihb.right, haround⟩
      intro hseen' Γ hcovers hfinished
      obtain ⟨hseenCondition', hseenBody'⟩ := seen_append.mp hseen'
      exact .whileLoop (ihc.alike hseenCondition' Γ hcovers hfinished)
        ((declared?_numbered _ _).trans hdeclared) (ihb.alike hseenBody' Γ hcovers hfinished)

theorem stmts_alike (hg : Relates sides known p g) (ctx : Context) (Δ : List Layer)
    (hplace : Place Δ) (haround : Around p g ctx.cls Δ) {k : NodeId} :
    (ss : List Stmt) → Stmt.AllWellFormed p ss →
      Seen sides.sees (stmts leave ctx (Stmt.allNumbered k ss) (scopes id Δ)).findings →
      AllGood p g (stmtsVisits known Δ (Stmt.allNumbered k ss)) → ∀ k',
      Proceeds sides p g ctx.cls Δ (afterAll Δ ss)
        (fun Γ => AlikeStmts sides (ctx.function != .none) Γ (Stmt.allNumbered k ss)
          (Stmt.allNumbered k' (Stmt.relabels g ss)))
        (stmts leave ctx (Stmt.allNumbered k ss) (scopes id Δ))
        (stmts leave ctx (Stmt.allNumbered k' (Stmt.relabels g ss)) (scopes g Δ))
  | [], _, _, _, _ => by
      rw [Stmt.relabels, Stmt.allNumbered, Stmt.allNumbered, stmts]
      exact ⟨⟨silent_nil, fun _ _ _ _ => .nil⟩, rfl, rfl, haround⟩
  | s :: ss, ⟨hs, hss⟩, hseen, hgood, k' => by
      rw [Stmt.allNumbered] at hseen
      obtain ⟨hgoodFirst, hgoodRest⟩ := allGood_append.mp hgood
      rw [after_numbered] at hgoodRest
      have hseenFirst :
          Seen sides.sees (stmt leave ctx (s.numbered k) (scopes id Δ)).findings := by
        rw [stmts_cons rfl] at hseen
        exact (seen_append.mp hseen).1
      have ih := stmt_alike hg ctx Δ hplace haround s hs hseenFirst hgoodFirst k'
      rw [stmts_cons ih.left] at hseen
      rw [Stmt.relabels, Stmt.allNumbered, Stmt.allNumbered, stmts_cons ih.left,
        stmts_cons ih.right]
      have ihs := stmts_alike hg ctx (after s Δ) (hplace.after s) ih.around ss hss
        (seen_append.mp hseen).2 hgoodRest (k' + (s.relabel g).places)
      refine ⟨⟨silent_append.mpr ⟨ih.silent, ihs.silent⟩, ?_⟩, ihs.left, ihs.right, ihs.around⟩
      intro hseen' Γ hcovers hfinished
      obtain ⟨hseenFirst', hseenRest'⟩ := seen_append.mp hseen'
      have hcoversFirst : Covers g (Binding.after s Δ) Γ := Covers.of_afterAll hcovers
      refine .cons (ih.alike hseenFirst' Γ hcoversFirst hfinished) ?_
      rw [Lexical.after, declared?_numbered, ← Lexical.after]
      exact ihs.alike hseenRest' _ (Covers.after hcovers s)
        (hfinished.after (Covers.of_after hcoversFirst) s)

theorem function_alike (hg : Relates sides known p g) (ctx : Context) (kind : FunctionKind)
    (hkind : kind ≠ .none) (Δ : List Layer) (haround : Around p g ctx.cls Δ) {k : NodeId} :
    (f : Function) → f.WellFormed p → (g f.name).lexeme = f.name.lexeme →
      Seen sides.sees (function leave ctx kind (f.numbered k) (scopes id Δ)).findings →
      AllGood p g (functionVisits known Δ (f.numbered k)) → ∀ k',
      ResolvesAlike sides g none Δ Δ
        (fun Γ => AlikeFunction sides Γ (f.numbered k) ((f.relabel g).numbered k'))
        (function leave ctx kind ((f.relabel g).numbered k') (scopes g Δ))
  | ⟨name, params, body⟩, ⟨_, hparams, hbody⟩, hname, hseen, hgood, k' => by
      rw [Function.numbered] at hseen
      obtain ⟨hgoodParams, hgoodBody⟩ := allGood_append.mp hgood
      have hseenParams : Seen sides.sees
          (declareAll params (scopes id (.names [] :: Δ))).findings := by
        rw [function_mk rfl] at hseen
        exact (seen_append.mp hseen).1
      have hdeclared : Proceeds sides p g _ _ _ _ _ _ := declareAll_relabelled params []
        haround.cons_empty hparams hseenParams.silent hgoodParams
      have hleft : (declareAll params ([] :: scopes id Δ)).scopes =
          scopes id (.names (parameters [] params) :: Δ) := hdeclared.left
      have hright : (declareAll (params.map g) ([] :: scopes g Δ)).scopes =
          scopes g (.names (parameters [] params) :: Δ) := hdeclared.right
      rw [function_mk hleft] at hseen
      rw [Function.relabel, Function.numbered, Function.numbered, function_mk hright]
      have ih := stmts_alike hg { ctx with function := kind } _ (.scope _ _) hdeclared.around body
        hbody (seen_append.mp hseen).2 hgoodBody k'
      have hbound : ∀ δ ∈ parameters [] params, δ.name.lexeme ∈ params.map Token.lexeme := by
        intro δ hδ
        rcases (mem_parameters params []).mp hδ with hnone | ⟨t, ht, rfl⟩
        · cases hnone
        · exact List.mem_map_of_mem ht
      rcases ih.within (· ∈ params.map Token.lexeme) hbound with ⟨naming, hpairs, halike⟩
      refine ⟨silent_append.mpr ⟨hdeclared.silent, ih.silent⟩, ?_⟩
      intro hseen' Γ hcovers hfinished
      refine .mk naming hname ?_ ?_
      · rw [List.forall₂_map_right_iff, List.forall₂_same]
        exact fun t ht => hpairs ⟨t, true⟩ ((mem_parameters params []).mpr (Or.inr ⟨t, ht, rfl⟩))
      · have hinFunction : (kind != .none) = true := by simpa using hkind
        rw [← hinFunction]
        exact halike (seen_append.mp hseen').2 Γ hcovers hfinished

theorem functions_alike (hg : Relates sides known p g) (ctx : Context) (Δ : List Layer)
    (haround : Around p g ctx.cls Δ) {k : NodeId} :
    (fs : List Function) → Function.AllWellFormed p fs →
      Seen sides.sees (functions leave ctx (Function.allNumbered k fs) (scopes id Δ)).findings →
      AllGood p g (methodsVisits known Δ (Function.allNumbered k fs)) → ∀ k',
      ResolvesAlike sides g none Δ Δ
        (fun Γ => AlikeMethods sides Γ (Function.allNumbered k fs)
          (Function.allNumbered k' (Function.relabels g fs)))
        (functions leave ctx (Function.allNumbered k' (Function.relabels g fs)) (scopes g Δ))
  | [], _, _, _, _ => by
      rw [Function.relabels, Function.allNumbered, Function.allNumbered, functions]
      exact ⟨silent_nil, fun _ _ _ _ => .nil⟩
  | f :: fs, ⟨hf, hfs⟩, hseen, hgood, k' => by
      rw [Function.allNumbered, functions_cons] at hseen
      obtain ⟨hgoodFirst, hgoodRest⟩ := allGood_append.mp hgood
      obtain ⟨hkept, hgoodBody⟩ := allGood_cons.mp hgoodFirst
      rw [Good, Function.name_numbered] at hkept
      have hkind : methodKind ((f.relabel g).numbered k') = methodKind (f.numbered k) := by
        apply methodKind_eq
        rw [Function.name_numbered, Function.name_numbered, name_relabel, hkept]
      rw [Function.relabels, Function.allNumbered, Function.allNumbered, functions_cons, hkind]
      have ih := function_alike hg ctx (methodKind (f.numbered k)) (methodKind_ne_none _) Δ
        haround f hf hkept (seen_append.mp hseen).1 hgoodBody k'
      have ihs := functions_alike hg ctx Δ haround fs hfs (seen_append.mp hseen).2 hgoodRest
        (k' + (f.relabel g).places)
      refine ⟨silent_append.mpr ⟨ih.silent, ihs.silent⟩, ?_⟩
      intro hseen' Γ hcovers hfinished
      obtain ⟨hseenFirst', hseenRest'⟩ := seen_append.mp hseen'
      exact .cons (ih.alike hseenFirst' Γ hcovers hfinished)
        (ihs.alike hseenRest' Γ hcovers hfinished)

end

/-!
# Programs
-/

theorem resolve_alike (hg : Relates sides known p g) {program : List Stmt}
    (hprogram : Stmt.AllWellFormed p program) {k : NodeId}
    (hseen : Seen sides.sees (resolve (Stmt.allNumbered k program)).findings)
    (hgood : AllGood p g (stmtsVisits known [] (Stmt.allNumbered k program))) (k' : NodeId) :
    Silent (resolve (Stmt.allNumbered k' (Stmt.relabels g program))).findings ∧
      (Seen sides.sees' (resolve (Stmt.allNumbered k' (Stmt.relabels g program))).findings →
        AlikeStmts sides false [] (Stmt.allNumbered k program)
          (Stmt.allNumbered k' (Stmt.relabels g program))) := by
  have haround : Around p g ({} : Context).cls [] := ⟨by simp [LayersNamed], by simp, by simp⟩
  have halike := stmts_alike hg {} [] .outermost haround program hprogram hseen hgood k'
  refine ⟨halike.silent, ?_⟩
  intro hseen'
  have htop : afterAll [] program = [] := by
    clear halike hgood hseen hseen' hprogram
    induction program with
    | nil => rfl
    | cons s program ih =>
        have hafter : Binding.after s [] = [] := by
          rw [Binding.after]
          cases s.declaration? <;> rfl
        rw [afterAll, hafter, ih]
  apply halike.alike hseen'
  · rw [htop]
    exact .nil
  · intro depth declared naming bound hlayer
    cases hlayer

theorem allGood_of_lexeme (hlexeme : ∀ t, (g t).lexeme = t.lexeme) (visits : List Visit) :
    AllGood p g visits := by
  have hundeclared : ∀ {name : String} {Δ : List Layer}, Undeclared id name Δ →
      Undeclared g name Δ := by
    intro name Δ hname layer hlayer δ hδ
    rw [hlexeme]
    exact hname layer hlayer δ hδ
  intro visit _
  match visit with
  | .declare δ earlier =>
      intro _ _ hnew
      refine ⟨?_, fun _ => hlexeme δ.name⟩
      intro ε hε
      rw [hlexeme, hlexeme]
      exact hnew ε hε
  | .refer name none Δ =>
      intro _ _ hname
      rw [hlexeme]
      exact ⟨rfl, hundeclared hname⟩
  | .refer name (some depth) Δ =>
      intro _ _ hname layer _ δ _ hsame
      rw [hlexeme, hlexeme]
      exact ⟨hsame.symm, hundeclared hname⟩
  | .keep name => exact hlexeme name

end Binding
end Lox
