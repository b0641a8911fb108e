import Lox.Proofs.Binding.Reference
import Lox.Proofs.Syntax.Relabel

/-!
# Resolving relabelled expressions

Expressions leave the scopes alone.  If all names of an expression are treated
well, the relabelled expression resolves without violations, and the two are alike
for those who see at the nodes what was found.
-/

namespace Lox
namespace Binding

open Lexical Resolve

/-!
# Relabelled expressions
-/

/--
A relabelled tree resolves without violations.  If what is found in it is seen, the
two trees are alike under all frames that match the layers around them.
-/
structure ResolvesAlike (sides : Sides) (g : Token → Token) (current : Option Declaration)
    (Δ Δ₁ : List Layer) (alike : List Frame → Prop) (r' : Resolution Unit) : Prop where
  silent : Silent r'.findings
  alike : Seen sides.sees' r'.findings → ∀ Γ, Covers g Δ₁ Γ → Finished current Δ Γ → alike Γ

section

variable {sides : Sides} {known : NodeId → Option Nat} {p : Token → Prop} {g : Token → Token}
variable {ctx : Context} {current : Option Declaration} {Δ : List Layer} {S S' : Scopes}
variable (hg : Relates sides known p g) (haround : Around p g ctx.cls Δ)
variable (hshows : Shows id current Δ S) (hshows' : Shows g current Δ S')

theorem ne_identifier_of_mem {kind : TokenKind}
    (hmem : kind ∈ binaryOperators ∨ kind ∈ unaryOperators) : kind ≠ .identifier := by
  rintro rfl
  revert hmem
  decide

include hg

theorem sameToken_of_kind {token : Token} (hkind : token.kind ≠ .identifier) (hp : p token) :
    SameToken sides token (g token) :=
  ⟨hg.kind token, hg.lexeme token hkind, hg.related token hp⟩

theorem sameToken_of_keep {token : Token} (hnamed : token.Named p)
    (hgood : Good p g (.keep token)) : SameToken sides token (g token) :=
  ⟨hg.kind token, hgood, hg.related token hnamed.2⟩

include haround hshows hshows'

theorem variableReference_alike {name : Token} {node : NodeId} (hname : name.Named p)
    (hseen : Seen sides.sees (variableReference ⟨name, node⟩ S).findings)
    (hgood : Good p g (.refer name (known node) Δ)) (node' : NodeId) :
    ResolvesAlike sides g current Δ Δ
      (fun Γ => Refers sides Γ true ⟨name, node⟩ ⟨g name, node'⟩)
      (variableReference ⟨g name, node'⟩ S') := by
  have hsees := sees_of_variableReference hseen
  have hfinished := silent_variableReference.mp hseen.silent
  rw [hg.known hsees] at hgood
  constructor
  · apply silent_variableReference.mpr
    exact unfinishedHere_relabelled hg haround hshows hshows' hname hgood hfinished
  · intro hseen' Γ hcovers hnames
    apply refers_relabelled hg haround hshows hshows' hname hgood hsees
      (sees_of_variableReference hseen') _ hcovers hnames
    intro _ ε hε hlexeme
    have hcurrent := (hshows.unfinished _).mpr ⟨ε, hε, hlexeme⟩
    rw [hfinished] at hcurrent
    cases hcurrent

theorem thisReference_alike {keyword : Token} {node node' : NodeId}
    (hkind : keyword.kind = .kwThis) (hp : p keyword)
    (hseen : Seen sides.sees (thisReference ctx ⟨keyword, node⟩ S).findings) :
    ResolvesAlike sides g current Δ Δ
      (fun Γ => AlikeExpr sides Γ (.thisRef ⟨keyword, node⟩) (.thisRef ⟨g keyword, node'⟩))
      (thisReference ctx ⟨g keyword, node'⟩ S') := by
  have hlexeme := hg.this keyword hp hkind
  have hlexeme' : (g keyword).lexeme = "this" := by
    rw [hg.lexeme keyword (by rw [hkind]; decide), hlexeme]
  have hcls : ctx.cls ≠ .none := by
    intro hnone
    have hsilent := hseen.silent
    simp [thisReference, hnone, Finding.diagnostic?] at hsilent
  rcases haround.inClass hcls with ⟨depth, hthis, hlayers, _⟩
  have hdepth : S.depth? "this" = some depth :=
    depth?_this hshows (fun layer hl δ hδ => (hg.plain _ (haround.named layer hl δ hδ)).1)
      hthis hlayers
  have hdepth' : S'.depth? "this" = some depth :=
    depth?_this hshows' (fun layer hl δ hδ => (hg.plain _ (haround.named layer hl δ hδ)).2)
      hthis hlayers
  have href : ∀ (r : Reference) (T : Scopes), thisReference ctx r T = reference .this r T := by
    intro r T
    rcases ctx with ⟨_, _ | _ | _⟩
    · exact absurd rfl hcls
    · rfl
    · rfl
  rw [href] at hseen ⊢
  refine ⟨(reference_apply _ _ _).2, ?_⟩
  intro hseen' Γ hcovers _
  have hsees := seen_reference.mp hseen
  have hsees' := seen_reference.mp hseen'
  rw [hlexeme, hdepth] at hsees
  rw [hlexeme', hdepth'] at hsees'
  exact .thisRef hsees hsees' hlexeme hlexeme' (hcovers.namesWithin hlayers) (hcovers.this hthis)

theorem superReference_alike {keyword method : Token} {node node' : NodeId}
    (hkind : keyword.kind = .kwSuper) (hp : p keyword)
    (hmethod : SameToken sides method (g method))
    (hseen : Seen sides.sees (superReference ctx ⟨keyword, node⟩ S).findings) :
    ResolvesAlike sides g current Δ Δ
      (fun Γ => AlikeExpr sides Γ (.superRef ⟨keyword, node⟩ method)
        (.superRef ⟨g keyword, node'⟩ (g method)))
      (superReference ctx ⟨g keyword, node'⟩ S') := by
  have hlexeme := hg.super keyword hp hkind
  have hlexeme' : (g keyword).lexeme = "super" := by
    rw [hg.lexeme keyword (by rw [hkind]; decide), hlexeme]
  have hsilent := hseen.silent
  have hcls : ctx.cls = .subclass := by
    cases hctx : ctx.cls with
    | none => simp [superReference, hctx, Finding.diagnostic?] at hsilent
    | plain => simp [superReference, hctx, Finding.diagnostic?] at hsilent
    | subclass => rfl
  rcases haround.inClass (by rw [hcls]; decide) with ⟨depth, hthis, hlayers, hsuper⟩
  have hdepth : S.depth? "super" = some (depth + 1) :=
    depth?_super hshows (fun layer hl δ hδ => (hg.plain _ (haround.named layer hl δ hδ)).1)
      hthis hlayers (hsuper hcls)
  have hdepth' : S'.depth? "super" = some (depth + 1) :=
    depth?_super hshows' (fun layer hl δ hδ => (hg.plain _ (haround.named layer hl δ hδ)).2)
      hthis hlayers (hsuper hcls)
  have href : ∀ (r : Reference) (T : Scopes),
      superReference ctx r T = reference .super r T := by
    intro r T
    rw [superReference, hcls]
    rfl
  rw [href] at hseen ⊢
  refine ⟨(reference_apply _ _ _).2, ?_⟩
  intro hseen' Γ hcovers _
  have hsees := seen_reference.mp hseen
  have hsees' := seen_reference.mp hseen'
  rw [hlexeme, hdepth] at hsees
  rw [hlexeme', hdepth'] at hsees'
  exact .superRef hsees hsees' (hcovers.namesWithin hlayers) (hcovers.this hthis)
    (hcovers.super (hsuper hcls)) hmethod

end

section

variable {sides : Sides} {known : NodeId → Option Nat} {p : Token → Prop} {g : Token → Token}
variable {ctx : Context} {current : Option Declaration} {Δ : List Layer} {S S' : Scopes}

mutual

theorem expr_alike (hg : Relates sides known p g) (haround : Around p g ctx.cls Δ)
    (hshows : Shows id current Δ S) (hshows' : Shows g current Δ S') {k : NodeId} :
    (e : Expr) → e.WellFormed p → Seen sides.sees (expr leave ctx (e.numbered k) S).findings →
      AllGood p g (exprVisits known Δ (e.numbered k)) →
      ∀ k', ResolvesAlike sides g current Δ Δ
        (fun Γ => AlikeExpr sides Γ (e.numbered k) ((e.relabel g).numbered k'))
        (expr leave ctx ((e.relabel g).numbered k') S')
  | .assign target value, ⟨htarget, hvalue⟩, hseen, hgood, k' => by
      rw [Expr.numbered, expr_assign] at hseen
      rw [Expr.relabel, Expr.numbered, Expr.numbered, expr_assign]
      obtain ⟨hseenValue, hseenTarget⟩ := seen_append.mp hseen
      obtain ⟨hgoodValue, hgoodTarget⟩ := allGood_append.mp hgood
      have ih := expr_alike hg haround hshows hshows' value hvalue hseenValue hgoodValue
      refine ⟨silent_append.mpr ⟨(ih _).silent, (reference_apply _ _ _).2⟩, ?_⟩
      intro hseen' Γ hcovers hnames
      obtain ⟨hseenValue', hseenTarget'⟩ := seen_append.mp hseen'
      have hsees := seen_reference.mp hseenTarget
      have hgoodTarget := (allGood_cons.mp hgoodTarget).1
      rw [referenceVisit, hg.known hsees] at hgoodTarget
      refine .assign ?_ ((ih _).alike hseenValue' Γ hcovers hnames)
      exact refers_relabelled hg haround hshows hshows' htarget hgoodTarget hsees
        (seen_reference.mp hseenTarget') (fun hreading => Bool.noConfusion hreading) hcovers hnames
  | .binary left operator right, ⟨hoperator, hp, hleft, hright⟩, hseen, hgood, k' => by
      rw [Expr.numbered, expr_binary] at hseen
      rw [Expr.relabel, Expr.numbered, Expr.numbered, expr_binary]
      obtain ⟨hseenLeft, hseenRight⟩ := seen_append.mp hseen
      obtain ⟨hgoodLeft, hgoodRight⟩ := allGood_append.mp hgood
      have ihl := expr_alike hg haround hshows hshows' left hleft hseenLeft hgoodLeft
      have ihr := expr_alike hg haround hshows hshows' right hright hseenRight hgoodRight
      refine ⟨silent_append.mpr ⟨(ihl _).silent, (ihr _).silent⟩, ?_⟩
      intro hseen' Γ hcovers hnames
      obtain ⟨hseenLeft', hseenRight'⟩ := seen_append.mp hseen'
      have hsame := sameToken_of_kind hg (ne_identifier_of_mem (Or.inl hoperator)) hp
      exact .binary hoperator hsame ((ihl _).alike hseenLeft' Γ hcovers hnames)
        ((ihr _).alike hseenRight' Γ hcovers hnames)
  | .call callee paren arguments, ⟨hparen, hp, hcallee, harguments⟩, hseen, hgood, k' => by
      rw [Expr.numbered, expr_call] at hseen
      rw [Expr.relabel, Expr.numbered, Expr.numbered, expr_call]
      obtain ⟨hseenCallee, hseenArguments⟩ := seen_append.mp hseen
      obtain ⟨hgoodCallee, hgoodArguments⟩ := allGood_append.mp hgood
      have ihc := expr_alike hg haround hshows hshows' callee hcallee hseenCallee hgoodCallee
      have iha := exprs_alike hg haround hshows hshows' arguments harguments hseenArguments
        hgoodArguments
      refine ⟨silent_append.mpr ⟨(ihc _).silent, (iha _).silent⟩, ?_⟩
      intro hseen' Γ hcovers hnames
      obtain ⟨hseenCallee', hseenArguments'⟩ := seen_append.mp hseen'
      have hsame := sameToken_of_kind hg (by rw [hparen]; decide) hp
      exact .call hsame ((ihc _).alike hseenCallee' Γ hcovers hnames)
        ((iha _).alike hseenArguments' Γ hcovers hnames)
  | .conditional condition thenBranch elseBranch, ⟨hcondition, hthen, helse⟩, hseen, hgood, k' => by
      rw [Expr.numbered, expr_conditional] at hseen
      rw [Expr.relabel, Expr.numbered, Expr.numbered, expr_conditional]
      obtain ⟨hseenCondition, hseenBranches⟩ := seen_append.mp hseen
      obtain ⟨hseenThen, hseenElse⟩ := seen_append.mp hseenBranches
      obtain ⟨hgoodFirst, hgoodElse⟩ := allGood_append.mp hgood
      obtain ⟨hgoodCondition, hgoodThen⟩ := allGood_append.mp hgoodFirst
      have ihc := expr_alike hg haround hshows hshows' condition hcondition hseenCondition
        hgoodCondition
      have iht := expr_alike hg haround hshows hshows' thenBranch hthen hseenThen hgoodThen
      have ihe := expr_alike hg haround hshows hshows' elseBranch helse hseenElse hgoodElse
      refine ⟨silent_append.mpr ⟨(ihc _).silent, silent_append.mpr
        ⟨(iht _).silent, (ihe _).silent⟩⟩, ?_⟩
      intro hseen' Γ hcovers hnames
      obtain ⟨hseenCondition', hseenBranches'⟩ := seen_append.mp hseen'
      obtain ⟨hseenThen', hseenElse'⟩ := seen_append.mp hseenBranches'
      exact .conditional ((ihc _).alike hseenCondition' Γ hcovers hnames)
        ((iht _).alike hseenThen' Γ hcovers hnames) ((ihe _).alike hseenElse' Γ hcovers hnames)
  | .get object name, ⟨hname, hobject⟩, hseen, hgood, k' => by
      rw [Expr.numbered, expr_get] at hseen
      rw [Expr.relabel, Expr.numbered, Expr.numbered, expr_get]
      obtain ⟨hgoodObject, hgoodName⟩ := allGood_append.mp hgood
      have ih := expr_alike hg haround hshows hshows' object hobject hseen hgoodObject
      refine ⟨(ih _).silent, ?_⟩
      intro hseen' Γ hcovers hnames
      have hsame := sameToken_of_keep hg hname (allGood_cons.mp hgoodName).1
      exact .get hsame ((ih _).alike hseen' Γ hcovers hnames)
  | .grouping inner, hinner, hseen, hgood, k' => by
      rw [Expr.numbered, expr_grouping] at hseen
      rw [Expr.relabel, Expr.numbered, Expr.numbered, expr_grouping]
      have ih := expr_alike hg haround hshows hshows' inner hinner hseen hgood
      refine ⟨(ih _).silent, ?_⟩
      exact fun hseen' Γ hcovers hnames => .grouping ((ih _).alike hseen' Γ hcovers hnames)
  | .literal value, _, _, _, _ => by
      rw [Expr.relabel, Expr.numbered, Expr.numbered, expr]
      exact ⟨silent_nil, fun _ _ _ _ => .literal value⟩
  | .logical left operator right, ⟨hoperator, hp, hleft, hright⟩, hseen, hgood, k' => by
      rw [Expr.numbered, expr_logical] at hseen
      rw [Expr.relabel, Expr.numbered, Expr.numbered, expr_logical]
      obtain ⟨hseenLeft, hseenRight⟩ := seen_append.mp hseen
      obtain ⟨hgoodLeft, hgoodRight⟩ := allGood_append.mp hgood
      have ihl := expr_alike hg haround hshows hshows' left hleft hseenLeft hgoodLeft
      have ihr := expr_alike hg haround hshows hshows' right hright hseenRight hgoodRight
      refine ⟨silent_append.mpr ⟨(ihl _).silent, (ihr _).silent⟩, ?_⟩
      intro hseen' Γ hcovers hnames
      obtain ⟨hseenLeft', hseenRight'⟩ := seen_append.mp hseen'
      have hsame := sameToken_of_kind hg hoperator hp
      exact .logical hsame ((ihl _).alike hseenLeft' Γ hcovers hnames)
        ((ihr _).alike hseenRight' Γ hcovers hnames)
  | .set object name value, ⟨hname, hobject, hvalue⟩, hseen, hgood, k' => by
      rw [Expr.numbered, expr_set] at hseen
      rw [Expr.relabel, Expr.numbered, Expr.numbered, expr_set]
      obtain ⟨hseenValue, hseenObject⟩ := seen_append.mp hseen
      obtain ⟨hgoodTrees, hgoodName⟩ := allGood_append.mp hgood
      obtain ⟨hgoodValue, hgoodObject⟩ := allGood_append.mp hgoodTrees
      have ihv := expr_alike hg haround hshows hshows' value hvalue hseenValue hgoodValue
      have iho := expr_alike hg haround hshows hshows' object hobject hseenObject hgoodObject
      refine ⟨silent_append.mpr ⟨(ihv _).silent, (iho _).silent⟩, ?_⟩
      intro hseen' Γ hcovers hnames
      obtain ⟨hseenValue', hseenObject'⟩ := seen_append.mp hseen'
      have hsame := sameToken_of_keep hg hname (allGood_cons.mp hgoodName).1
      exact .set hsame ((iho _).alike hseenObject' Γ hcovers hnames)
        ((ihv _).alike hseenValue' Γ hcovers hnames)
  | .superRef keyword method, ⟨hkeyword, hp, hmethod⟩, hseen, hgood, k' => by
      rw [Expr.numbered, expr_superRef] at hseen
      rw [Expr.relabel, Expr.numbered, Expr.numbered, expr_superRef]
      have hsame := sameToken_of_keep hg hmethod (allGood_cons.mp hgood).1
      exact superReference_alike hg haround hshows hshows' hkeyword hp hsame hseen
  | .thisRef keyword, ⟨hkeyword, hp⟩, hseen, _, k' => by
      rw [Expr.numbered, expr_thisRef] at hseen
      rw [Expr.relabel, Expr.numbered, Expr.numbered, expr_thisRef]
      exact thisReference_alike hg haround hshows hshows' hkeyword hp hseen
  | .unary operator right, ⟨hoperator, hp, hright⟩, hseen, hgood, k' => by
      rw [Expr.numbered, expr_unary] at hseen
      rw [Expr.relabel, Expr.numbered, Expr.numbered, expr_unary]
      have ih := expr_alike hg haround hshows hshows' right hright hseen hgood
      refine ⟨(ih _).silent, ?_⟩
      intro hseen' Γ hcovers hnames
      have hsame := sameToken_of_kind hg (ne_identifier_of_mem (Or.inr hoperator)) hp
      exact .unary hoperator hsame ((ih _).alike hseen' Γ hcovers hnames)
  | .var name, hname, hseen, hgood, k' => by
      rw [Expr.numbered, expr_var] at hseen
      rw [Expr.relabel, Expr.numbered, Expr.numbered, expr_var]
      have hvar := variableReference_alike hg haround hshows hshows' hname hseen
        (allGood_cons.mp hgood).1 k'
      exact ⟨hvar.silent, fun hseen' Γ hcovers hnames => .var (hvar.alike hseen' Γ hcovers hnames)⟩

theorem exprs_alike (hg : Relates sides known p g) (haround : Around p g ctx.cls Δ)
    (hshows : Shows id current Δ S) (hshows' : Shows g current Δ S') {k : NodeId} :
    (es : List Expr) → Expr.AllWellFormed p es →
      Seen sides.sees (exprs leave ctx (Expr.allNumbered k es) S).findings →
      AllGood p g (exprsVisits known Δ (Expr.allNumbered k es)) →
      ∀ k', ResolvesAlike sides g current Δ Δ
        (fun Γ => AlikeExprs sides Γ (Expr.allNumbered k es)
          (Expr.allNumbered k' (Expr.relabels g es)))
        (exprs leave ctx (Expr.allNumbered k' (Expr.relabels g es)) S')
  | [], _, _, _, _ => ⟨silent_nil, fun _ _ _ _ => .nil⟩
  | e :: es, ⟨he, hes⟩, hseen, hgood, k' => by
      rw [Expr.allNumbered, exprs_cons] at hseen
      rw [Expr.relabels, Expr.allNumbered, Expr.allNumbered, exprs_cons]
      obtain ⟨hseenFirst, hseenRest⟩ := seen_append.mp hseen
      obtain ⟨hgoodFirst, hgoodRest⟩ := allGood_append.mp hgood
      have ih := expr_alike hg haround hshows hshows' e he hseenFirst hgoodFirst
      have ihs := exprs_alike hg haround hshows hshows' es hes hseenRest hgoodRest
      refine ⟨silent_append.mpr ⟨(ih _).silent, (ihs _).silent⟩, ?_⟩
      intro hseen' Γ hcovers hnames
      obtain ⟨hseenFirst', hseenRest'⟩ := seen_append.mp hseen'
      exact .cons ((ih _).alike hseenFirst' Γ hcovers hnames)
        ((ihs _).alike hseenRest' Γ hcovers hnames)

end

theorem optionalExpr_alike (hg : Relates sides known p g) (haround : Around p g ctx.cls Δ)
    (hshows : Shows id current Δ S) (hshows' : Shows g current Δ S') {k : NodeId}
    {value : Option Expr} (hvalue : ∀ e ∈ value, Expr.WellFormed p e)
    (hseen : Seen sides.sees (optionalExpr leave ctx (Expr.optionalNumbered k value) S).findings)
    (hgood : AllGood p g (optionalVisits known Δ (Expr.optionalNumbered k value)))
    (k' : NodeId) :
    ResolvesAlike sides g current Δ Δ
      (fun Γ => AlikeOptional sides Γ (Expr.optionalNumbered k value)
        (Expr.optionalNumbered k' (value.map (Expr.relabel g))))
      (optionalExpr leave ctx (Expr.optionalNumbered k' (value.map (Expr.relabel g))) S') := by
  cases value with
  | none => exact ⟨silent_nil, fun _ _ _ _ => .none⟩
  | some e =>
      have he := expr_alike hg haround hshows hshows' e (hvalue e rfl) hseen hgood
      refine ⟨(he k').silent, ?_⟩
      exact fun hseen' Γ hcovers hnames => .some ((he k').alike hseen' Γ hcovers hnames)

end

end Binding
end Lox
