import Mathlib.Data.List.Forall2
import Lox.Evaluate
import Lox.Proofs.Syntax.WellFormed

/-!
# Trees that differ in the names of their locals

Two trees are alike if they have the same shape and the same distances at their
nodes, and if names that mean the same binding are paired.  What surrounds a tree
is described by frames, the innermost one in front: one for each environment that
the tree will find around it when it runs.

A frame of names has a naming, which pairs the names of the two trees one to
one, and it says which names are bound for certain when control gets there.  What
is seen at the nodes of the two sides, and where they can stop, is a parameter of
everything here.
-/

namespace Lox
namespace Lexical

/-!
# Frames
-/

structure Naming where
  pairs : String → String → Prop
  one_to_one : ∀ {a a' b b' : String}, pairs a a' → pairs b b' → (a = b ↔ a' = b')

namespace Naming

def same : Naming where
  pairs := Eq
  one_to_one := by
    intro a a' b b' ha hb
    rw [ha, hb]

end Naming

inductive Frame where
  | names (naming : Naming) (bound : String → Prop)
  | this
  | super

/-- The names that are bound for certain in the innermost frame, with one more. -/
def bind (name : String) : List Frame → List Frame
  | .names naming bound :: Γ => .names naming (fun other => other = name ∨ bound other) :: Γ
  | Γ => Γ

/-- The names that two declarations at this place may have; globals keep theirs. -/
def Declares (name name' : String) : List Frame → Prop
  | [] => name' = name
  | .names naming _ :: _ => naming.pairs name name'
  | _ => False

/-- The frames around the methods of a class that are not bound to a receiver. -/
def classFrames (subclass : Bool) (Γ : List Frame) : List Frame :=
  if subclass then .super :: Γ else Γ

def after (s : Stmt) (Γ : List Frame) : List Frame :=
  match s.declared? with
  | some name => bind name.lexeme Γ
  | none => Γ

/-- Between a place and a distance from it there are only frames of names. -/
def NamesWithin (Γ : List Frame) (depth : Nat) : Prop :=
  ∀ frame ∈ Γ.take depth, ∃ naming bound, frame = .names naming bound

/-!
# Expressions
-/

/--
What is seen at the nodes of two trees, which of their tokens are related, and by
what native functions may stop them.
-/
structure Sides where
  sees : NodeId → Option Nat → Prop
  sees' : NodeId → Option Nat → Prop
  related : Token → Token → Prop
  stops : Stop → Prop

section

variable (sides : Sides)

/-- References to one binding; it has to be bound if it is read. -/
inductive Refers (Γ : List Frame) (reading : Bool) : Reference → Reference → Prop where
  | global {r r' : Reference} :
      sides.sees r.node none → sides.sees' r'.node none →
      r'.name.lexeme = r.name.lexeme → sides.related r.name r'.name →
      Refers Γ reading r r'
  | local {r r' : Reference} {depth : Nat} {naming : Naming} {bound : String → Prop} :
      sides.sees r.node (some depth) → sides.sees' r'.node (some depth) →
      Γ[depth]? = some (.names naming bound) →
      naming.pairs r.name.lexeme r'.name.lexeme →
      (reading = true → bound r.name.lexeme) →
      Refers Γ reading r r'

structure SameToken (token token' : Token) : Prop where
  kind : token'.kind = token.kind
  lexeme : token'.lexeme = token.lexeme
  related : sides.related token token'

mutual

inductive AlikeExpr (Γ : List Frame) : Expr → Expr → Prop where
  | assign {target target' : Reference} {value value' : Expr} :
      Refers sides Γ false target target' → AlikeExpr Γ value value' →
      AlikeExpr Γ (.assign target value) (.assign target' value')
  | binary {left left' right right' : Expr} {operator operator' : Token} :
      operator.kind ∈ binaryOperators → SameToken sides operator operator' →
      AlikeExpr Γ left left' → AlikeExpr Γ right right' →
      AlikeExpr Γ (.binary left operator right) (.binary left' operator' right')
  | call {callee callee' : Expr} {paren paren' : Token} {arguments arguments' : List Expr} :
      SameToken sides paren paren' → AlikeExpr Γ callee callee' →
      AlikeExprs Γ arguments arguments' →
      AlikeExpr Γ (.call callee paren arguments) (.call callee' paren' arguments')
  | conditional {condition condition' thenBranch thenBranch' elseBranch elseBranch' : Expr} :
      AlikeExpr Γ condition condition' → AlikeExpr Γ thenBranch thenBranch' →
      AlikeExpr Γ elseBranch elseBranch' →
      AlikeExpr Γ (.conditional condition thenBranch elseBranch)
        (.conditional condition' thenBranch' elseBranch')
  | get {object object' : Expr} {name name' : Token} :
      SameToken sides name name' → AlikeExpr Γ object object' →
      AlikeExpr Γ (.get object name) (.get object' name')
  | grouping {inner inner' : Expr} :
      AlikeExpr Γ inner inner' → AlikeExpr Γ (.grouping inner) (.grouping inner')
  | literal (value : Literal) : AlikeExpr Γ (.literal value) (.literal value)
  | logical {left left' right right' : Expr} {operator operator' : Token} :
      SameToken sides operator operator' →
      AlikeExpr Γ left left' → AlikeExpr Γ right right' →
      AlikeExpr Γ (.logical left operator right) (.logical left' operator' right')
  | set {object object' value value' : Expr} {name name' : Token} :
      SameToken sides name name' → AlikeExpr Γ object object' → AlikeExpr Γ value value' →
      AlikeExpr Γ (.set object name value) (.set object' name' value')
  | superRef {keyword keyword' : Reference} {method method' : Token} {depth : Nat} :
      sides.sees keyword.node (some (depth + 1)) → sides.sees' keyword'.node (some (depth + 1)) →
      NamesWithin Γ depth → Γ[depth]? = some .this → Γ[depth + 1]? = some .super →
      SameToken sides method method' →
      AlikeExpr Γ (.superRef keyword method) (.superRef keyword' method')
  | thisRef {keyword keyword' : Reference} {depth : Nat} :
      sides.sees keyword.node (some depth) → sides.sees' keyword'.node (some depth) →
      keyword.name.lexeme = "this" → keyword'.name.lexeme = "this" →
      NamesWithin Γ depth → Γ[depth]? = some .this →
      AlikeExpr Γ (.thisRef keyword) (.thisRef keyword')
  | unary {operator operator' : Token} {right right' : Expr} :
      operator.kind ∈ unaryOperators → SameToken sides operator operator' →
      AlikeExpr Γ right right' →
      AlikeExpr Γ (.unary operator right) (.unary operator' right')
  | var {name name' : Reference} :
      Refers sides Γ true name name' → AlikeExpr Γ (.var name) (.var name')

inductive AlikeExprs (Γ : List Frame) : List Expr → List Expr → Prop where
  | nil : AlikeExprs Γ [] []
  | cons {e e' : Expr} {es es' : List Expr} :
      AlikeExpr Γ e e' → AlikeExprs Γ es es' → AlikeExprs Γ (e :: es) (e' :: es')

end

inductive AlikeOptional (Γ : List Frame) : Option Expr → Option Expr → Prop where
  | none : AlikeOptional Γ none none
  | some {e e' : Expr} : AlikeExpr sides Γ e e' → AlikeOptional Γ (some e) (some e')

inductive AlikeParent (Γ : List Frame) : Option Reference → Option Reference → Prop where
  | none : AlikeParent Γ none none
  | some {parent parent' : Reference} :
      Refers sides Γ true parent parent' → sides.related parent.name parent'.name →
      AlikeParent Γ (some parent) (some parent')

/-!
# Statements

Statements that can return are only inside functions.
-/

mutual

inductive AlikeStmt : Bool → List Frame → Stmt → Stmt → Prop where
  | block {inFunction : Bool} {Γ : List Frame} (naming : Naming) {body body' : List Stmt} :
      AlikeStmts inFunction (.names naming (fun _ => False) :: Γ) body body' →
      AlikeStmt inFunction Γ (.block body) (.block body')
  | classDecl {inFunction : Bool} {Γ : List Frame} {name name' : Token}
      {parent parent' : Option Reference} {methods methods' : List Function} :
      Declares name.lexeme name'.lexeme Γ → name'.lexeme = name.lexeme →
      AlikeParent sides Γ parent parent' →
      AlikeMethods (.this :: classFrames parent.isSome (bind name.lexeme Γ)) methods methods' →
      AlikeStmt inFunction Γ (.classDecl name parent methods) (.classDecl name' parent' methods')
  | expression {inFunction : Bool} {Γ : List Frame} {inner inner' : Expr} :
      AlikeExpr sides Γ inner inner' →
      AlikeStmt inFunction Γ (.expression inner) (.expression inner')
  | funDecl {inFunction : Bool} {Γ : List Frame} {f f' : Function} :
      Declares f.name.lexeme f'.name.lexeme Γ →
      AlikeFunction (bind f.name.lexeme Γ) f f' →
      AlikeStmt inFunction Γ (.funDecl f) (.funDecl f')
  | ifThen {inFunction : Bool} {Γ : List Frame} {condition condition' : Expr}
      {thenBranch thenBranch' : Stmt} :
      AlikeExpr sides Γ condition condition' →
      thenBranch.declared? = none → AlikeStmt inFunction Γ thenBranch thenBranch' →
      AlikeStmt inFunction Γ (.ifElse condition thenBranch none)
        (.ifElse condition' thenBranch' none)
  | ifElse {inFunction : Bool} {Γ : List Frame} {condition condition' : Expr}
      {thenBranch thenBranch' elseBranch elseBranch' : Stmt} :
      AlikeExpr sides Γ condition condition' →
      thenBranch.declared? = none → AlikeStmt inFunction Γ thenBranch thenBranch' →
      elseBranch.declared? = none → AlikeStmt inFunction Γ elseBranch elseBranch' →
      AlikeStmt inFunction Γ (.ifElse condition thenBranch (some elseBranch))
        (.ifElse condition' thenBranch' (some elseBranch'))
  | print {inFunction : Bool} {Γ : List Frame} {inner inner' : Expr} :
      AlikeExpr sides Γ inner inner' →
      AlikeStmt inFunction Γ (.print inner) (.print inner')
  | ret {Γ : List Frame} {keyword keyword' : Token} {value value' : Option Expr} :
      AlikeOptional sides Γ value value' →
      AlikeStmt true Γ (.ret keyword value) (.ret keyword' value')
  | varDecl {inFunction : Bool} {Γ : List Frame} {name name' : Token}
      {initial initial' : Option Expr} :
      Declares name.lexeme name'.lexeme Γ → AlikeOptional sides Γ initial initial' →
      AlikeStmt inFunction Γ (.varDecl name initial) (.varDecl name' initial')
  | whileLoop {inFunction : Bool} {Γ : List Frame} {condition condition' : Expr}
      {body body' : Stmt} :
      AlikeExpr sides Γ condition condition' →
      body.declared? = none → AlikeStmt inFunction Γ body body' →
      AlikeStmt inFunction Γ (.whileLoop condition body) (.whileLoop condition' body')

inductive AlikeStmts : Bool → List Frame → List Stmt → List Stmt → Prop where
  | nil {inFunction : Bool} {Γ : List Frame} : AlikeStmts inFunction Γ [] []
  | cons {inFunction : Bool} {Γ : List Frame} {s s' : Stmt} {ss ss' : List Stmt} :
      AlikeStmt inFunction Γ s s' → AlikeStmts inFunction (after s Γ) ss ss' →
      AlikeStmts inFunction Γ (s :: ss) (s' :: ss')

/-- Functions with one name, whose parameters are paired in order. -/
inductive AlikeFunction : List Frame → Function → Function → Prop where
  | mk {Γ : List Frame} {name name' : Token} (naming : Naming) {params params' : List Token}
      {body body' : List Stmt} :
      name'.lexeme = name.lexeme →
      List.Forall₂ (fun p p' => naming.pairs p.lexeme p'.lexeme) params params' →
      AlikeStmts true (.names naming (· ∈ params.map Token.lexeme) :: Γ) body body' →
      AlikeFunction Γ ⟨name, params, body⟩ ⟨name', params', body'⟩

inductive AlikeMethods : List Frame → List Function → List Function → Prop where
  | nil {Γ : List Frame} : AlikeMethods Γ [] []
  | cons {Γ : List Frame} {f f' : Function} {fs fs' : List Function} :
      AlikeFunction Γ f f' → AlikeMethods Γ fs fs' → AlikeMethods Γ (f :: fs) (f' :: fs')

end

end

/-!
# Seeing more
-/

/-- The second sides see all that the first ones see, and relate all tokens that those relate. -/
structure Sides.Le (sides sides₁ : Sides) : Prop where
  sees : ∀ {node : NodeId} {depth : Option Nat}, sides.sees node depth → sides₁.sees node depth
  sees' : ∀ {node : NodeId} {depth : Option Nat},
    sides.sees' node depth → sides₁.sees' node depth
  related : ∀ {token token' : Token}, sides.related token token' → sides₁.related token token'
  stops : ∀ {stop : Stop}, sides.stops stop → sides₁.stops stop

section

variable {sides sides₁ : Sides} {Γ : List Frame}

theorem Refers.mono (hle : sides.Le sides₁) {reading : Bool} {r r' : Reference}
    (hrefers : Refers sides Γ reading r r') : Refers sides₁ Γ reading r r' := by
  cases hrefers with
  | global hsees hsees' hlexeme hrelated =>
      exact .global (hle.sees hsees) (hle.sees' hsees') hlexeme (hle.related hrelated)
  | «local» hsees hsees' hframe hname hbound =>
      exact .local (hle.sees hsees) (hle.sees' hsees') hframe hname hbound

theorem SameToken.mono (hle : sides.Le sides₁) {token token' : Token}
    (hsame : SameToken sides token token') : SameToken sides₁ token token' :=
  { hsame with related := hle.related hsame.related }

mutual

theorem AlikeExpr.mono (hle : sides.Le sides₁) : {e e' : Expr} →
    AlikeExpr sides Γ e e' → AlikeExpr sides₁ Γ e e'
  | _, _, .assign htarget hvalue => .assign (htarget.mono hle) (hvalue.mono hle)
  | _, _, .binary hknown hoperator hleft hright =>
      .binary hknown (hoperator.mono hle) (hleft.mono hle) (hright.mono hle)
  | _, _, .call hparen hcallee harguments =>
      .call (hparen.mono hle) (hcallee.mono hle) (harguments.mono hle)
  | _, _, .conditional hcondition hthen helse =>
      .conditional (hcondition.mono hle) (hthen.mono hle) (helse.mono hle)
  | _, _, .get hname hobject => .get (hname.mono hle) (hobject.mono hle)
  | _, _, .grouping hinner => .grouping (hinner.mono hle)
  | _, _, .literal value => .literal value
  | _, _, .logical hoperator hleft hright =>
      .logical (hoperator.mono hle) (hleft.mono hle) (hright.mono hle)
  | _, _, .set hname hobject hvalue =>
      .set (hname.mono hle) (hobject.mono hle) (hvalue.mono hle)
  | _, _, .superRef hsees hsees' hwithin hthis hsuper hmethod =>
      .superRef (hle.sees hsees) (hle.sees' hsees') hwithin hthis hsuper (hmethod.mono hle)
  | _, _, .thisRef hsees hsees' hkeyword hkeyword' hwithin hthis =>
      .thisRef (hle.sees hsees) (hle.sees' hsees') hkeyword hkeyword' hwithin hthis
  | _, _, .unary hknown hoperator hright => .unary hknown (hoperator.mono hle) (hright.mono hle)
  | _, _, .var hname => .var (hname.mono hle)

theorem AlikeExprs.mono (hle : sides.Le sides₁) : {es es' : List Expr} →
    AlikeExprs sides Γ es es' → AlikeExprs sides₁ Γ es es'
  | _, _, .nil => .nil
  | _, _, .cons he hes => .cons (he.mono hle) (hes.mono hle)

end

theorem AlikeOptional.mono (hle : sides.Le sides₁) {e e' : Option Expr}
    (halike : AlikeOptional sides Γ e e') : AlikeOptional sides₁ Γ e e' := by
  cases halike with
  | none => exact .none
  | some he => exact .some (he.mono hle)

theorem AlikeParent.mono (hle : sides.Le sides₁) {parent parent' : Option Reference}
    (halike : AlikeParent sides Γ parent parent') : AlikeParent sides₁ Γ parent parent' := by
  cases halike with
  | none => exact .none
  | some hrefers hname => exact .some (hrefers.mono hle) (hle.related hname)

end

section

variable {sides sides₁ : Sides}

mutual

theorem AlikeStmt.mono (hle : sides.Le sides₁) : {inFunction : Bool} → {Γ : List Frame} →
    {s s' : Stmt} → AlikeStmt sides inFunction Γ s s' → AlikeStmt sides₁ inFunction Γ s s'
  | _, _, _, _, .block naming hbody => .block naming (hbody.mono hle)
  | _, _, _, _, .classDecl hname hlexeme hparent hmethods =>
      .classDecl hname hlexeme (hparent.mono hle) (hmethods.mono hle)
  | _, _, _, _, .expression hinner => .expression (hinner.mono hle)
  | _, _, _, _, .funDecl hname hfunction => .funDecl hname (hfunction.mono hle)
  | _, _, _, _, .ifThen hcondition hdeclared hthen =>
      .ifThen (hcondition.mono hle) hdeclared (hthen.mono hle)
  | _, _, _, _, .ifElse hcondition hdeclared hthen hdeclared' helse =>
      .ifElse (hcondition.mono hle) hdeclared (hthen.mono hle) hdeclared' (helse.mono hle)
  | _, _, _, _, .print hinner => .print (hinner.mono hle)
  | _, _, _, _, .ret hvalue => .ret (hvalue.mono hle)
  | _, _, _, _, .varDecl hname hinitial => .varDecl hname (hinitial.mono hle)
  | _, _, _, _, .whileLoop hcondition hdeclared hbody =>
      .whileLoop (hcondition.mono hle) hdeclared (hbody.mono hle)

theorem AlikeStmts.mono (hle : sides.Le sides₁) : {inFunction : Bool} → {Γ : List Frame} →
    {ss ss' : List Stmt} → AlikeStmts sides inFunction Γ ss ss' →
      AlikeStmts sides₁ inFunction Γ ss ss'
  | _, _, _, _, .nil => .nil
  | _, _, _, _, .cons hs hss => .cons (hs.mono hle) (hss.mono hle)

theorem AlikeFunction.mono (hle : sides.Le sides₁) : {Γ : List Frame} → {f f' : Function} →
    AlikeFunction sides Γ f f' → AlikeFunction sides₁ Γ f f'
  | _, _, _, .mk naming hname hparams hbody => .mk naming hname hparams (hbody.mono hle)

theorem AlikeMethods.mono (hle : sides.Le sides₁) : {Γ : List Frame} →
    {fs fs' : List Function} → AlikeMethods sides Γ fs fs' → AlikeMethods sides₁ Γ fs fs'
  | _, _, _, .nil => .nil
  | _, _, _, .cons hf hfs => .cons (hf.mono hle) (hfs.mono hle)

end

end

end Lexical
end Lox
