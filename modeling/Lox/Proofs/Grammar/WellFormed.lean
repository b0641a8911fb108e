import Lox.Proofs.Grammar
import Lox.Proofs.Syntax.WellFormed

/-!
# Derived trees are well-formed

A derivation uses its tokens only in places that fit their kinds.  If all tokens
of a derivation satisfy a predicate, so do the tokens of its tree.
-/

namespace Lox
namespace Grammar

variable {p : Token → Prop} {greedy : Bool}

/-!
# Expressions
-/

def Phrase.WellFormed (p : Token → Prop) : Phrase → Prop
  | .expr _ tree => tree.WellFormed p
  | .arguments trees => Expr.AllWellFormed p trees

theorem Level.node_wellFormed {level : Level} {left right : Expr} {operator : Token}
    (hoperator : operator.kind ∈ level.operators) (hp : p operator)
    (hleft : left.WellFormed p) (hright : right.WellFormed p) :
    (level.node left operator right).WellFormed p := by
  have hlogical : ∀ {kind : TokenKind}, operator.kind ∈ [kind] → kind ≠ .identifier →
      operator.kind ≠ .identifier := by
    intro kind hmem hkind
    rw [List.mem_singleton.mp hmem]
    exact hkind
  have hbinary : ∀ {kinds : List TokenKind}, operator.kind ∈ kinds → kinds ⊆ binaryOperators →
      operator.kind ∈ binaryOperators := fun hmem hkinds => hkinds hmem
  cases level with
  | factor => exact ⟨hbinary hoperator (by decide), hp, hleft, hright⟩
  | term => exact ⟨hbinary hoperator (by decide), hp, hleft, hright⟩
  | comparison => exact ⟨hbinary hoperator (by decide), hp, hleft, hright⟩
  | equality => exact ⟨hbinary hoperator (by decide), hp, hleft, hright⟩
  | logicAnd => exact ⟨hlogical hoperator (by decide), hp, hleft, hright⟩
  | logicOr => exact ⟨hlogical hoperator (by decide), hp, hleft, hright⟩
  | primary | call | unary | ternary | assignment => cases hoperator

theorem derives_wellFormed {phrase : Phrase} {ts : List Token}
    (hderives : Derives greedy phrase ts) (hp : ∀ t ∈ ts, p t) : phrase.WellFormed p := by
  induction hderives with
  | constant _ => trivial
  | this hkind => exact ⟨hkind, hp _ (by simp)⟩
  | super hkind _ hmethod => exact ⟨hkind, hp _ (by simp), hmethod, hp _ (by simp)⟩
  | name hkind => exact ⟨hkind, hp _ (by simp)⟩
  | grouping _ _ _ ih => exact ih fun t ht => hp t (by simp [ht])
  | lift _ _ ih => exact ih hp
  | emptyCall _ hright _ ih =>
      exact ⟨hright, hp _ (by simp), ih fun t ht => hp t (by simp [ht]), trivial⟩
  | call _ hright _ _ _ ihCallee ihArguments =>
      have hcallee := ihCallee fun t ht => hp t (by simp [ht])
      have harguments := ihArguments fun t ht => hp t (by simp [ht])
      exact ⟨hright, hp _ (by simp), hcallee, harguments⟩
  | property _ hname _ ih =>
      exact ⟨⟨hname, hp _ (by simp)⟩, ih fun t ht => hp t (by simp [ht])⟩
  | unary hoperator _ ih =>
      refine ⟨?_, hp _ (by simp), ih fun t ht => hp t (by simp [ht])⟩
      rcases hoperator with hbang | hminus
      · rw [hbang]
        decide
      · rw [hminus]
        decide
  | chain _ hoperator _ _ _ ihLeft ihRight =>
      have hleft := ihLeft fun t ht => hp t (by simp [ht])
      have hright := ihRight fun t ht => hp t (by simp [ht])
      exact Level.node_wellFormed hoperator (hp _ (by simp)) hleft hright
  | conditional _ _ _ _ _ ihCondition ihThen ihElse =>
      have hcondition := ihCondition fun t ht => hp t (by simp [ht])
      have hthen := ihThen fun t ht => hp t (by simp [ht])
      have helse := ihElse fun t ht => hp t (by simp [ht])
      exact ⟨hcondition, hthen, helse⟩
  | assign hname _ _ ih =>
      exact ⟨⟨hname, hp _ (by simp)⟩, ih fun t ht => hp t (by simp [ht])⟩
  | set _ hname _ _ _ ihObject ihValue =>
      have hobject := ihObject fun t ht => hp t (by simp [ht])
      have hvalue := ihValue fun t ht => hp t (by simp [ht])
      exact ⟨⟨hname, hp _ (by simp)⟩, hobject, hvalue⟩
  | lastArgument _ ih => exact ⟨ih hp, trivial⟩
  | moreArguments _ _ _ ihFirst ihRest =>
      have hfirst := ihFirst fun t ht => hp t (by simp [ht])
      have hrest := ihRest fun t ht => hp t (by simp [ht])
      exact ⟨hfirst, hrest⟩

/-!
# Parts of statements
-/

theorem optional_wellFormed {value : Option Expr} {ts : List Token}
    (hoptional : Optional greedy value ts) (hp : ∀ t ∈ ts, p t) :
    ∀ e ∈ value, Expr.WellFormed p e := by
  intro e he
  cases hoptional with
  | missing => cases he
  | present hderives =>
      cases he
      exact derives_wellFormed hderives hp

theorem variable_wellFormed {tree : Stmt} {ts : List Token} (hvariable : Variable greedy tree ts)
    (hp : ∀ t ∈ ts, p t) : tree.WellFormed p := by
  cases hvariable with
  | plain hname _ => exact ⟨⟨hname, hp _ (by simp)⟩, by simp⟩
  | initialised hname _ _ hinitial =>
      refine ⟨⟨hname, hp _ (by simp)⟩, ?_⟩
      intro e he
      cases he
      exact derives_wellFormed hinitial fun t ht => hp t (by simp [ht])

theorem firstClause_wellFormed {first : Option Stmt} {ts : List Token}
    (hfirst : FirstClause greedy first ts) (hp : ∀ t ∈ ts, p t) :
    ∀ s ∈ first, Stmt.WellFormed p s := by
  intro s hs
  cases hfirst with
  | missing _ => cases hs
  | declaration _ hvariable =>
      cases hs
      exact variable_wellFormed hvariable fun t ht => hp t (by simp [ht])
  | expression _ hexpression =>
      cases hs
      exact derives_wellFormed hexpression fun t ht => hp t (by simp [ht])

theorem separated_named {names ts : List Token} (hnames : Separated Identifier names ts)
    (hp : ∀ t ∈ ts, p t) : ∀ t ∈ names, t.Named p := by
  induction hnames with
  | last hname =>
      rcases hname with ⟨hkind, rfl⟩
      intro t ht
      cases List.mem_singleton.mp ht
      exact ⟨hkind, hp _ (by simp)⟩
  | more _ hname _ ih =>
      rcases hname with ⟨hkind, rfl⟩
      intro t ht
      rcases List.mem_cons.mp ht with rfl | hrest
      · exact ⟨hkind, hp _ (by simp)⟩
      · exact ih (fun u hu => hp u (by simp [hu])) t hrest

theorem parameters_named {names ts : List Token} (hnames : Parameters names ts)
    (hp : ∀ t ∈ ts, p t) : ∀ t ∈ names, t.Named p := by
  cases hnames with
  | none => simp
  | some _ hseparated => exact separated_named hseparated hp

theorem superclass_named {parent : Option Reference} {ts : List Token}
    (hparent : Superclass parent ts) (hp : ∀ t ∈ ts, p t) :
    ∀ r ∈ parent, r.name.Named p := by
  intro r hr
  cases hparent with
  | missing => cases hr
  | present _ hname =>
      cases hr
      exact ⟨hname, hp _ (by simp)⟩

end Grammar

/-- A counting loop is well-formed if its parts are; only its body must not declare anything. -/
theorem Stmt.forLoop_wellFormed {p : Token → Prop} {first : Option Stmt}
    {condition increment : Option Expr} {body : Stmt}
    (hfirst : ∀ s ∈ first, Stmt.WellFormed p s)
    (hcondition : ∀ e ∈ condition, Expr.WellFormed p e)
    (hincrement : ∀ e ∈ increment, Expr.WellFormed p e)
    (hdeclared : body.declared? = none) (hbody : body.WellFormed p) :
    (Stmt.forLoop first condition increment body).WellFormed p := by
  have hloop : (Stmt.forLoop none condition increment body).WellFormed p := by
    have htest : (condition.getD (.literal (.bool true))).WellFormed p := by
      cases condition with
      | none => trivial
      | some e => exact hcondition e rfl
    cases increment with
    | none => exact ⟨htest, hdeclared, hbody⟩
    | some step => exact ⟨htest, rfl, hbody, hincrement step rfl, trivial⟩
  cases first with
  | none => exact hloop
  | some start => exact ⟨hfirst start rfl, hloop, trivial⟩

theorem Stmt.declared?_forLoop (first : Option Stmt) (condition increment : Option Expr)
    (body : Stmt) : (Stmt.forLoop first condition increment body).declared? = none := by
  cases first <;> rfl

namespace Grammar

variable {p : Token → Prop} {greedy : Bool}

/-!
# Statements
-/

/-- A statement, as opposed to a declaration, binds nothing around it. -/
def StmtPhrase.WellFormed (p : Token → Prop) : StmtPhrase → Prop
  | .statement _ tree => tree.declared? = none ∧ tree.WellFormed p
  | .declaration _ tree => tree.WellFormed p
  | .declarations trees => Stmt.AllWellFormed p trees
  | .function tree => tree.WellFormed p
  | .methods trees => Function.AllWellFormed p trees

theorem stmtDerives_wellFormed {phrase : StmtPhrase} {ts : List Token}
    (hderives : StmtDerives greedy phrase ts) (hp : ∀ t ∈ ts, p t) : phrase.WellFormed p := by
  induction hderives with
  | expression _ hinner => exact ⟨rfl, derives_wellFormed hinner fun t ht => hp t (by simp [ht])⟩
  | print _ _ hinner => exact ⟨rfl, derives_wellFormed hinner fun t ht => hp t (by simp [ht])⟩
  | ret _ _ hvalue => exact ⟨rfl, optional_wellFormed hvalue fun t ht => hp t (by simp [ht])⟩
  | block _ _ _ ih => exact ⟨rfl, ih fun t ht => hp t (by simp [ht])⟩
  | whileLoop _ _ _ hcondition _ ih =>
      have htest := derives_wellFormed hcondition fun t ht => hp t (by simp [ht])
      exact ⟨rfl, htest, ih fun t ht => hp t (by simp [ht])⟩
  | forLoop _ _ _ _ hfirst hcondition hincrement _ ih =>
      have hstart := firstClause_wellFormed hfirst fun t ht => hp t (by simp [ht])
      have htest := optional_wellFormed hcondition fun t ht => hp t (by simp [ht])
      have hstep := optional_wellFormed hincrement fun t ht => hp t (by simp [ht])
      have hbody := ih fun t ht => hp t (by simp [ht])
      exact ⟨Stmt.declared?_forLoop _ _ _ _,
        Stmt.forLoop_wellFormed hstart htest hstep hbody.1 hbody.2⟩
  | ifThen _ _ _ hcondition _ ih =>
      have htest := derives_wellFormed hcondition fun t ht => hp t (by simp [ht])
      exact ⟨rfl, htest, ih fun t ht => hp t (by simp [ht])⟩
  | ifElse _ _ _ _ _ hcondition _ _ ihThen ihElse =>
      have htest := derives_wellFormed hcondition fun t ht => hp t (by simp [ht])
      have hthen := ihThen fun t ht => hp t (by simp [ht])
      have helse := ihElse fun t ht => hp t (by simp [ht])
      exact ⟨rfl, htest, hthen, helse⟩
  | statement _ ih => exact (ih hp).2
  | varDecl _ hvariable =>
      exact variable_wellFormed hvariable fun t ht => hp t (by simp [ht])
  | funDecl _ _ ih => exact ih fun t ht => hp t (by simp [ht])
  | classDecl _ hname _ _ hparent _ ih =>
      have hsuper := superclass_named hparent fun t ht => hp t (by simp [ht])
      have hmethods := ih fun t ht => hp t (by simp [ht])
      exact ⟨⟨hname, hp _ (by simp)⟩, hsuper, hmethods⟩
  | noDeclarations => trivial
  | moreDeclarations _ _ ihFirst ihRest =>
      have hfirst := ihFirst fun t ht => hp t (by simp [ht])
      have hrest := ihRest fun t ht => hp t (by simp [ht])
      exact ⟨hfirst, hrest⟩
  | function hname _ _ _ _ hparams _ ih =>
      have hnamed := parameters_named hparams fun t ht => hp t (by simp [ht])
      have hbody := ih fun t ht => hp t (by simp [ht])
      exact ⟨⟨hname, hp _ (by simp)⟩, hnamed, hbody⟩
  | noMethods => trivial
  | moreMethods _ _ ihFirst ihRest =>
      have hfirst := ihFirst fun t ht => hp t (by simp [ht])
      have hrest := ihRest fun t ht => hp t (by simp [ht])
      exact ⟨hfirst, hrest⟩

theorem program_wellFormed {trees : List Stmt} {ts : List Token}
    (hprogram : Program greedy trees ts) (hp : ∀ t ∈ ts, p t) : Stmt.AllWellFormed p trees :=
  stmtDerives_wellFormed hprogram hp

end Grammar
end Lox
