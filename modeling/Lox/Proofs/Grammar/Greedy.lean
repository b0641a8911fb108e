import Lox.Proofs.Grammar

/-!
# Greedy derivations suffice

Every list of tokens that has a derivation has a greedy one, with the same kind
of phrase and perhaps another tree.  Where a derivation leaves an operator or an
`else` to the phrase around, the phrase in front can absorb it instead.  A greedy
derivation, in turn, is a derivation.
-/

namespace Lox
namespace Grammar

/-!
# Expressions absorb operators
-/

/-- What a derivation can be turned into when an operator and its right operand follow. -/
def Absorbs (loose : Level) (more : List Token) : Phrase → List Token → Prop
  | .expr level tree, ts =>
      loose.rank ≤ level.rank ∨ tree.endsInConditional = true →
        ∃ tree', Derives true (.expr level tree') (ts ++ more)
  | .arguments _, _ => True

section

variable {loose tighter : Level} {operator : Token} {right : Expr} {us : List Token}

/--
An operand and its operator can be moved into any greedy expression that is as
loose as the operator, or that ends in the last branch of a conditional.
-/
theorem derives_absorbs (hbelow : loose.below = some tighter)
    (hoperator : operator.kind ∈ loose.operators)
    (hright : Derives true (.expr tighter right) us)
    {phrase : Phrase} {ts : List Token} (hderives : Derives true phrase ts) :
    Absorbs loose (operator :: us) phrase ts := by
  have htight : ∀ {level : Level}, level.rank ≤ Level.unary.rank →
      ¬ loose.rank ≤ level.rank := by
    intro level hlevel hle
    have hsmall : loose.rank ≤ Level.unary.rank := Nat.le_trans hle hlevel
    cases loose <;> first | cases hoperator | exact absurd hsmall (by decide)
  have hsame : ∀ {level below : Level} {tree : Expr}, level.below = some below →
      loose.rank ≤ level.rank ∨ tree.endsInConditional = true →
      loose.rank ≤ below.rank ∨ tree.endsInConditional = true ∨
        (level = loose ∧ tree.endsInConditional = false) := by
    intro level below tree hlevel hcase
    have hrank := Level.rank_of_below hlevel
    by_cases hopen : tree.endsInConditional = true
    · exact Or.inr (Or.inl hopen)
    · rcases hcase with hle | hopen'
      · by_cases hlt : loose.rank ≤ below.rank
        · exact Or.inl hlt
        · refine Or.inr (Or.inr ⟨?_, by simpa using hopen⟩)
          exact Level.eq_of_rank_eq (by omega)
      · exact absurd hopen' hopen
  induction hderives with
  | constant _ | this _ | super _ _ _ | name _ | grouping _ _ _ _ | emptyCall _ _ _ _
  | call _ _ _ _ _ _ _ | property _ _ _ _ | unary _ _ _ =>
      intro hcase
      rcases hcase with hle | hopen
      · exact absurd hle (htight (by decide))
      · cases hopen
  | @lift level below tree ts hlevel htree ih =>
      intro hcase
      rcases hsame hlevel hcase with hle | hopen | ⟨rfl, hclosed⟩
      · rcases ih (Or.inl hle) with ⟨tree', htree'⟩
        exact ⟨tree', .lift hlevel htree'⟩
      · rcases ih (Or.inr hopen) with ⟨tree', htree'⟩
        exact ⟨tree', .lift hlevel htree'⟩
      · exact ⟨_, .chain hbelow hoperator (fun _ => hclosed) (.lift hlevel htree) hright⟩
  | @chain level below operator' left last ts vs hlevel hoperator' hleft hderLeft hderLast _ ih =>
      intro hcase
      rcases hsame hlevel hcase with hle | hopen | ⟨rfl, hclosed⟩
      · rcases ih (Or.inl hle) with ⟨last', hlast'⟩
        have hchain := Derives.chain hlevel hoperator' hleft hderLeft hlast'
        exact ⟨_, by simpa using hchain⟩
      · rcases ih (Or.inr (level.endsInConditional_of_node hopen)) with ⟨last', hlast'⟩
        have hchain := Derives.chain hlevel hoperator' hleft hderLeft hlast'
        exact ⟨_, by simpa using hchain⟩
      · exact ⟨_, .chain hbelow hoperator (fun _ => hclosed)
          (.chain hlevel hoperator' hleft hderLeft hderLast) hright⟩
  | conditional hquestion hcolon hcondition hthen _ _ _ ih =>
      intro _
      rcases ih (Or.inl (Level.rank_le_assignment _)) with ⟨last', hlast'⟩
      have hconditional := Derives.conditional hquestion hcolon hcondition hthen hlast'
      exact ⟨_, by simpa using hconditional⟩
  | assign hname hequals _ ih =>
      intro _
      rcases ih (Or.inl (Level.rank_le_assignment _)) with ⟨value', hvalue'⟩
      exact ⟨_, .assign hname hequals hvalue'⟩
  | set hdot hname hequals hobject _ _ ih =>
      intro _
      rcases ih (Or.inl (Level.rank_le_assignment _)) with ⟨value', hvalue'⟩
      have hset := Derives.set hdot hname hequals hobject hvalue'
      exact ⟨_, by simpa using hset⟩
  | lastArgument _ _ => trivial
  | moreArguments _ _ _ _ _ => trivial

end

/-- The greedy counterpart of a phrase: of the same kind, with as many arguments. -/
def HasGreedy : Phrase → List Token → Prop
  | .expr level _, ts => ∃ tree', Derives true (.expr level tree') ts
  | .arguments trees, ts =>
      ∃ trees', trees'.length = trees.length ∧ Derives true (.arguments trees') ts

theorem derives_hasGreedy {greedy : Bool} {phrase : Phrase} {ts : List Token}
    (hderives : Derives greedy phrase ts) : HasGreedy phrase ts := by
  induction hderives with
  | constant htoken => exact ⟨_, .constant htoken⟩
  | this hkeyword => exact ⟨_, .this hkeyword⟩
  | super hkeyword hdot hmethod => exact ⟨_, .super hkeyword hdot hmethod⟩
  | name hname => exact ⟨_, .name hname⟩
  | grouping hleft hright _ ih =>
      rcases ih with ⟨inner', hinner'⟩
      exact ⟨_, .grouping hleft hright hinner'⟩
  | lift hbelow _ ih =>
      rcases ih with ⟨tree', htree'⟩
      exact ⟨_, .lift hbelow htree'⟩
  | emptyCall hleft hright _ ih =>
      rcases ih with ⟨callee', hcallee'⟩
      exact ⟨_, .emptyCall hleft hright hcallee'⟩
  | call hleft hright hlength _ _ ihCallee ihArguments =>
      rcases ihCallee with ⟨callee', hcallee'⟩
      rcases ihArguments with ⟨arguments', hlength', harguments'⟩
      exact ⟨_, .call hleft hright (hlength' ▸ hlength) hcallee' harguments'⟩
  | property hdot hname _ ih =>
      rcases ih with ⟨object', hobject'⟩
      exact ⟨_, .property hdot hname hobject'⟩
  | unary hoperator _ ih =>
      rcases ih with ⟨operand', hoperand'⟩
      exact ⟨_, .unary hoperator hoperand'⟩
  | chain hbelow hoperator _ _ _ ihLeft ihRight =>
      rcases ihLeft with ⟨left', hleft'⟩
      rcases ihRight with ⟨right', hright'⟩
      exact derives_absorbs hbelow hoperator hright' hleft' (Or.inl (Nat.le_refl _))
  | conditional hquestion hcolon _ _ _ ihCondition ihThen ihElse =>
      rcases ihCondition with ⟨condition', hcondition'⟩
      rcases ihThen with ⟨thenBranch', hthen'⟩
      rcases ihElse with ⟨elseBranch', helse'⟩
      exact ⟨_, .conditional hquestion hcolon hcondition' hthen' helse'⟩
  | assign hname hequals _ ih =>
      rcases ih with ⟨value', hvalue'⟩
      exact ⟨_, .assign hname hequals hvalue'⟩
  | set hdot hname hequals _ _ ihObject ihValue =>
      rcases ihObject with ⟨object', hobject'⟩
      rcases ihValue with ⟨value', hvalue'⟩
      exact ⟨_, .set hdot hname hequals hobject' hvalue'⟩
  | lastArgument _ ih =>
      rcases ih with ⟨argument', hargument'⟩
      exact ⟨[argument'], rfl, .lastArgument hargument'⟩
  | moreArguments hcomma _ _ ihArgument ihArguments =>
      rcases ihArgument with ⟨argument', hargument'⟩
      rcases ihArguments with ⟨arguments', hlength', harguments'⟩
      exact ⟨argument' :: arguments', by simp [hlength'],
        .moreArguments hcomma hargument' harguments'⟩

/-!
# Parts of statements
-/

theorem optional_hasGreedy {greedy : Bool} {tree : Option Expr} {ts : List Token}
    (hoptional : Optional greedy tree ts) : ∃ tree', Optional true tree' ts := by
  cases hoptional with
  | missing => exact ⟨none, .missing⟩
  | present htree =>
      rcases derives_hasGreedy htree with ⟨tree', htree'⟩
      exact ⟨some tree', .present htree'⟩

theorem variable_hasGreedy {greedy : Bool} {tree : Stmt} {ts : List Token}
    (hvariable : Variable greedy tree ts) : ∃ tree', Variable true tree' ts := by
  cases hvariable with
  | plain hname hsemicolon => exact ⟨_, .plain hname hsemicolon⟩
  | initialised hname hequals hsemicolon hinitial =>
      rcases derives_hasGreedy hinitial with ⟨initial', hinitial'⟩
      exact ⟨_, .initialised hname hequals hsemicolon hinitial'⟩

theorem firstClause_hasGreedy {greedy : Bool} {tree : Option Stmt} {ts : List Token}
    (hfirst : FirstClause greedy tree ts) : ∃ tree', FirstClause true tree' ts := by
  cases hfirst with
  | missing hsemicolon => exact ⟨none, .missing hsemicolon⟩
  | declaration hkeyword hvariable =>
      rcases variable_hasGreedy hvariable with ⟨tree', htree'⟩
      exact ⟨_, .declaration hkeyword htree'⟩
  | expression hsemicolon hexpression =>
      rcases derives_hasGreedy hexpression with ⟨tree', htree'⟩
      exact ⟨_, .expression hsemicolon htree'⟩

/-!
# Statements absorb `else`
-/

/-- What an open statement can be turned into when an `else` and a statement follow. -/
def AbsorbsElse (more : List Token) : StmtPhrase → List Token → Prop
  | .statement isOpen _, ts =>
      isOpen = true → ∃ isOpen' tree', StmtDerives true (.statement isOpen' tree') (ts ++ more)
  | _, _ => True

theorem stmtDerives_absorbsElse {otherwise : Token} {lastOpen : Bool} {last : Stmt}
    {us : List Token} (hotherwise : otherwise.kind = .kwElse)
    (hlast : StmtDerives true (.statement lastOpen last) us)
    {phrase : StmtPhrase} {ts : List Token} (hderives : StmtDerives true phrase ts) :
    AbsorbsElse (otherwise :: us) phrase ts := by
  induction hderives with
  | whileLoop hkeyword hleft hright hcondition _ ih =>
      intro hopen
      rcases ih hopen with ⟨isOpen', body', hbody'⟩
      have hloop := StmtDerives.whileLoop hkeyword hleft hright hcondition hbody'
      exact ⟨_, _, by simpa using hloop⟩
  | forLoop hkeyword hleft hsemicolon hright hfirst hcondition hincrement _ ih =>
      intro hopen
      rcases ih hopen with ⟨isOpen', body', hbody'⟩
      have hloop := StmtDerives.forLoop hkeyword hleft hsemicolon hright hfirst hcondition
        hincrement hbody'
      exact ⟨_, _, by simpa using hloop⟩
  | @ifThen keyword left right condition thenOpen thenBranch ts vs hkeyword hleft hright
      hcondition hthen ih =>
      intro _
      cases thenOpen with
      | true =>
          rcases ih rfl with ⟨isOpen', thenBranch', hthen'⟩
          have hif := StmtDerives.ifThen hkeyword hleft hright hcondition hthen'
          exact ⟨_, _, by simpa using hif⟩
      | false =>
          have hif := StmtDerives.ifElse hkeyword hleft hright hotherwise (fun _ => rfl)
            hcondition hthen hlast
          exact ⟨_, _, by simpa using hif⟩
  | ifElse hkeyword hleft hright hotherwise' hclosed hcondition hthen _ _ ih =>
      intro hopen
      rcases ih hopen with ⟨isOpen', elseBranch', helse'⟩
      have hif := StmtDerives.ifElse hkeyword hleft hright hotherwise' hclosed hcondition
        hthen helse'
      exact ⟨_, _, by simpa using hif⟩
  | expression _ _ | print _ _ _ | ret _ _ _ | block _ _ _ _ =>
      intro hopen
      cases hopen
  | statement | varDecl | funDecl | classDecl | noDeclarations | moreDeclarations | function
  | noMethods | moreMethods => trivial

def StmtHasGreedy : StmtPhrase → List Token → Prop
  | .statement _ _, ts => ∃ isOpen' tree', StmtDerives true (.statement isOpen' tree') ts
  | .declaration _ _, ts => ∃ isOpen' tree', StmtDerives true (.declaration isOpen' tree') ts
  | .declarations _, ts => ∃ trees', StmtDerives true (.declarations trees') ts
  | .function _, ts => ∃ tree', StmtDerives true (.function tree') ts
  | .methods _, ts => ∃ trees', StmtDerives true (.methods trees') ts

theorem stmtDerives_hasGreedy {greedy : Bool} {phrase : StmtPhrase} {ts : List Token}
    (hderives : StmtDerives greedy phrase ts) : StmtHasGreedy phrase ts := by
  induction hderives with
  | expression hsemicolon hinner =>
      rcases derives_hasGreedy hinner with ⟨inner', hinner'⟩
      exact ⟨_, _, .expression hsemicolon hinner'⟩
  | print hkeyword hsemicolon hinner =>
      rcases derives_hasGreedy hinner with ⟨inner', hinner'⟩
      exact ⟨_, _, .print hkeyword hsemicolon hinner'⟩
  | ret hkeyword hsemicolon hvalue =>
      rcases optional_hasGreedy hvalue with ⟨value', hvalue'⟩
      exact ⟨_, _, .ret hkeyword hsemicolon hvalue'⟩
  | block hleft hright _ ih =>
      rcases ih with ⟨body', hbody'⟩
      exact ⟨_, _, .block hleft hright hbody'⟩
  | whileLoop hkeyword hleft hright hcondition _ ih =>
      rcases derives_hasGreedy hcondition with ⟨condition', hcondition'⟩
      rcases ih with ⟨isOpen', body', hbody'⟩
      exact ⟨_, _, .whileLoop hkeyword hleft hright hcondition' hbody'⟩
  | forLoop hkeyword hleft hsemicolon hright hfirst hcondition hincrement _ ih =>
      rcases firstClause_hasGreedy hfirst with ⟨first', hfirst'⟩
      rcases optional_hasGreedy hcondition with ⟨condition', hcondition'⟩
      rcases optional_hasGreedy hincrement with ⟨increment', hincrement'⟩
      rcases ih with ⟨isOpen', body', hbody'⟩
      exact ⟨_, _, .forLoop hkeyword hleft hsemicolon hright hfirst' hcondition' hincrement'
        hbody'⟩
  | ifThen hkeyword hleft hright hcondition _ ih =>
      rcases derives_hasGreedy hcondition with ⟨condition', hcondition'⟩
      rcases ih with ⟨isOpen', thenBranch', hthen'⟩
      exact ⟨_, _, .ifThen hkeyword hleft hright hcondition' hthen'⟩
  | ifElse hkeyword hleft hright hotherwise _ hcondition _ _ ihThen ihElse =>
      rcases derives_hasGreedy hcondition with ⟨condition', hcondition'⟩
      rcases ihThen with ⟨thenOpen', thenBranch', hthen'⟩
      rcases ihElse with ⟨isOpen', elseBranch', helse'⟩
      -- The `if` without its `else` is open, and so takes the `else` back where it belongs.
      have hif := StmtDerives.ifThen hkeyword hleft hright hcondition' hthen'
      exact stmtDerives_absorbsElse hotherwise helse' hif rfl
  | statement _ ih =>
      rcases ih with ⟨isOpen', tree', htree'⟩
      exact ⟨_, _, .statement htree'⟩
  | varDecl hkeyword hvariable =>
      rcases variable_hasGreedy hvariable with ⟨tree', htree'⟩
      exact ⟨_, _, .varDecl hkeyword htree'⟩
  | funDecl hkeyword _ ih =>
      rcases ih with ⟨function', hfunction'⟩
      exact ⟨_, _, .funDecl hkeyword hfunction'⟩
  | classDecl hkeyword hname hleft hright hparent _ ih =>
      rcases ih with ⟨methods', hmethods'⟩
      exact ⟨_, _, .classDecl hkeyword hname hleft hright hparent hmethods'⟩
  | noDeclarations => exact ⟨_, .noDeclarations⟩
  | moreDeclarations _ _ ihTree ihTrees =>
      rcases ihTree with ⟨isOpen', tree', htree'⟩
      rcases ihTrees with ⟨trees', htrees'⟩
      exact ⟨_, .moreDeclarations htree' htrees'⟩
  | function hname hleft hright hopening hclosing hparams _ ih =>
      rcases ih with ⟨body', hbody'⟩
      exact ⟨_, .function hname hleft hright hopening hclosing hparams hbody'⟩
  | noMethods => exact ⟨_, .noMethods⟩
  | moreMethods _ _ ihTree ihTrees =>
      rcases ihTree with ⟨tree', htree'⟩
      rcases ihTrees with ⟨trees', htrees'⟩
      exact ⟨_, .moreMethods htree' htrees'⟩

/-!
# Greedy derivations are derivations
-/

section

variable {greedy : Bool} {ts : List Token}

theorem derives_forget {phrase : Phrase} (hderives : Derives greedy phrase ts) :
    Derives false phrase ts := by
  induction hderives with
  | constant hvalue => exact .constant hvalue
  | this hkeyword => exact .this hkeyword
  | super hkeyword hdot hmethod => exact .super hkeyword hdot hmethod
  | name hname => exact .name hname
  | grouping hleft hright _ ih => exact .grouping hleft hright ih
  | lift hbelow _ ih => exact .lift hbelow ih
  | emptyCall hleft hright _ ih => exact .emptyCall hleft hright ih
  | call hleft hright hcount _ _ ihCallee ihArguments =>
      exact .call hleft hright hcount ihCallee ihArguments
  | property hdot hname _ ih => exact .property hdot hname ih
  | unary hoperator _ ih => exact .unary hoperator ih
  | chain hbelow hoperator _ _ _ ihLeft ihRight =>
      exact .chain hbelow hoperator (fun hgreedy => by cases hgreedy) ihLeft ihRight
  | conditional hquestion hcolon _ _ _ ihCondition ihThen ihElse =>
      exact .conditional hquestion hcolon ihCondition ihThen ihElse
  | assign hname hequals _ ih => exact .assign hname hequals ih
  | set hdot hname hequals _ _ ihObject ihValue => exact .set hdot hname hequals ihObject ihValue
  | lastArgument _ ih => exact .lastArgument ih
  | moreArguments hcomma _ _ ihHead ihTail => exact .moreArguments hcomma ihHead ihTail

theorem optional_forget {tree : Option Expr} (htree : Optional greedy tree ts) :
    Optional false tree ts := by
  cases htree with
  | missing => exact .missing
  | present htree => exact .present (derives_forget htree)

theorem variable_forget {tree : Stmt} (htree : Variable greedy tree ts) :
    Variable false tree ts := by
  cases htree with
  | plain hname hsemicolon => exact .plain hname hsemicolon
  | initialised hname hequals hsemicolon hinitial =>
      exact .initialised hname hequals hsemicolon (derives_forget hinitial)

theorem firstClause_forget {tree : Option Stmt} (htree : FirstClause greedy tree ts) :
    FirstClause false tree ts := by
  cases htree with
  | missing hsemicolon => exact .missing hsemicolon
  | declaration hkeyword htree => exact .declaration hkeyword (variable_forget htree)
  | expression hsemicolon htree => exact .expression hsemicolon (derives_forget htree)

theorem stmtDerives_forget {phrase : StmtPhrase} (hderives : StmtDerives greedy phrase ts) :
    StmtDerives false phrase ts := by
  induction hderives with
  | expression hsemicolon hinner => exact .expression hsemicolon (derives_forget hinner)
  | print hkeyword hsemicolon hinner => exact .print hkeyword hsemicolon (derives_forget hinner)
  | ret hkeyword hsemicolon hvalue => exact .ret hkeyword hsemicolon (optional_forget hvalue)
  | block hleft hright _ ih => exact .block hleft hright ih
  | whileLoop hkeyword hleft hright hcondition _ ih =>
      exact .whileLoop hkeyword hleft hright (derives_forget hcondition) ih
  | forLoop hkeyword hleft hsemicolon hright hfirst hcondition hincrement _ ih =>
      exact .forLoop hkeyword hleft hsemicolon hright (firstClause_forget hfirst)
        (optional_forget hcondition) (optional_forget hincrement) ih
  | ifThen hkeyword hleft hright hcondition _ ih =>
      exact .ifThen hkeyword hleft hright (derives_forget hcondition) ih
  | ifElse hkeyword hleft hright hotherwise _ hcondition _ _ ihThen ihElse =>
      exact .ifElse hkeyword hleft hright hotherwise (fun hgreedy => by cases hgreedy)
        (derives_forget hcondition) ihThen ihElse
  | statement _ ih => exact .statement ih
  | varDecl hkeyword htree => exact .varDecl hkeyword (variable_forget htree)
  | funDecl hkeyword _ ih => exact .funDecl hkeyword ih
  | classDecl hkeyword hname hleft hright hparent _ ih =>
      exact .classDecl hkeyword hname hleft hright hparent ih
  | noDeclarations => exact .noDeclarations
  | moreDeclarations _ _ ihHead ihTail => exact .moreDeclarations ihHead ihTail
  | function hname hleft hright hopening hclosing hparams _ ih =>
      exact .function hname hleft hright hopening hclosing hparams ih
  | noMethods => exact .noMethods
  | moreMethods _ _ ihHead ihTail => exact .moreMethods ihHead ihTail

end

end Grammar
end Lox
