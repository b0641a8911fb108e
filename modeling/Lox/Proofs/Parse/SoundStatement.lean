import Lox.Proofs.Parse.Sound

/-!
# A silent parser reads statements of the grammar

The counterpart for statements of what holds for expressions.  A declaration
that is dropped has been reported, so a silent parser drops none.
-/

namespace Lox
namespace Parser

open Grammar

def ReadsStatement (p : Parser Stmt) (ts : List Token) : Prop :=
  p.Reads ts fun tree rest =>
    ∃ isOpen us, ts = us ++ rest ∧ StmtDerives true (.statement isOpen tree) us ∧
      StopsElse isOpen rest

def ReadsDeclaration (p : Parser Stmt) (ts : List Token) : Prop :=
  p.Reads ts fun tree rest =>
    ∃ isOpen us, ts = us ++ rest ∧ StmtDerives true (.declaration isOpen tree) us ∧
      StopsElse isOpen rest

def ReadsKept (p : Parser (Option Stmt)) (ts : List Token) : Prop :=
  p.Reads ts fun tree? rest =>
    ∃ tree isOpen us, tree? = some tree ∧ ts = us ++ rest ∧
      StmtDerives true (.declaration isOpen tree) us ∧ StopsElse isOpen rest

theorem stopsElse_closed (rest : List Token) : StopsElse false rest := by
  intro hopen
  cases hopen

theorem recovering_reads {p : Parser Stmt} {ts : List Token} (hp : ReadsDeclaration p ts) :
    ReadsKept (recovering p) ts := by
  intro hsilent
  have hreports : (p ts).reports = [] := by
    unfold recovering at hsilent
    dsimp only at hsilent
    split at hsilent <;> exact hsilent
  rcases hp hreports with ⟨tree, rest, hresult, isOpen, us, hus, htree, hstops⟩
  refine ⟨some tree, rest, ?_, tree, isOpen, us, rfl, hus, htree, hstops⟩
  simp only [recovering, hresult]

/-!
# Simple statements
-/

section

variable {n : Nat} {ts : List Token}

theorem endingIn_reads (form : Expr → Stmt) (what : String) (hlength : ts.length < n) :
    (endingIn form what n).Reads ts fun tree rest =>
      ∃ inner semicolon us, tree = form inner ∧ ts = us ++ semicolon :: rest ∧
        semicolon.kind = .semicolon ∧ Expression true inner us := by
  refine Reads.bind ((expression_reads n ts hlength).imp ?_)
  rintro inner rest ⟨us, rfl, hinner, _⟩
  refine Reads.bind (Reads.expect fun semicolon rest' hrest hsemicolon => ?_)
  subst hrest
  exact Reads.ok ⟨inner, semicolon, us, rfl, rfl, hsemicolon, hinner⟩

/-- An expression that is left out where the next token has the given kind. -/
theorem optionalExpression_reads (kind : TokenKind) (hlength : ts.length < n) :
    (unlessNext kind (expression n)).Reads ts fun tree rest =>
      ∃ us, ts = us ++ rest ∧ Optional true tree us := by
  apply Reads.unlessNext
  · intro _
    exact ⟨[], rfl, .missing⟩
  · refine (expression_reads n ts hlength).imp ?_
    rintro tree rest ⟨us, rfl, htree, _⟩
    exact ⟨us, rfl, .present htree⟩

theorem returnStatement_reads (keyword : Token) (hlength : ts.length < n) :
    (returnStatement n keyword).Reads ts fun tree rest =>
      ∃ value semicolon us, tree = .ret keyword value ∧ ts = us ++ semicolon :: rest ∧
        semicolon.kind = .semicolon ∧ Optional true value us := by
  refine Reads.bind ((optionalExpression_reads .semicolon hlength).imp ?_)
  rintro value rest ⟨us, rfl, hvalue⟩
  refine Reads.bind (Reads.expect fun semicolon rest' hrest hsemicolon => ?_)
  subst hrest
  exact Reads.ok ⟨value, semicolon, us, rfl, rfl, hsemicolon, hvalue⟩

theorem varDeclaration_reads (hlength : ts.length < n) :
    (varDeclaration n).Reads ts fun tree rest =>
      ∃ us, ts = us ++ rest ∧ Variable true tree us := by
  refine Reads.bind (Reads.expect fun name ts' hts hname => ?_)
  subst hts
  simp only [List.length_cons] at hlength
  apply Reads.bind
  apply Reads.accept
  · intro _
    refine Reads.bind (Reads.ok ?_)
    refine Reads.bind (Reads.expect fun semicolon rest hrest hsemicolon => ?_)
    subst hrest
    exact Reads.ok ⟨[name, semicolon], rfl, .plain hname hsemicolon⟩
  · intro equals ts'' hts hequals
    subst hts
    simp only [List.length_cons] at hlength
    refine Reads.bind (Reads.map ((expression_reads n ts'' (by omega)).imp ?_))
    rintro initial rest ⟨us, rfl, hinitial, _⟩
    refine Reads.bind (Reads.expect fun semicolon rest' hrest hsemicolon => ?_)
    subst hrest
    exact Reads.ok ⟨name :: equals :: us ++ [semicolon], by simp,
      .initialised hname (by simpa using hequals) hsemicolon hinitial⟩

theorem firstClause_reads (hlength : ts.length < n) :
    (firstClause n).Reads ts fun first rest =>
      ∃ us, ts = us ++ rest ∧ FirstClause true first us := by
  apply Reads.bind
  apply Reads.accept
  · intro _
    refine Reads.map ((endingIn_reads .expression _ hlength).imp ?_)
    rintro tree rest ⟨inner, semicolon, us, rfl, rfl, hsemicolon, hinner⟩
    exact ⟨us ++ [semicolon], by simp, .expression hsemicolon hinner⟩
  · intro token ts' hts hkind
    subst hts
    simp only [List.length_cons] at hlength
    by_cases hsemicolon : token.kind = .semicolon
    · simp only [if_pos hsemicolon]
      exact Reads.ok ⟨[token], rfl, .missing hsemicolon⟩
    · have hvar : token.kind = .kwVar := by simpa [hsemicolon] using hkind
      simp only [if_neg hsemicolon]
      refine Reads.map ((varDeclaration_reads (by omega)).imp ?_)
      rintro tree rest ⟨us, rfl, htree⟩
      exact ⟨token :: us, rfl, .declaration hvar htree⟩

theorem superclass_reads (ts : List Token) :
    superclass.Reads ts fun parent rest => ∃ us, ts = us ++ rest ∧ Superclass parent us := by
  apply Reads.bind
  apply Reads.accept
  · intro _
    exact Reads.ok ⟨[], rfl, .missing⟩
  · intro less ts' hts hless
    subst hts
    refine Reads.bind (Reads.expect fun name rest hrest hname => ?_)
    subst hrest
    exact Reads.ok ⟨[less, name], rfl, .present (by simpa using hless) hname⟩

end

/-!
# Blocks, functions and classes
-/

theorem parameters_reads {ts : List Token} (bound : Nat) (hbound : ts.length < bound) :
    (items (expect .identifier "parameter name") "parameters" bound).Reads ts
      fun params rest => ∃ us, ts = us ++ rest ∧ Parameters params us := by
  have hitem : ReadsItem bound (expect .identifier "parameter name") Identifier := by
    intro ts _
    refine Reads.expect fun name rest hts hname => ?_
    exact ⟨[name], hts, List.cons_ne_nil name [], hname, rfl⟩
  refine (items_reads hitem "parameters" bound ts hbound hbound).imp ?_
  rintro params rest (⟨rfl, rfl⟩ | ⟨us, rfl, hparams, hcount⟩)
  · exact ⟨[], rfl, .none⟩
  · exact ⟨us, rfl, .some hcount hparams⟩

section

variable {n : Nat} {declaration : Parser (Option Stmt)}
variable (hdeclaration : ∀ ts : List Token, ts.length < n → ReadsKept declaration ts)
include hdeclaration

theorem declarations_reads (bound : Nat) :
    ∀ ts : List Token, ts.length < bound → ts.length < n →
      (declarations declaration bound).Reads ts fun trees rest =>
        ∃ us, ts = us ++ rest ∧ StmtDerives true (.declarations trees) us := by
  induction bound with
  | zero =>
      intro ts hbound
      exact absurd hbound (Nat.not_lt_zero _)
  | succ bound ih =>
      intro ts hbound hlength
      apply Reads.bind
      apply Reads.peek
      have hmore : (do
          let first ← declaration
          let rest ← declarations declaration bound
          ok (first.toList ++ rest) : Parser (List Stmt)).Reads ts fun trees rest =>
            ∃ us, ts = us ++ rest ∧ StmtDerives true (.declarations trees) us := by
        refine Reads.bind ((hdeclaration ts hlength).imp ?_)
        rintro tree? rest ⟨tree, isOpen, us, rfl, rfl, htree, _⟩
        have hpos := List.length_pos_iff.mpr (declaration_ne_nil htree)
        simp only [List.length_append] at hbound hlength
        refine Reads.bind ((ih rest (by omega) (by omega)).imp ?_)
        rintro trees rest' ⟨vs, rfl, htrees⟩
        exact Reads.ok ⟨us ++ vs, by simp, .moreDeclarations htree htrees⟩
      split
      · exact Reads.ok ⟨[], rfl, .noDeclarations⟩
      · exact Reads.ok ⟨[], rfl, .noDeclarations⟩
      · exact hmore

theorem blockBody_reads (bound : Nat) (ts : List Token) (hbound : ts.length < bound)
    (hlength : ts.length < n) :
    (blockBody bound declaration).Reads ts fun trees rest =>
      ∃ right us, ts = us ++ right :: rest ∧ right.kind = .rightBrace ∧
        StmtDerives true (.declarations trees) us := by
  refine Reads.bind ((declarations_reads hdeclaration bound ts hbound hlength).imp ?_)
  rintro trees rest ⟨us, rfl, htrees⟩
  refine Reads.bind (Reads.expect fun right rest' hrest hright => ?_)
  subst hrest
  exact Reads.ok ⟨right, us, rfl, hright, htrees⟩

theorem function_reads (bound : Nat) (what : String) (ts : List Token)
    (hbound : ts.length < bound) (hlength : ts.length ≤ n) :
    (function bound declaration what).Reads ts fun tree rest =>
      ∃ us, ts = us ++ rest ∧ StmtDerives true (.function tree) us := by
  refine Reads.bind (Reads.expect fun name ts₁ hts hname => ?_)
  subst hts
  refine Reads.bind (Reads.expect fun left ts₂ hts hleft => ?_)
  subst hts
  simp only [List.length_cons] at hbound hlength
  refine Reads.bind ((parameters_reads bound (by omega)).imp ?_)
  rintro params ts₃ ⟨us, rfl, hparams⟩
  refine Reads.bind (Reads.expect fun right ts₄ hts hright => ?_)
  subst hts
  refine Reads.bind (Reads.expect fun opening ts₅ hts hopening => ?_)
  subst hts
  simp only [List.length_append, List.length_cons] at hbound hlength
  refine Reads.bind ((blockBody_reads hdeclaration bound ts₅ (by omega) (by omega)).imp ?_)
  rintro body rest ⟨closing, vs, rfl, hclosing, hbody⟩
  exact Reads.ok ⟨_, by simp, .function hname hleft hright hopening hclosing hparams hbody⟩

/-- A method has more than one token, so that the bound is never short by one. -/
theorem methods_reads (bound : Nat) :
    ∀ ts : List Token, ts.length + 1 < bound → ts.length ≤ n →
      (methods declaration bound).Reads ts fun trees rest =>
        ∃ us, ts = us ++ rest ∧ StmtDerives true (.methods trees) us := by
  induction bound with
  | zero =>
      intro ts hbound
      exact absurd hbound (Nat.not_lt_zero _)
  | succ bound ih =>
      intro ts hbound hlength
      apply Reads.bind
      apply Reads.peek
      have hmore : (do
          let first ← function bound declaration "method"
          let rest ← methods declaration bound
          ok (first :: rest) : Parser (List Function)).Reads ts fun trees rest =>
            ∃ us, ts = us ++ rest ∧ StmtDerives true (.methods trees) us := by
        refine Reads.bind ((function_reads hdeclaration bound _ ts (by omega) hlength).imp ?_)
        rintro tree rest ⟨us, rfl, htree⟩
        have hpos : 0 < us.length := by
          rcases stmtDerives_startsWell htree with ⟨token, rest, rfl, _⟩
          exact Nat.succ_pos _
        simp only [List.length_append] at hbound hlength
        refine Reads.bind ((ih rest (by omega) (by omega)).imp ?_)
        rintro trees rest' ⟨vs, rfl, htrees⟩
        exact Reads.ok ⟨us ++ vs, by simp, .moreMethods htree htrees⟩
      split
      · exact Reads.ok ⟨[], rfl, .noMethods⟩
      · exact Reads.ok ⟨[], rfl, .noMethods⟩
      · exact hmore

theorem classDeclaration_reads {keyword : Token} (hkeyword : keyword.kind = .kwClass)
    (ts : List Token) (hlength : ts.length < n) :
    (classDeclaration (n + 1) declaration).Reads ts fun tree rest =>
      ∃ us, ts = us ++ rest ∧ StmtDerives true (.declaration false tree) (keyword :: us) := by
  refine Reads.bind (Reads.expect fun name ts₁ hts hname => ?_)
  subst hts
  refine Reads.bind ((superclass_reads ts₁).imp ?_)
  rintro parent ts₂ ⟨us, rfl, hparent⟩
  refine Reads.bind (Reads.expect fun left ts₃ hts hleft => ?_)
  subst hts
  simp only [List.length_cons, List.length_append] at hlength
  refine Reads.bind ((methods_reads hdeclaration (n + 1) ts₃ (by omega) (by omega)).imp ?_)
  rintro members ts₄ ⟨vs, rfl, hmembers⟩
  refine Reads.bind (Reads.expect fun right rest hts hright => ?_)
  subst hts
  exact Reads.ok ⟨name :: us ++ left :: vs ++ [right], by simp,
    .classDecl hkeyword hname hleft hright hparent hmembers⟩

end

/-!
# Statements with parts
-/

section

variable {n : Nat} {statement : Parser Stmt}
variable (hstatement : ∀ ts : List Token, ts.length < n → ReadsStatement statement ts)
include hstatement

theorem forStatement_reads {keyword : Token} (hkeyword : keyword.kind = .kwFor)
    (ts : List Token) (hlength : ts.length < n) :
    (forStatement (n + 1) statement).Reads ts fun tree rest =>
      ∃ isOpen us, ts = us ++ rest ∧
        StmtDerives true (.statement isOpen tree) (keyword :: us) ∧ StopsElse isOpen rest := by
  refine Reads.bind (Reads.expect fun left ts₁ hts hleft => ?_)
  subst hts
  simp only [List.length_cons] at hlength
  refine Reads.bind ((firstClause_reads (by omega)).imp ?_)
  rintro first ts₂ ⟨us, rfl, hfirst⟩
  simp only [List.length_append] at hlength
  refine Reads.bind ((optionalExpression_reads .semicolon (by omega)).imp ?_)
  rintro condition ts₃ ⟨vs, rfl, hcondition⟩
  refine Reads.bind (Reads.expect fun semicolon ts₄ hts hsemicolon => ?_)
  subst hts
  simp only [List.length_append, List.length_cons] at hlength
  refine Reads.bind ((optionalExpression_reads .rightParen (by omega)).imp ?_)
  rintro increment ts₅ ⟨ws, rfl, hincrement⟩
  refine Reads.bind (Reads.expect fun right ts₆ hts hright => ?_)
  subst hts
  simp only [List.length_append, List.length_cons] at hlength
  refine Reads.bind ((hstatement ts₆ (by omega)).imp ?_)
  rintro body rest ⟨isOpen, xs, rfl, hbody, hstops⟩
  have hloop := StmtDerives.forLoop hkeyword hleft hsemicolon hright hfirst hcondition
    hincrement hbody
  exact Reads.ok ⟨isOpen, _, by simp, hloop, hstops⟩

theorem ifStatement_reads {keyword : Token} (hkeyword : keyword.kind = .kwIf)
    (ts : List Token) (hlength : ts.length < n) :
    (ifStatement (n + 1) statement).Reads ts fun tree rest =>
      ∃ isOpen us, ts = us ++ rest ∧
        StmtDerives true (.statement isOpen tree) (keyword :: us) ∧ StopsElse isOpen rest := by
  refine Reads.bind (Reads.expect fun left ts₁ hts hleft => ?_)
  subst hts
  simp only [List.length_cons] at hlength
  refine Reads.bind ((expression_reads (n + 1) ts₁ (by omega)).imp ?_)
  rintro condition ts₂ ⟨us, rfl, hcondition, _⟩
  refine Reads.bind (Reads.expect fun right ts₃ hts hright => ?_)
  subst hts
  simp only [List.length_append, List.length_cons] at hlength
  refine Reads.bind ((hstatement ts₃ (by omega)).imp ?_)
  rintro thenBranch ts₄ ⟨thenOpen, vs, rfl, hthen, hstops⟩
  simp only [List.length_append] at hlength
  apply Reads.bind
  apply Reads.accept
  · intro hnext
    have hif := StmtDerives.ifThen hkeyword hleft hright hcondition hthen
    refine Reads.ok ⟨true, _, by simp, hif, ?_⟩
    intro _ token htoken hkind
    exact hnext token htoken (by simp [hkind])
  · intro otherwise ts₅ hts hotherwise
    subst hts
    have hotherwise : otherwise.kind = .kwElse := by simpa using hotherwise
    -- The `else` was left to this statement, so the branch in front of it is not open.
    have hclosed : thenOpen = false := by
      cases thenOpen with
      | false => rfl
      | true => exact absurd hotherwise (hstops rfl otherwise rfl)
    simp only [List.length_cons] at hlength
    refine Reads.bind ((hstatement ts₅ (by omega)).imp ?_)
    rintro elseBranch rest ⟨isOpen, ws, rfl, helse, hstopsElse⟩
    have hif := StmtDerives.ifElse hkeyword hleft hright hotherwise (fun _ => hclosed)
      hcondition hthen helse
    exact Reads.ok ⟨isOpen, _, by simp, hif, hstopsElse⟩

theorem whileStatement_reads {keyword : Token} (hkeyword : keyword.kind = .kwWhile)
    (ts : List Token) (hlength : ts.length < n) :
    (whileStatement (n + 1) statement).Reads ts fun tree rest =>
      ∃ isOpen us, ts = us ++ rest ∧
        StmtDerives true (.statement isOpen tree) (keyword :: us) ∧ StopsElse isOpen rest := by
  refine Reads.bind (Reads.expect fun left ts₁ hts hleft => ?_)
  subst hts
  simp only [List.length_cons] at hlength
  refine Reads.bind ((expression_reads (n + 1) ts₁ (by omega)).imp ?_)
  rintro condition ts₂ ⟨us, rfl, hcondition, _⟩
  refine Reads.bind (Reads.expect fun right ts₃ hts hright => ?_)
  subst hts
  simp only [List.length_append, List.length_cons] at hlength
  refine Reads.bind ((hstatement ts₃ (by omega)).imp ?_)
  rintro body rest ⟨isOpen, vs, rfl, hbody, hstops⟩
  have hloop := StmtDerives.whileLoop hkeyword hleft hright hcondition hbody
  exact Reads.ok ⟨isOpen, _, by simp, hloop, hstops⟩

end

/-!
# Any statement and any declaration
-/

section

variable {n : Nat} {statement : Parser Stmt} {declaration : Parser (Option Stmt)}
variable (hstatement : ∀ ts : List Token, ts.length < n → ReadsStatement statement ts)
variable (hdeclaration : ∀ ts : List Token, ts.length < n → ReadsKept declaration ts)
include hstatement hdeclaration

theorem anyStatement_reads (ts : List Token) (hlength : ts.length ≤ n) :
    ReadsStatement (anyStatement (n + 1) statement declaration) ts := by
  apply Reads.bind
  apply Reads.accept
  · intro _
    refine (endingIn_reads .expression _ (Nat.lt_succ_of_le hlength)).imp ?_
    rintro tree rest ⟨inner, semicolon, us, rfl, rfl, hsemicolon, hinner⟩
    exact ⟨false, us ++ [semicolon], by simp, .expression hsemicolon hinner,
      stopsElse_closed rest⟩
  · intro token ts' hts hkind
    subst hts
    simp only [List.length_cons] at hlength
    have hrest : ts'.length < n := by omega
    have hbound : ts'.length < n + 1 := by omega
    simp only [List.mem_cons, List.not_mem_nil, or_false] at hkind
    rcases hkind with hkind | hkind | hkind | hkind | hkind | hkind <;> simp only [hkind]
    · refine (forStatement_reads hstatement hkind ts' hrest).imp ?_
      rintro tree rest ⟨isOpen, us, rfl, htree, hstops⟩
      exact ⟨isOpen, token :: us, rfl, htree, hstops⟩
    · refine (ifStatement_reads hstatement hkind ts' hrest).imp ?_
      rintro tree rest ⟨isOpen, us, rfl, htree, hstops⟩
      exact ⟨isOpen, token :: us, rfl, htree, hstops⟩
    · refine (endingIn_reads .print _ hbound).imp ?_
      rintro tree rest ⟨inner, semicolon, us, rfl, rfl, hsemicolon, hinner⟩
      exact ⟨false, token :: us ++ [semicolon], by simp, .print hkind hsemicolon hinner,
        stopsElse_closed rest⟩
    · refine (returnStatement_reads token hbound).imp ?_
      rintro tree rest ⟨value, semicolon, us, rfl, rfl, hsemicolon, hvalue⟩
      exact ⟨false, token :: us ++ [semicolon], by simp, .ret hkind hsemicolon hvalue,
        stopsElse_closed rest⟩
    · refine (whileStatement_reads hstatement hkind ts' hrest).imp ?_
      rintro tree rest ⟨isOpen, us, rfl, htree, hstops⟩
      exact ⟨isOpen, token :: us, rfl, htree, hstops⟩
    · refine Reads.map ((blockBody_reads hdeclaration (n + 1) ts' hbound hrest).imp ?_)
      rintro body rest ⟨right, us, rfl, hright, hbody⟩
      exact ⟨false, token :: us ++ [right], by simp, .block hkind hright hbody,
        stopsElse_closed rest⟩

theorem anyDeclaration_reads (ts : List Token) (hlength : ts.length ≤ n) :
    ReadsDeclaration (anyDeclaration (n + 1) statement declaration) ts := by
  apply Reads.bind
  apply Reads.accept
  · intro _
    refine (anyStatement_reads hstatement hdeclaration ts hlength).imp ?_
    rintro tree rest ⟨isOpen, us, rfl, htree, hstops⟩
    exact ⟨isOpen, us, rfl, .statement htree, hstops⟩
  · intro token ts' hts hkind
    subst hts
    simp only [List.length_cons] at hlength
    simp only [List.mem_cons, List.not_mem_nil, or_false] at hkind
    rcases hkind with hkind | hkind | hkind <;> simp only [hkind]
    · refine (classDeclaration_reads hdeclaration hkind ts' (by omega)).imp ?_
      rintro tree rest ⟨us, rfl, htree⟩
      exact ⟨false, token :: us, rfl, htree, stopsElse_closed rest⟩
    · refine Reads.map
        ((function_reads hdeclaration (n + 1) _ ts' (by omega) (by omega)).imp ?_)
      rintro tree rest ⟨us, rfl, htree⟩
      exact ⟨false, token :: us, rfl, .funDecl hkind htree, stopsElse_closed rest⟩
    · refine (varDeclaration_reads (by omega)).imp ?_
      rintro tree rest ⟨us, rfl, htree⟩
      exact ⟨false, token :: us, rfl, .varDecl hkind htree, stopsElse_closed rest⟩

end

/-- The bound on the depth of statements suffices if it exceeds the number of tokens. -/
theorem statement_declaration_reads (n : Nat) :
    (∀ ts : List Token, ts.length < n → ReadsStatement (statement n) ts) ∧
      ∀ ts : List Token, ts.length < n → ReadsKept (declaration n) ts := by
  induction n with
  | zero =>
      constructor <;> intro ts hlength <;> exact absurd hlength (Nat.not_lt_zero _)
  | succ n ih =>
      rcases ih with ⟨hstatement, hdeclaration⟩
      constructor
      · intro ts hlength
        exact anyStatement_reads hstatement hdeclaration ts (Nat.le_of_lt_succ hlength)
      · intro ts hlength
        exact recovering_reads
          (anyDeclaration_reads hstatement hdeclaration ts (Nat.le_of_lt_succ hlength))

theorem program_reads {n : Nat} {declaration : Parser (Option Stmt)}
    (hdeclaration : ∀ ts : List Token, ts.length < n → ReadsKept declaration ts) (bound : Nat) :
    ∀ ts : List Token, ts.length < bound → ts.length < n →
      (program declaration bound).Reads ts fun trees rest =>
        rest = [] ∧ Program true trees ts := by
  induction bound with
  | zero =>
      intro ts hbound
      exact absurd hbound (Nat.not_lt_zero _)
  | succ bound ih =>
      intro ts hbound hlength
      apply Reads.bind
      apply Reads.peek
      cases ts with
      | nil => exact Reads.ok ⟨rfl, .noDeclarations⟩
      | cons token ts =>
          refine Reads.bind ((hdeclaration (token :: ts) hlength).imp ?_)
          rintro tree? rest ⟨tree, isOpen, us, rfl, hus, htree, _⟩
          rw [hus] at hbound hlength ⊢
          have hpos := List.length_pos_iff.mpr (declaration_ne_nil htree)
          simp only [List.length_append] at hbound hlength
          refine Reads.bind ((ih rest (by omega) (by omega)).imp ?_)
          rintro trees rest' ⟨rfl, htrees⟩
          exact Reads.ok ⟨rfl, .moreDeclarations htree htrees⟩

end Parser

/-- A program without reports has been read as a greedy derivation from all its tokens. -/
theorem program_of_silent {ts : List Token} (hsilent : (parse ts).reports = []) :
    ∃ trees, parse ts = ⟨[], some trees, []⟩ ∧ Grammar.Program true trees ts := by
  have hdeclaration := (Parser.statement_declaration_reads (ts.length + 1)).right
  rcases Parser.program_reads hdeclaration (ts.length + 1) ts (Nat.lt_succ_self _)
    (Nat.lt_succ_self _) hsilent with ⟨trees, rest, hresult, rfl, htrees⟩
  exact ⟨trees, hresult, htrees⟩

end Lox
