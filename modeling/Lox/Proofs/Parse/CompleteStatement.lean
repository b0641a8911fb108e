import Lox.Proofs.Grammar.Greedy
import Lox.Proofs.Parse.Complete
import Lox.Proofs.Parse.SoundStatement

/-!
# The parser accepts exactly the grammar

First the parser finds every greedy derivation of a program.  Behind an open
statement there must not be an `else`, and behind a list of declarations there
has to be the end or a closing brace.  Together with the soundness of the parser
and the greedy derivations of all programs, this makes the parser silent exactly
on the programs of the grammar, and the trees it returns are those of the only
greedy derivation.
-/

namespace Lox
namespace Parser

open Grammar

/-!
# Parts of statements
-/

section

variable {n : Nat} {ts rest : List Token}

theorem ends_of_kind {token : Token} {kind : TokenKind} (hkind : token.kind = kind)
    (hends : Level.assignment.rank < kind.continuesAt) (rest : List Token) :
    ∀ token' ∈ (token :: rest).head?, Level.assignment.rank < token'.kind.continuesAt := by
  intro token' htoken'
  cases htoken'
  rw [hkind]
  exact hends

/-- An expression in front of a token that ends it and does not start one. -/
theorem optional_complete {tree : Option Expr} {next : Token} {kind : TokenKind}
    (htree : Optional true tree ts) (hnext : next.kind = kind)
    (hends : Level.assignment.rank < kind.continuesAt) (hstarts : kind.startsExpression = false)
    (hlength : (ts ++ next :: rest).length < n) :
    unlessNext kind (expression n) (ts ++ next :: rest) = ⟨[], some tree, next :: rest⟩ := by
  cases htree with
  | missing =>
      rw [List.nil_append, unlessNext, bind_of_result (peek_result _), List.head?_cons,
        Option.map_some, hnext, if_pos rfl]
      rfl
  | present htree =>
      rcases derives_head htree with ⟨token, us, rfl, htoken⟩
      have hne : ¬ some token.kind = some kind := by
        intro hkind
        injection hkind with hkind
        rw [hkind, hstarts] at htoken
        cases htoken
      have hfound := expression_complete htree hlength (ends_of_kind hnext hends rest)
      rw [unlessNext, bind_of_result (peek_result _), List.cons_append, List.head?_cons,
        Option.map_some, if_neg hne]
      exact map_of_result _ hfound

theorem variable_complete {tree : Stmt} (htree : Variable true tree ts)
    (hlength : (ts ++ rest).length < n) :
    varDeclaration n (ts ++ rest) = ⟨[], some tree, rest⟩ := by
  cases htree with
  | @plain name semicolon hname hsemicolon =>
      have hnext : accept [.equal] (semicolon :: rest) = ⟨[], some none, semicolon :: rest⟩ :=
        accept_of_not_mem (by simp [hsemicolon])
      calc varDeclaration n (name :: semicolon :: rest)
          = _ := bind_of_result (expect_of_kind _ _ hname)
        _ = _ := bind_of_result hnext
        _ = _ := bind_of_result rfl
        _ = _ := bind_of_result (expect_of_kind _ _ hsemicolon)
  | @initialised name equals semicolon initial us hname hequals hsemicolon hinitial =>
      have happend : name :: equals :: us ++ [semicolon] ++ rest =
          name :: equals :: (us ++ semicolon :: rest) := by simp
      rw [happend] at hlength ⊢
      simp only [List.length_cons] at hlength
      have hfound := expression_complete (n := n) hinitial (by omega)
        (ends_of_kind hsemicolon (by decide) rest)
      have haccept := accept_of_mem (us ++ semicolon :: rest)
        (show equals.kind ∈ [.equal] by simp [hequals])
      calc varDeclaration n (name :: equals :: (us ++ semicolon :: rest))
          = _ := bind_of_result (expect_of_kind _ _ hname)
        _ = _ := bind_of_result haccept
        _ = _ := bind_of_result (map_of_result _ hfound)
        _ = _ := bind_of_result (expect_of_kind _ _ hsemicolon)

theorem endingIn_complete (form : Expr → Stmt) (what : String) {tree : Expr} {semicolon : Token}
    (hsemicolon : semicolon.kind = .semicolon) (htree : Expression true tree ts)
    (hlength : (ts ++ semicolon :: rest).length < n) :
    endingIn form what n (ts ++ semicolon :: rest) = ⟨[], some (form tree), rest⟩ := by
  have hfound := expression_complete htree hlength (ends_of_kind hsemicolon (by decide) rest)
  calc endingIn form what n (ts ++ semicolon :: rest)
      = _ := bind_of_result hfound
    _ = _ := bind_of_result (expect_of_kind _ _ hsemicolon)

theorem firstClause_complete {tree : Option Stmt} (htree : FirstClause true tree ts)
    (hlength : (ts ++ rest).length < n) :
    firstClause n (ts ++ rest) = ⟨[], some tree, rest⟩ := by
  cases htree with
  | @missing semicolon hsemicolon =>
      have haccept := accept_of_mem rest
        (show semicolon.kind ∈ [.semicolon, .kwVar] by simp [hsemicolon])
      rw [List.singleton_append, firstClause, bind_of_result haccept]
      simp only [hsemicolon, if_true]
      rfl
  | @declaration keyword tree us hkeyword hvariable =>
      have haccept := accept_of_mem (us ++ rest)
        (show keyword.kind ∈ [.semicolon, .kwVar] by simp [hkeyword])
      have hne : ¬ keyword.kind = .semicolon := by simp [hkeyword]
      simp only [List.cons_append, List.length_cons] at hlength
      rw [List.cons_append, firstClause, bind_of_result haccept]
      simp only [if_neg hne]
      exact map_of_result _ (variable_complete hvariable (by omega))
  | @expression semicolon tree us hsemicolon hexpression =>
      rcases derives_head hexpression with ⟨token, us', rfl, htoken⟩
      have hnext : accept [.semicolon, .kwVar] (token :: us' ++ semicolon :: rest) =
          ⟨[], some none, token :: us' ++ semicolon :: rest⟩ := by
        apply accept_of_not_mem
        intro token' htoken'
        cases htoken'
        intro hkind
        simp only [List.mem_cons, List.not_mem_nil, or_false] at hkind
        rcases hkind with hkind | hkind <;> rw [hkind] at htoken <;> cases htoken
      rw [List.append_assoc, List.singleton_append] at hlength ⊢
      rw [firstClause, bind_of_result hnext]
      exact map_of_result _ (endingIn_complete .expression _ hsemicolon hexpression hlength)

theorem parameters_complete {params : List Token} {right : Token} {bound : Nat}
    (hparams : Parameters params ts) (hright : right.kind = .rightParen)
    (hbound : (ts ++ right :: rest).length ≤ bound) :
    items (expect .identifier "parameter name") "parameters" bound (ts ++ right :: rest) =
      ⟨[], some params, right :: rest⟩ := by
  cases hparams with
  | none => exact items_of_paren hright
  | some hcount hnames =>
      have hitem : FindsItem ((ts ++ right :: rest).length + 1)
          (expect .identifier "parameter name") Identifier := by
        rintro name us rest next ⟨hname, rfl⟩ _ _
        exact expect_of_kind _ _ hname
      have hhead : ∃ token us, ts = token :: us ∧ token.kind ≠ .rightParen := by
        cases hnames with
        | last hname =>
            rcases hname with ⟨hname, rfl⟩
            exact ⟨_, _, rfl, by simp [hname]⟩
        | more _ hname _ =>
            rcases hname with ⟨hname, rfl⟩
            exact ⟨_, _, rfl, by simp [hname]⟩
      rcases hhead with ⟨token, us, hts, htoken⟩
      have hfound := items_complete hitem "parameters" hnames bound 1 right rest hright
        (Nat.lt_succ_self _) hbound (by omega)
      rw [hts] at hfound ⊢
      exact (items_of_item htoken).trans hfound

theorem superclass_complete {parent : Option Reference} {left : Token}
    (hparent : Superclass parent ts) (hleft : left.kind = .leftBrace) :
    superclass (ts ++ left :: rest) = ⟨[], some parent, left :: rest⟩ := by
  cases hparent with
  | missing =>
      have hnext : accept [.less] (left :: rest) = ⟨[], some none, left :: rest⟩ :=
        accept_of_not_mem (by simp [hleft])
      exact bind_of_result hnext
  | @present less name hless hname =>
      have haccept := accept_of_mem (name :: left :: rest)
        (show less.kind ∈ [.less] by simp [hless])
      exact (bind_of_result haccept).trans (bind_of_result (expect_of_kind _ _ hname))

end

/-!
# The first token decides
-/

section

variable {n : Nat} {statement : Parser Stmt} {declaration : Parser (Option Stmt)}
variable {token : Token} (ts : List Token)

theorem anyStatement_of_expression (htoken : token.kind.startsExpression = true) :
    anyStatement n statement declaration (token :: ts) = expressionStatement n (token :: ts) := by
  refine bind_of_result (accept_of_not_mem ?_)
  intro token' htoken'
  cases htoken'
  intro hkind
  simp only [List.mem_cons, List.not_mem_nil, or_false] at hkind
  rcases hkind with hkind | hkind | hkind | hkind | hkind | hkind <;>
    rw [hkind] at htoken <;> cases htoken

theorem anyStatement_of_keyword
    (hkind : token.kind ∈ [.kwFor, .kwIf, .kwPrint, .kwReturn, .kwWhile, .leftBrace]) :
    anyStatement n statement declaration (token :: ts) =
      (match token.kind with
        | .kwFor => forStatement n statement
        | .kwIf => ifStatement n statement
        | .kwPrint => printStatement n
        | .kwReturn => returnStatement n token
        | .kwWhile => whileStatement n statement
        | _ => .block <$> blockBody n declaration : Parser Stmt) ts :=
  bind_of_result (accept_of_mem ts hkind)

theorem anyDeclaration_of_statement (htoken : token.kind.opensStatement = true) :
    anyDeclaration n statement declaration (token :: ts) =
      anyStatement n statement declaration (token :: ts) := by
  refine bind_of_result (accept_of_not_mem ?_)
  intro token' htoken'
  cases htoken'
  intro hkind
  simp only [List.mem_cons, List.not_mem_nil, or_false] at hkind
  rcases hkind with hkind | hkind | hkind <;> rw [hkind] at htoken <;> cases htoken

theorem anyDeclaration_of_keyword (hkind : token.kind ∈ [.kwClass, .kwFun, .kwVar]) :
    anyDeclaration n statement declaration (token :: ts) =
      (match token.kind with
        | .kwClass => classDeclaration n declaration
        | .kwFun => .funDecl <$> function n declaration "function"
        | _ => varDeclaration n : Parser Stmt) ts :=
  bind_of_result (accept_of_mem ts hkind)

end

theorem recovering_of_result {p : Parser α} {ts rest : List Token} {value : α}
    (hp : p ts = ⟨[], some value, rest⟩) :
    recovering p ts = ⟨[], some (some value), rest⟩ := by
  simp only [recovering, hp]

/-!
# Phrases in front of what ends them
-/

def StmtFound : StmtPhrase → List Token → Prop
  | .statement isOpen tree, ts =>
      ∀ (n : Nat) (rest : List Token), (ts ++ rest).length < n → StopsElse isOpen rest →
        statement n (ts ++ rest) = ⟨[], some tree, rest⟩
  | .declaration isOpen tree, ts =>
      ∀ (n : Nat) (rest : List Token), (ts ++ rest).length < n → StopsElse isOpen rest →
        declaration n (ts ++ rest) = ⟨[], some (some tree), rest⟩
  | .declarations trees, ts =>
      ∀ (n bound : Nat) (right : Token) (rest : List Token), right.kind = .rightBrace →
        (ts ++ right :: rest).length < n → (ts ++ right :: rest).length ≤ bound →
        declarations (declaration n) bound (ts ++ right :: rest) = ⟨[], some trees, right :: rest⟩
  | .function tree, ts =>
      ∀ (n bound : Nat) (what : String) (rest : List Token), (ts ++ rest).length ≤ n →
        (ts ++ rest).length ≤ bound + 1 →
        function bound (declaration n) what (ts ++ rest) = ⟨[], some tree, rest⟩
  | .methods trees, ts =>
      ∀ (n bound : Nat) (right : Token) (rest : List Token), right.kind = .rightBrace →
        (ts ++ right :: rest).length ≤ n → (ts ++ right :: rest).length ≤ bound →
        methods (declaration n) bound (ts ++ right :: rest) = ⟨[], some trees, right :: rest⟩

theorem blockBody_complete {body : List Stmt} {ts rest : List Token} {right : Token} {n bound : Nat}
    (hright : right.kind = .rightBrace) (hbody : StmtFound (.declarations body) ts)
    (hlength : (ts ++ right :: rest).length < n) (hbound : (ts ++ right :: rest).length ≤ bound) :
    blockBody bound (declaration n) (ts ++ right :: rest) = ⟨[], some body, rest⟩ :=
  (bind_of_result (hbody n bound right rest hright hlength hbound)).trans
    (bind_of_result (expect_of_kind _ _ hright))

theorem declarations_of_brace {declaration : Parser (Option Stmt)} {bound : Nat} {right : Token}
    {rest : List Token} (hright : right.kind = .rightBrace) (hbound : 0 < bound) :
    declarations declaration bound (right :: rest) = ⟨[], some [], right :: rest⟩ := by
  cases bound with
  | zero => cases hbound
  | succ bound =>
      rw [declarations, bind_of_result (peek_result _), List.head?_cons, Option.map_some, hright]
      rfl

theorem declarations_of_declaration {declaration : Parser (Option Stmt)} {bound : Nat}
    {token : Token} {ts : List Token} (htoken : token.kind.opensDeclaration = true) :
    declarations declaration (bound + 1) (token :: ts) =
      (do
        let first ← declaration
        let rest ← declarations declaration bound
        ok (first.toList ++ rest) : Parser (List Stmt)) (token :: ts) := by
  rw [declarations, bind_of_result (peek_result _), List.head?_cons, Option.map_some]
  cases hkind : token.kind <;> first | rfl | (rw [hkind] at htoken; cases htoken)

theorem methods_of_brace {declaration : Parser (Option Stmt)} {bound : Nat} {right : Token}
    {rest : List Token} (hright : right.kind = .rightBrace) (hbound : 0 < bound) :
    methods declaration bound (right :: rest) = ⟨[], some [], right :: rest⟩ := by
  cases bound with
  | zero => cases hbound
  | succ bound =>
      rw [methods, bind_of_result (peek_result _), List.head?_cons, Option.map_some, hright]
      rfl

theorem methods_of_method {declaration : Parser (Option Stmt)} {bound : Nat} {token : Token}
    {ts : List Token} (htoken : token.kind = .identifier) :
    methods declaration (bound + 1) (token :: ts) =
      (do
        let first ← function bound declaration "method"
        let rest ← methods declaration bound
        ok (first :: rest) : Parser (List Function)) (token :: ts) := by
  rw [methods, bind_of_result (peek_result _), List.head?_cons, Option.map_some, htoken]

/-!
# Statements
-/

section

variable {keyword left right : Token} {ts us : List Token}

theorem found_expression {semicolon : Token} {inner : Expr}
    (hsemicolon : semicolon.kind = .semicolon) (hinner : Expression true inner ts) :
    StmtFound (.statement false (.expression inner)) (ts ++ [semicolon]) := by
  intro n rest hlength _
  rw [List.append_assoc, List.singleton_append] at hlength ⊢
  cases n with
  | zero => exact absurd hlength (Nat.not_lt_zero _)
  | succ n =>
      have hfound := endingIn_complete .expression "';' after expression" hsemicolon hinner hlength
      rcases derives_head hinner with ⟨token, us, rfl, htoken⟩
      exact (anyStatement_of_expression _ htoken).trans hfound

theorem found_print {semicolon : Token} {inner : Expr} (hkeyword : keyword.kind = .kwPrint)
    (hsemicolon : semicolon.kind = .semicolon) (hinner : Expression true inner ts) :
    StmtFound (.statement false (.print inner)) (keyword :: ts ++ [semicolon]) := by
  intro n rest hlength _
  have happend : keyword :: ts ++ [semicolon] ++ rest = keyword :: (ts ++ semicolon :: rest) := by
    simp
  rw [happend] at hlength ⊢
  cases n with
  | zero => exact absurd hlength (Nat.not_lt_zero _)
  | succ n =>
      refine (anyStatement_of_keyword _ (by simp [hkeyword])).trans ?_
      simp only [hkeyword]
      exact endingIn_complete .print _ hsemicolon hinner (Nat.lt_of_succ_lt hlength)

theorem found_ret {semicolon : Token} {value : Option Expr} (hkeyword : keyword.kind = .kwReturn)
    (hsemicolon : semicolon.kind = .semicolon) (hvalue : Optional true value ts) :
    StmtFound (.statement false (.ret keyword value)) (keyword :: ts ++ [semicolon]) := by
  intro n rest hlength _
  have happend : keyword :: ts ++ [semicolon] ++ rest = keyword :: (ts ++ semicolon :: rest) := by
    simp
  rw [happend] at hlength ⊢
  cases n with
  | zero => exact absurd hlength (Nat.not_lt_zero _)
  | succ n =>
      have hfound := optional_complete (n := n + 1) hvalue hsemicolon (by decide) rfl
        (Nat.lt_of_succ_lt hlength)
      refine (anyStatement_of_keyword _ (by simp [hkeyword])).trans ?_
      simp only [hkeyword]
      exact (bind_of_result hfound).trans (bind_of_result (expect_of_kind _ _ hsemicolon))

theorem found_block {body : List Stmt} (hleft : left.kind = .leftBrace)
    (hright : right.kind = .rightBrace) (hbody : StmtFound (.declarations body) ts) :
    StmtFound (.statement false (.block body)) (left :: ts ++ [right]) := by
  intro n rest hlength _
  have happend : left :: ts ++ [right] ++ rest = left :: (ts ++ right :: rest) := by simp
  rw [happend] at hlength ⊢
  cases n with
  | zero => exact absurd hlength (Nat.not_lt_zero _)
  | succ n =>
      simp only [List.length_cons] at hlength
      have hfound := blockBody_complete (n := n) hright hbody (Nat.lt_of_succ_lt_succ hlength)
        (Nat.le_of_lt (Nat.lt_of_succ_lt hlength))
      refine (anyStatement_of_keyword _ (by simp [hleft])).trans ?_
      simp only [hleft]
      exact map_of_result _ hfound

theorem found_whileLoop {condition : Expr} {isOpen : Bool} {body : Stmt}
    (hkeyword : keyword.kind = .kwWhile) (hleft : left.kind = .leftParen)
    (hright : right.kind = .rightParen) (hcondition : Expression true condition ts)
    (hbody : StmtFound (.statement isOpen body) us) :
    StmtFound (.statement isOpen (.whileLoop condition body))
      (keyword :: left :: ts ++ right :: us) := by
  intro n rest hlength hstops
  have happend : keyword :: left :: ts ++ right :: us ++ rest =
      keyword :: left :: (ts ++ right :: (us ++ rest)) := by simp
  rw [happend] at hlength ⊢
  cases n with
  | zero => exact absurd hlength (Nat.not_lt_zero _)
  | succ n =>
      simp only [List.length_cons, List.length_append] at hlength
      have hfound : expression (n + 1) (ts ++ right :: (us ++ rest)) =
          ⟨[], some condition, right :: (us ++ rest)⟩ := by
        refine expression_complete hcondition ?_ (ends_of_kind hright (by decide) _)
        simp only [List.length_cons, List.length_append]
        omega
      have hfoundBody := hbody n rest (by simp only [List.length_append]; omega) hstops
      refine (anyStatement_of_keyword _ (by simp [hkeyword])).trans ?_
      simp only [hkeyword]
      calc whileStatement (n + 1) (statement n) (left :: (ts ++ right :: (us ++ rest)))
          = _ := bind_of_result (expect_of_kind _ _ hleft)
        _ = _ := bind_of_result hfound
        _ = _ := bind_of_result (expect_of_kind _ _ hright)
        _ = _ := bind_of_result hfoundBody

theorem found_forLoop {semicolon : Token} {first : Option Stmt} {condition increment : Option Expr}
    {isOpen : Bool} {body : Stmt} {vs ws : List Token} (hkeyword : keyword.kind = .kwFor)
    (hleft : left.kind = .leftParen) (hsemicolon : semicolon.kind = .semicolon)
    (hright : right.kind = .rightParen) (hfirst : FirstClause true first ts)
    (hcondition : Optional true condition us) (hincrement : Optional true increment vs)
    (hbody : StmtFound (.statement isOpen body) ws) :
    StmtFound (.statement isOpen (.forLoop first condition increment body))
      (keyword :: left :: ts ++ us ++ semicolon :: vs ++ right :: ws) := by
  intro n rest hlength hstops
  have happend : keyword :: left :: ts ++ us ++ semicolon :: vs ++ right :: ws ++ rest =
      keyword :: left :: (ts ++ (us ++ semicolon :: (vs ++ right :: (ws ++ rest)))) := by simp
  rw [happend] at hlength ⊢
  cases n with
  | zero => exact absurd hlength (Nat.not_lt_zero _)
  | succ n =>
      simp only [List.length_cons, List.length_append] at hlength
      have hfoundFirst : firstClause (n + 1)
          (ts ++ (us ++ semicolon :: (vs ++ right :: (ws ++ rest)))) =
          ⟨[], some first, us ++ semicolon :: (vs ++ right :: (ws ++ rest))⟩ := by
        refine firstClause_complete hfirst ?_
        simp only [List.length_cons, List.length_append]
        omega
      have hfoundCondition : unlessNext .semicolon (expression (n + 1))
          (us ++ semicolon :: (vs ++ right :: (ws ++ rest))) =
          ⟨[], some condition, semicolon :: (vs ++ right :: (ws ++ rest))⟩ := by
        refine optional_complete hcondition hsemicolon (by decide) rfl ?_
        simp only [List.length_cons, List.length_append]
        omega
      have hfoundIncrement : unlessNext .rightParen (expression (n + 1))
          (vs ++ right :: (ws ++ rest)) = ⟨[], some increment, right :: (ws ++ rest)⟩ := by
        refine optional_complete hincrement hright (by decide) rfl ?_
        simp only [List.length_cons, List.length_append]
        omega
      have hfoundBody := hbody n rest (by simp only [List.length_append]; omega) hstops
      refine (anyStatement_of_keyword _ (by simp [hkeyword])).trans ?_
      simp only [hkeyword]
      calc forStatement (n + 1) (statement n)
            (left :: (ts ++ (us ++ semicolon :: (vs ++ right :: (ws ++ rest)))))
          = _ := bind_of_result (expect_of_kind _ _ hleft)
        _ = _ := bind_of_result hfoundFirst
        _ = _ := bind_of_result hfoundCondition
        _ = _ := bind_of_result (expect_of_kind _ _ hsemicolon)
        _ = _ := bind_of_result hfoundIncrement
        _ = _ := bind_of_result (expect_of_kind _ _ hright)
        _ = _ := bind_of_result hfoundBody

theorem ifStatement_head {condition : Expr} {thenOpen : Bool} {thenBranch : Stmt} {n : Nat}
    {rest : List Token} (hkeyword : keyword.kind = .kwIf) (hleft : left.kind = .leftParen)
    (hright : right.kind = .rightParen) (hcondition : Expression true condition ts)
    (hthen : StmtFound (.statement thenOpen thenBranch) us) (hstops : StopsElse thenOpen rest)
    (hlength : (keyword :: left :: (ts ++ right :: (us ++ rest))).length < n + 1) :
    statement (n + 1) (keyword :: left :: (ts ++ right :: (us ++ rest))) =
      (do
        match ← accept [.kwElse] with
        | none => ok (.ifElse condition thenBranch none)
        | some _ =>
            let elseBranch ← statement n
            ok (.ifElse condition thenBranch (some elseBranch)) : Parser Stmt) rest := by
  simp only [List.length_cons, List.length_append] at hlength
  have hfound : expression (n + 1) (ts ++ right :: (us ++ rest)) =
      ⟨[], some condition, right :: (us ++ rest)⟩ := by
    refine expression_complete hcondition ?_ (ends_of_kind hright (by decide) _)
    simp only [List.length_cons, List.length_append]
    omega
  have hfoundThen := hthen n rest (by simp only [List.length_append]; omega) hstops
  refine (anyStatement_of_keyword _ (by simp [hkeyword])).trans ?_
  simp only [hkeyword]
  calc ifStatement (n + 1) (statement n) (left :: (ts ++ right :: (us ++ rest)))
      = _ := bind_of_result (expect_of_kind _ _ hleft)
    _ = _ := bind_of_result hfound
    _ = _ := bind_of_result (expect_of_kind _ _ hright)
    _ = _ := bind_of_result hfoundThen

theorem found_ifThen {condition : Expr} {thenOpen : Bool} {thenBranch : Stmt}
    (hkeyword : keyword.kind = .kwIf) (hleft : left.kind = .leftParen)
    (hright : right.kind = .rightParen) (hcondition : Expression true condition ts)
    (hthen : StmtFound (.statement thenOpen thenBranch) us) :
    StmtFound (.statement true (.ifElse condition thenBranch none))
      (keyword :: left :: ts ++ right :: us) := by
  intro n rest hlength hstops
  have happend : keyword :: left :: ts ++ right :: us ++ rest =
      keyword :: left :: (ts ++ right :: (us ++ rest)) := by simp
  rw [happend] at hlength ⊢
  cases n with
  | zero => exact absurd hlength (Nat.not_lt_zero _)
  | succ n =>
      have hnext : accept [.kwElse] rest = ⟨[], some none, rest⟩ :=
        accept_of_not_mem fun token htoken => by simpa using hstops rfl token htoken
      rw [ifStatement_head hkeyword hleft hright hcondition hthen (fun _ => hstops rfl) hlength]
      exact bind_of_result hnext

theorem found_ifElse {otherwise : Token} {condition : Expr} {isOpen : Bool}
    {thenBranch elseBranch : Stmt} {vs : List Token} (hkeyword : keyword.kind = .kwIf)
    (hleft : left.kind = .leftParen) (hright : right.kind = .rightParen)
    (hotherwise : otherwise.kind = .kwElse) (hcondition : Expression true condition ts)
    (hthen : StmtFound (.statement false thenBranch) us)
    (helse : StmtFound (.statement isOpen elseBranch) vs) :
    StmtFound (.statement isOpen (.ifElse condition thenBranch (some elseBranch)))
      (keyword :: left :: ts ++ right :: us ++ otherwise :: vs) := by
  intro n rest hlength hstops
  have happend : keyword :: left :: ts ++ right :: us ++ otherwise :: vs ++ rest =
      keyword :: left :: (ts ++ right :: (us ++ otherwise :: (vs ++ rest))) := by simp
  rw [happend] at hlength ⊢
  cases n with
  | zero => exact absurd hlength (Nat.not_lt_zero _)
  | succ n =>
      have haccept := accept_of_mem (vs ++ rest)
        (show otherwise.kind ∈ [.kwElse] by simp [hotherwise])
      rw [ifStatement_head hkeyword hleft hright hcondition hthen
        (fun hopen => by cases hopen) hlength]
      simp only [List.length_cons, List.length_append] at hlength
      have hfoundElse := helse n rest (by simp only [List.length_append]; omega) hstops
      exact (bind_of_result haccept).trans (bind_of_result hfoundElse)

end

/-!
# Declarations
-/

section

variable {keyword name left right : Token} {ts us : List Token}

theorem found_statement {isOpen : Bool} {tree : Stmt}
    (hderives : StmtDerives true (.statement isOpen tree) ts)
    (htree : StmtFound (.statement isOpen tree) ts) : StmtFound (.declaration isOpen tree) ts := by
  intro n rest hlength hstops
  cases n with
  | zero => exact absurd hlength (Nat.not_lt_zero _)
  | succ n =>
      have hfound := htree (n + 1) rest hlength hstops
      rcases stmtDerives_startsWell hderives with ⟨token, us, rfl, htoken⟩
      exact recovering_of_result ((anyDeclaration_of_statement _ htoken).trans hfound)

theorem found_varDecl {tree : Stmt} (hkeyword : keyword.kind = .kwVar)
    (htree : Variable true tree ts) : StmtFound (.declaration false tree) (keyword :: ts) := by
  intro n rest hlength _
  cases n with
  | zero => exact absurd hlength (Nat.not_lt_zero _)
  | succ n =>
      have hfound := variable_complete (n := n + 1) htree (Nat.lt_of_succ_lt hlength)
      refine recovering_of_result ((anyDeclaration_of_keyword _ (by simp [hkeyword])).trans ?_)
      simp only [hkeyword]
      exact hfound

theorem found_funDecl {tree : Function} (hkeyword : keyword.kind = .kwFun)
    (htree : StmtFound (.function tree) ts) :
    StmtFound (.declaration false (.funDecl tree)) (keyword :: ts) := by
  intro n rest hlength _
  cases n with
  | zero => exact absurd hlength (Nat.not_lt_zero _)
  | succ n =>
      simp only [List.cons_append, List.length_cons] at hlength
      have hfound := htree n (n + 1) "function" rest (by omega) (by omega)
      refine recovering_of_result ((anyDeclaration_of_keyword _ (by simp [hkeyword])).trans ?_)
      simp only [hkeyword]
      exact map_of_result _ hfound

theorem found_classDecl {parent : Option Reference} {members : List Function}
    (hkeyword : keyword.kind = .kwClass) (hname : name.kind = .identifier)
    (hleft : left.kind = .leftBrace) (hright : right.kind = .rightBrace)
    (hparent : Superclass parent ts) (hmembers : StmtFound (.methods members) us) :
    StmtFound (.declaration false (.classDecl name parent members))
      (keyword :: name :: ts ++ left :: us ++ [right]) := by
  intro n rest hlength _
  have happend : keyword :: name :: ts ++ left :: us ++ [right] ++ rest =
      keyword :: name :: (ts ++ left :: (us ++ right :: rest)) := by simp
  rw [happend] at hlength ⊢
  cases n with
  | zero => exact absurd hlength (Nat.not_lt_zero _)
  | succ n =>
      have hshort : (us ++ right :: rest).length ≤ n := by
        simp only [List.length_cons, List.length_append] at hlength ⊢
        omega
      have hfound := hmembers n (n + 1) right rest hright hshort (Nat.le_succ_of_le hshort)
      refine recovering_of_result ((anyDeclaration_of_keyword _ (by simp [hkeyword])).trans ?_)
      simp only [hkeyword]
      calc classDeclaration (n + 1) (declaration n) (name :: (ts ++ left :: (us ++ right :: rest)))
          = _ := bind_of_result (expect_of_kind _ _ hname)
        _ = _ := bind_of_result (superclass_complete hparent hleft)
        _ = _ := bind_of_result (expect_of_kind _ _ hleft)
        _ = _ := bind_of_result hfound
        _ = _ := bind_of_result (expect_of_kind _ _ hright)

theorem found_function {opening closing : Token} {params : List Token} {body : List Stmt}
    (hname : name.kind = .identifier) (hleft : left.kind = .leftParen)
    (hright : right.kind = .rightParen) (hopening : opening.kind = .leftBrace)
    (hclosing : closing.kind = .rightBrace) (hparams : Parameters params ts)
    (hbody : StmtFound (.declarations body) us) :
    StmtFound (.function ⟨name, params, body⟩)
      (name :: left :: ts ++ right :: opening :: us ++ [closing]) := by
  intro n bound what rest hlength hbound
  have happend : name :: left :: ts ++ right :: opening :: us ++ [closing] ++ rest =
      name :: left :: (ts ++ right :: opening :: (us ++ closing :: rest)) := by simp
  rw [happend] at hlength hbound ⊢
  simp only [List.length_cons, List.length_append] at hlength hbound
  have hfoundParams : items (expect .identifier "parameter name") "parameters" bound
      (ts ++ right :: opening :: (us ++ closing :: rest)) =
      ⟨[], some params, right :: opening :: (us ++ closing :: rest)⟩ := by
    refine parameters_complete hparams hright ?_
    simp only [List.length_cons, List.length_append]
    omega
  have hfoundBody : blockBody bound (declaration n) (us ++ closing :: rest) =
      ⟨[], some body, rest⟩ := by
    apply blockBody_complete hclosing hbody
    · simp only [List.length_cons, List.length_append]
      omega
    · simp only [List.length_cons, List.length_append]
      omega
  calc function bound (declaration n) what
        (name :: left :: (ts ++ right :: opening :: (us ++ closing :: rest)))
      = _ := bind_of_result (expect_of_kind _ _ hname)
    _ = _ := bind_of_result (expect_of_kind _ _ hleft)
    _ = _ := bind_of_result hfoundParams
    _ = _ := bind_of_result (expect_of_kind _ _ hright)
    _ = _ := bind_of_result (expect_of_kind _ _ hopening)
    _ = _ := bind_of_result hfoundBody

/-- A declaration does not start with `else`, and a closing brace is none. -/
theorem stopsElse_of_declarations {trees : List Stmt} {isOpen : Bool}
    (hderives : StmtDerives true (.declarations trees) us) (rest : List Token)
    (hrest : ∀ token ∈ rest.head?, token.kind ≠ .kwElse) : StopsElse isOpen (us ++ rest) := by
  intro _ token htoken
  cases us with
  | nil => exact hrest token htoken
  | cons first us =>
      have hfirst := stmtDerives_startsWell hderives first rfl
      cases htoken
      intro hkind
      rw [hkind] at hfirst
      cases hfirst

theorem found_moreDeclarations {isOpen : Bool} {tree : Stmt} {trees : List Stmt}
    (hhead : StmtDerives true (.declaration isOpen tree) ts)
    (htail : StmtDerives true (.declarations trees) us)
    (htree : StmtFound (.declaration isOpen tree) ts)
    (htrees : StmtFound (.declarations trees) us) :
    StmtFound (.declarations (tree :: trees)) (ts ++ us) := by
  intro n bound right rest hright hlength hbound
  rw [List.append_assoc] at hlength hbound ⊢
  rcases stmtDerives_startsWell hhead with ⟨token, vs, rfl, htoken⟩
  cases bound with
  | zero => cases hbound
  | succ bound =>
      have hstops : StopsElse isOpen (us ++ right :: rest) :=
        stopsElse_of_declarations htail _ (by simp [hright])
      have hfound := htree n (us ++ right :: rest) hlength hstops
      simp only [List.cons_append, List.length_cons, List.length_append] at hlength hbound
      have hfoundRest : declarations (declaration n) bound (us ++ right :: rest) =
          ⟨[], some trees, right :: rest⟩ := by
        apply htrees n bound right rest hright
        · simp only [List.length_cons, List.length_append]
          omega
        · simp only [List.length_cons, List.length_append]
          omega
      calc declarations (declaration n) (bound + 1) (token :: vs ++ (us ++ right :: rest))
          = _ := declarations_of_declaration htoken
        _ = _ := bind_of_result hfound
        _ = _ := bind_of_result hfoundRest

theorem found_moreMethods {tree : Function} {trees : List Function}
    (hhead : StmtDerives true (.function tree) ts) (htree : StmtFound (.function tree) ts)
    (htrees : StmtFound (.methods trees) us) : StmtFound (.methods (tree :: trees)) (ts ++ us) := by
  intro n bound right rest hright hlength hbound
  rw [List.append_assoc] at hlength hbound ⊢
  rcases stmtDerives_startsWell hhead with ⟨token, vs, rfl, htoken⟩
  cases bound with
  | zero => cases hbound
  | succ bound =>
      have hfound := htree n bound "method" (us ++ right :: rest) hlength hbound
      simp only [List.cons_append, List.length_cons, List.length_append] at hlength hbound
      have hfoundRest : methods (declaration n) bound (us ++ right :: rest) =
          ⟨[], some trees, right :: rest⟩ := by
        apply htrees n bound right rest hright
        · simp only [List.length_cons, List.length_append]
          omega
        · simp only [List.length_cons, List.length_append]
          omega
      calc methods (declaration n) (bound + 1) (token :: vs ++ (us ++ right :: rest))
          = _ := methods_of_method htoken
        _ = _ := bind_of_result hfound
        _ = _ := bind_of_result hfoundRest

end

/-!
# Programs
-/

theorem stmtFound_of_derives {phrase : StmtPhrase} {ts : List Token}
    (hderives : StmtDerives true phrase ts) : StmtFound phrase ts := by
  induction hderives with
  | expression hsemicolon hinner => exact found_expression hsemicolon hinner
  | print hkeyword hsemicolon hinner => exact found_print hkeyword hsemicolon hinner
  | ret hkeyword hsemicolon hvalue => exact found_ret hkeyword hsemicolon hvalue
  | block hleft hright _ ih => exact found_block hleft hright ih
  | whileLoop hkeyword hleft hright hcondition _ ih =>
      exact found_whileLoop hkeyword hleft hright hcondition ih
  | forLoop hkeyword hleft hsemicolon hright hfirst hcondition hincrement _ ih =>
      exact found_forLoop hkeyword hleft hsemicolon hright hfirst hcondition hincrement ih
  | ifThen hkeyword hleft hright hcondition _ ih =>
      exact found_ifThen hkeyword hleft hright hcondition ih
  | ifElse hkeyword hleft hright hotherwise hclosed hcondition _ _ ihThen ihElse =>
      rw [hclosed rfl] at ihThen
      exact found_ifElse hkeyword hleft hright hotherwise hcondition ihThen ihElse
  | statement hderives ih => exact found_statement hderives ih
  | varDecl hkeyword htree => exact found_varDecl hkeyword htree
  | funDecl hkeyword _ ih => exact found_funDecl hkeyword ih
  | classDecl hkeyword hname hleft hright hparent _ ih =>
      exact found_classDecl hkeyword hname hleft hright hparent ih
  | noDeclarations =>
      intro n bound right rest hright _ hbound
      exact declarations_of_brace hright (Nat.lt_of_lt_of_le (Nat.succ_pos _) hbound)
  | moreDeclarations hhead htail ihHead ihTail =>
      exact found_moreDeclarations hhead htail ihHead ihTail
  | function hname hleft hright hopening hclosing hparams _ ih =>
      exact found_function hname hleft hright hopening hclosing hparams ih
  | noMethods =>
      intro n bound right rest hright _ hbound
      exact methods_of_brace hright (Nat.lt_of_lt_of_le (Nat.succ_pos _) hbound)
  | moreMethods hhead _ ihHead ihTail => exact found_moreMethods hhead ihHead ihTail

/-- A program is read in front of anything but an `else`, and parsing goes on behind it. -/
theorem program_in_front {n : Nat} {trees : List Stmt} {ts rest : List Token}
    (hprogram : Program true trees ts) (hrest : ∀ token ∈ rest.head?, token.kind ≠ .kwElse)
    (hlength : (ts ++ rest).length < n) :
    ∀ bound : Nat, (ts ++ rest).length < bound → ∃ bound', rest.length < bound' ∧
      ∀ reports more left, program (declaration n) bound' rest = ⟨reports, some more, left⟩ →
        program (declaration n) bound (ts ++ rest) = ⟨reports, some (trees ++ more), left⟩ := by
  unfold Program at hprogram
  generalize hphrase : StmtPhrase.declarations trees = phrase at hprogram
  induction hprogram generalizing trees with
  | noDeclarations =>
      cases hphrase
      intro bound hbound
      exact ⟨bound, hbound, fun _ _ _ hmore => hmore⟩
  | @moreDeclarations isOpen tree trees ts us hhead htail _ ihTail =>
      cases hphrase
      intro bound hbound
      rw [List.append_assoc] at hlength hbound ⊢
      have hstops : StopsElse isOpen (us ++ rest) := stopsElse_of_declarations htail rest hrest
      have hfound := stmtFound_of_derives hhead n (us ++ rest) hlength hstops
      rcases stmtDerives_startsWell hhead with ⟨token, vs, rfl, _⟩
      cases bound with
      | zero => cases hbound
      | succ bound =>
          rw [List.cons_append, List.length_cons, List.length_append] at hlength hbound
          rcases ihTail (by omega) rfl bound (by omega) with ⟨bound', hbound', hbehind⟩
          refine ⟨bound', hbound', ?_⟩
          intro reports more left hmore
          calc program (declaration n) (bound + 1) (token :: vs ++ (us ++ rest))
              = _ := bind_of_result (peek_result _)
            _ = _ := bind_of_result hfound
            _ = _ := bind_of_some (hbehind reports more left hmore)
            _ = ⟨reports, some (tree :: trees ++ more), left⟩ := by simp [ok]
  | _ => cases hphrase

theorem program_complete {n : Nat} {trees : List Stmt} {ts : List Token}
    (hprogram : Program true trees ts) (hlength : ts.length < n) (bound : Nat)
    (hbound : ts.length < bound) : program (declaration n) bound ts = ⟨[], some trees, []⟩ := by
  rw [← List.append_nil ts] at hlength hbound ⊢
  rcases program_in_front hprogram (by simp) hlength bound hbound with ⟨bound', hbound', hbehind⟩
  rw [hbehind [] [] [], List.append_nil]
  cases bound' with
  | zero => cases hbound'
  | succ bound' => exact bind_of_result (peek_result _)

end Parser

/-- The parser finds every greedy derivation of a program, and reports nothing. -/
theorem parse_of_program {trees : List Stmt} {ts : List Token}
    (hprogram : Grammar.Program true trees ts) : parse ts = ⟨[], some trees, []⟩ :=
  Parser.program_complete hprogram (Nat.lt_succ_self _) _ (Nat.lt_succ_self _)

/--
The parser reports nothing on exactly the derivable lists of tokens.  It then
reads all of the input, and the trees it returns are the ones that a greedy
derivation gives to the whole input.
-/
theorem parse_silent_iff_program (ts : List Token) :
    ((parse ts).reports = [] ↔ ∃ trees, Grammar.Program false trees ts) ∧
    ((parse ts).reports = [] → ∃ trees, parse ts = ⟨[], some trees, []⟩) ∧
    ∀ trees, parse ts = ⟨[], some trees, []⟩ ↔ Grammar.Program true trees ts := by
  refine ⟨⟨?_, ?_⟩, ?_, fun trees => ⟨?_, parse_of_program⟩⟩
  · intro hsilent
    rcases program_of_silent hsilent with ⟨trees, _, hprogram⟩
    exact ⟨trees, Grammar.stmtDerives_forget hprogram⟩
  · intro hderivable
    rcases hderivable with ⟨trees, hprogram⟩
    rcases Grammar.stmtDerives_hasGreedy hprogram with ⟨trees', hgreedy⟩
    rw [parse_of_program hgreedy]
  · intro hsilent
    rcases program_of_silent hsilent with ⟨trees, hparse, _⟩
    exact ⟨trees, hparse⟩
  · intro hparse
    have hsilent : (parse ts).reports = [] := by rw [hparse]
    rcases program_of_silent hsilent with ⟨trees', hparse', hprogram⟩
    rw [hparse] at hparse'
    cases hparse'
    exact hprogram

end Lox
