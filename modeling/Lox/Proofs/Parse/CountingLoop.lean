import Lox.Proofs.Grammar.WellFormed
import Lox.Proofs.Parse.CompleteStatement
import Lox.Proofs.Parse.Natural
import Lox.Token.Scan

/-!
# Counting loops

A counting loop is read as the same tree as a loop that is written out with
`while`: the first clause stands in front of the loop in a block, and the
increment behind the body in another one.  This holds for all clauses and bodies
that are well-formed by themselves, and whichever clauses are missing.
-/

namespace Lox

/-- A keyword or a sign; its line does not matter. -/
def Token.fixed (kind : TokenKind) (lexeme : String) : Token := ⟨kind, lexeme, .nil, 0⟩

/-- Whether a statement can be the first clause of a counting loop. -/
def Stmt.isClause : Stmt → Bool
  | .varDecl _ _ | .expression _ => true
  | _ => false

/-- The tokens of the clauses and of the body of a loop; the first clause has its semicolon. -/
structure CountingLoop where
  first : Option (List Token)
  condition : Option (List Token)
  increment : Option (List Token)
  body : List Token

namespace CountingLoop

/-!
# Two ways to write a loop
-/

def semicolon : Token := .fixed .semicolon ";"

def braced (ts : List Token) : List Token :=
  .fixed .leftBrace "\x7b" :: ts ++ [.fixed .rightBrace "\x7d"]

def tokens (l : CountingLoop) : List Token :=
  .fixed .kwFor "for" :: .fixed .leftParen "(" :: l.first.getD [semicolon] ++
    l.condition.getD [] ++ semicolon :: l.increment.getD [] ++ .fixed .rightParen ")" :: l.body

def round (l : CountingLoop) : List Token :=
  match l.increment with
  | none => l.body
  | some step => braced (l.body ++ (step ++ [semicolon]))

def repetition (l : CountingLoop) : List Token :=
  .fixed .kwWhile "while" :: .fixed .leftParen "(" :: l.condition.getD [.fixed .kwTrue "true"] ++
    .fixed .rightParen ")" :: l.round

def writtenOut (l : CountingLoop) : List Token :=
  match l.first with
  | none => l.repetition
  | some start => braced (start ++ l.repetition)

/-- Nothing is reported on any part of the loop by itself. -/
structure Readable (l : CountingLoop) : Prop where
  first : ∀ ts ∈ l.first, ∃ tree, parse ts = ⟨[], some [tree], []⟩ ∧ tree.isClause = true
  condition : ∀ ts ∈ l.condition, (parseExpression ts).reports = []
  increment : ∀ ts ∈ l.increment, (parseExpression ts).reports = []
  body : ∃ tree, parse l.body = ⟨[], some [tree], []⟩ ∧ tree.declared? = none

end CountingLoop

/-!
# Parts that are parsed by themselves
-/

namespace Grammar

variable {greedy : Bool}

theorem declaration_of_single {tree : Stmt} {ts : List Token}
    (hprogram : Program greedy [tree] ts) :
    ∃ isOpen, StmtDerives greedy (.declaration isOpen tree) ts := by
  cases hprogram with
  | @moreDeclarations isOpen _ _ ts us hhead htail =>
      cases htail
      rw [List.append_nil]
      exact ⟨isOpen, hhead⟩

theorem single_of_declaration {tree : Stmt} {isOpen : Bool} {ts : List Token}
    (htree : StmtDerives greedy (.declaration isOpen tree) ts) : Program greedy [tree] ts := by
  have hsingle := StmtDerives.moreDeclarations htree .noDeclarations
  rw [List.append_nil] at hsingle
  exact hsingle

theorem declared?_of_variable {tree : Stmt} {ts : List Token} (htree : Variable greedy tree ts) :
    tree.declared? ≠ none := by
  cases htree <;> exact Option.some_ne_none _

theorem statement_of_declaration {tree : Stmt} {isOpen : Bool} {ts : List Token}
    (htree : StmtDerives greedy (.declaration isOpen tree) ts) (hdeclared : tree.declared? = none) :
    StmtDerives greedy (.statement isOpen tree) ts := by
  cases htree with
  | statement hstatement => exact hstatement
  | varDecl _ hvariable => exact absurd hdeclared (declared?_of_variable hvariable)
  | funDecl _ _ => cases hdeclared
  | classDecl _ _ _ _ _ _ => cases hdeclared

theorem forLoop_ne_expression (first : Option Stmt) (condition increment : Option Expr)
    (body : Stmt) (inner : Expr) :
    Stmt.forLoop first condition increment body ≠ .expression inner := by
  intro heq
  cases first <;> cases heq

/-- A declaration of a variable or an expression can be the first clause of a loop. -/
theorem firstClause_of_declaration {tree : Stmt} {isOpen : Bool} {ts : List Token}
    (htree : StmtDerives greedy (.declaration isOpen tree) ts) (hclause : tree.isClause = true) :
    FirstClause greedy (some tree) ts := by
  cases htree with
  | varDecl hkeyword hvariable => exact .declaration hkeyword hvariable
  | funDecl _ _ => cases hclause
  | classDecl _ _ _ _ _ _ => cases hclause
  | statement hstatement =>
      cases tree with
      | expression inner =>
          generalize hphrase : StmtPhrase.statement isOpen (.expression inner) = phrase
            at hstatement
          cases hstatement with
          | expression hsemicolon hinner =>
              cases hphrase
              exact .expression hsemicolon hinner
          | forLoop _ _ _ _ _ _ _ _ =>
              rw [StmtPhrase.statement.injEq] at hphrase
              exact absurd hphrase.2.symm (forLoop_ne_expression _ _ _ _ _)
          | _ => cases hphrase
      | varDecl name initial =>
          have hstands := stmtDerives_wellFormed (p := fun _ => True) hstatement fun _ _ => trivial
          cases hstands.1
      | _ => cases hclause

theorem declaration_of_firstClause {tree : Stmt} {ts : List Token}
    (htree : FirstClause greedy (some tree) ts) :
    StmtDerives greedy (.declaration false tree) ts := by
  cases htree with
  | declaration hkeyword hvariable => exact .varDecl hkeyword hvariable
  | expression hsemicolon hinner => exact .statement (.expression hsemicolon hinner)

end Grammar

/-!
# Both ways are derivations of one tree
-/

namespace CountingLoop

open Grammar

structure Parts (l : CountingLoop) (first : Option Stmt) (condition increment : Option Expr)
    (isOpen : Bool) (body : Stmt) : Prop where
  first : Option.Rel (fun ts tree => FirstClause true (some tree) ts) l.first first
  condition : Option.Rel (fun ts tree => Expression true tree ts) l.condition condition
  increment : Option.Rel (fun ts tree => Expression true tree ts) l.increment increment
  body : StmtDerives true (.statement isOpen body) l.body

theorem exists_expression {part : Option (List Token)}
    (hpart : ∀ ts ∈ part, (parseExpression ts).reports = []) :
    ∃ tree, Option.Rel (fun ts tree => Expression true tree ts) part tree := by
  cases part with
  | none => exact ⟨none, .none⟩
  | some ts =>
      rcases expression_of_silent (hpart ts rfl) with ⟨tree, _, htree⟩
      exact ⟨some tree, .some htree⟩

theorem declaration_of_parse {tree : Stmt} {ts : List Token}
    (hparse : parse ts = ⟨[], some [tree], []⟩) :
    ∃ isOpen, StmtDerives true (.declaration isOpen tree) ts := by
  have hsilent : (parse ts).reports = [] := by rw [hparse]
  rcases program_of_silent hsilent with ⟨trees, hsame, hprogram⟩
  rw [hparse] at hsame
  cases hsame
  exact declaration_of_single hprogram

theorem Readable.parts {l : CountingLoop} (hl : l.Readable) :
    ∃ first condition increment isOpen body, l.Parts first condition increment isOpen body := by
  rcases exists_expression hl.condition with ⟨condition, hcondition⟩
  rcases exists_expression hl.increment with ⟨increment, hincrement⟩
  rcases hl.body with ⟨body, hbody, hdeclared⟩
  rcases declaration_of_parse hbody with ⟨isOpen, hdeclaration⟩
  have hstatement := statement_of_declaration hdeclaration hdeclared
  have hfirst : ∃ first,
      Option.Rel (fun ts tree => FirstClause true (some tree) ts) l.first first := by
    cases hpart : l.first with
    | none => exact ⟨none, .none⟩
    | some ts =>
        rcases hl.first ts hpart with ⟨tree, hparse, hclause⟩
        rcases declaration_of_parse hparse with ⟨_, htree⟩
        exact ⟨some tree, .some (firstClause_of_declaration htree hclause)⟩
  rcases hfirst with ⟨first, hfirst⟩
  exact ⟨first, condition, increment, isOpen, body, hfirst, hcondition, hincrement, hstatement⟩

section

variable {l : CountingLoop} {first : Option Stmt} {condition increment : Option Expr}
  {isOpen : Bool} {body : Stmt}

theorem derives_braced {trees : List Stmt} {ts : List Token}
    (htrees : StmtDerives true (.declarations trees) ts) :
    StmtDerives true (.statement false (.block trees)) (braced ts) :=
  .block rfl rfl htrees

theorem optional_of_rel {part : Option (List Token)} {tree : Option Expr}
    (hpart : Option.Rel (fun ts tree => Expression true tree ts) part tree) :
    Optional true tree (part.getD []) := by
  cases hpart with
  | none => exact .missing
  | some htree => exact .present htree

theorem Parts.tokens (hl : l.Parts first condition increment isOpen body) :
    StmtDerives true (.statement isOpen (.forLoop first condition increment body)) l.tokens := by
  have hclause : FirstClause true first (l.first.getD [semicolon]) := by
    have hfirst := hl.first
    generalize l.first = part at hfirst
    cases hfirst with
    | none => exact .missing rfl
    | some htree => exact htree
  exact .forLoop rfl rfl rfl rfl hclause (optional_of_rel hl.condition)
    (optional_of_rel hl.increment) hl.body

theorem Parts.round (hl : l.Parts first condition increment isOpen body) :
    ∃ isOpen' inner, StmtDerives true (.statement isOpen' inner) l.round ∧
      ∀ start, Stmt.forLoop start condition increment body =
        Stmt.forLoop start condition none inner := by
  have hincrement := hl.increment
  unfold CountingLoop.round
  generalize l.increment = part at hincrement
  cases hincrement with
  | none => exact ⟨isOpen, body, hl.body, fun _ => rfl⟩
  | @some step tree htree =>
      have hstep : StmtDerives true (.statement false (.expression tree)) (step ++ [semicolon]) :=
        .expression rfl htree
      have htrees := StmtDerives.moreDeclarations (.statement hl.body)
        (single_of_declaration (.statement hstep))
      exact ⟨false, .block [body, .expression tree], derives_braced htrees, fun _ => rfl⟩

theorem expression_true :
    Expression true (.literal (.bool true)) [.fixed .kwTrue "true"] := by
  have hsilent : (parseExpression [.fixed .kwTrue "true"]).reports = [] := rfl
  rcases expression_of_silent hsilent with ⟨tree, hparse, htree⟩
  cases hparse
  exact htree

theorem Parts.repetition (hl : l.Parts first condition increment isOpen body) :
    ∃ isOpen', StmtDerives true
      (.statement isOpen' (.forLoop none condition increment body)) l.repetition := by
  rcases hl.round with ⟨isOpen', inner, hround, hloop⟩
  rw [hloop]
  have htest : Expression true (condition.getD (.literal (.bool true)))
      (l.condition.getD [.fixed .kwTrue "true"]) := by
    have hcondition := hl.condition
    generalize l.condition = part at hcondition
    cases hcondition with
    | none => exact expression_true
    | some htree => exact htree
  exact ⟨isOpen', .whileLoop rfl rfl rfl htest hround⟩

theorem Parts.writtenOut (hl : l.Parts first condition increment isOpen body) :
    ∃ isOpen', StmtDerives true
      (.statement isOpen' (.forLoop first condition increment body)) l.writtenOut := by
  rcases hl.repetition with ⟨isOpen', hrepetition⟩
  have hfirst := hl.first
  unfold CountingLoop.writtenOut
  generalize l.first = part at hfirst
  cases hfirst with
  | none => exact ⟨isOpen', hrepetition⟩
  | @some start tree htree =>
      have hloop := single_of_declaration (.statement hrepetition)
      exact ⟨false, derives_braced (.moreDeclarations (declaration_of_firstClause htree) hloop)⟩

end

end CountingLoop

/-!
# Lines
-/

theorem keepsSyntax_withoutLine : KeepsSyntax Token.withoutLine :=
  ⟨fun _ => rfl, fun _ _ => rfl⟩

/-- Tokens that differ in their lines only are read as trees that differ in lines only. -/
theorem parse_of_withoutLine {ts us : List Token} {tree : Stmt}
    (hsame : us.map Token.withoutLine = ts.map Token.withoutLine)
    (hparse : parse ts = ⟨[], some [tree], []⟩) :
    ∃ tree', parse us = ⟨[], some [tree'], []⟩ ∧
      tree'.relabel Token.withoutLine = tree.relabel Token.withoutLine := by
  have hlines := parse_map keepsSyntax_withoutLine us
  rw [hsame, parse_map keepsSyntax_withoutLine ts, hparse] at hlines
  generalize parse us = parsed at hlines
  rcases parsed with ⟨reports, result, rest⟩
  simp only [Parser.relabelled, List.map_nil, Option.map_some, List.map_cons,
    Parsed.mk.injEq] at hlines
  rcases hlines with ⟨hreports, hresult, hrest⟩
  rcases Option.map_eq_some_iff.mp hresult.symm with ⟨trees, rfl, htrees⟩
  rcases List.map_eq_singleton_iff.mp htrees with ⟨tree', rfl, htree⟩
  rw [List.map_eq_nil_iff.mp hreports.symm, List.map_eq_nil_iff.mp hrest.symm]
  exact ⟨tree', rfl, htree⟩

/--
A counting loop is read as the loop that is written out.  Whichever clauses are
missing, if the others and the body are well-formed by themselves, then nothing is
reported on either loop, and their trees differ in lines only.  The lines of the
tokens can be any in both.
-/
theorem parse_countingLoop {l : CountingLoop} (hl : l.Readable) {tokens written : List Token}
    (htokens : tokens.map Token.withoutLine = l.tokens.map Token.withoutLine)
    (hwritten : written.map Token.withoutLine = l.writtenOut.map Token.withoutLine) :
    ∃ tree tree', parse tokens = ⟨[], some [tree], []⟩ ∧ parse written = ⟨[], some [tree'], []⟩ ∧
      tree.relabel Token.withoutLine = tree'.relabel Token.withoutLine := by
  rcases hl.parts with ⟨first, condition, increment, isOpen, body, hparts⟩
  rcases hparts.writtenOut with ⟨_, hout⟩
  have hloop := parse_of_program (Grammar.single_of_declaration (.statement hparts.tokens))
  have hwhile := parse_of_program (Grammar.single_of_declaration (.statement hout))
  rcases parse_of_withoutLine htokens hloop with ⟨tree, hparse, htree⟩
  rcases parse_of_withoutLine hwritten hwhile with ⟨tree', hparse', htree'⟩
  exact ⟨tree, tree', hparse, hparse', htree.trans htree'.symm⟩

/-- A loop without a condition, around a conditional without `else`, on other lines. -/
theorem parse_countingLoop_conditional :
    let l : CountingLoop :=
      ⟨some (scan "var i = 0;").tokens, none, some (scan "i = i + 1").tokens,
        (scan "if (i < 3) print i;").tokens⟩
    let tokens := (scan "for (var i = 0; ; i = i + 1)\n  if (i < 3) print i;").tokens
    let written :=
      (scan "\x7b var i = 0;\nwhile (true) \x7b if (i < 3) print i;\ni = i + 1; \x7d \x7d").tokens
    l.Readable ∧ tokens.map Token.withoutLine = l.tokens.map Token.withoutLine ∧
      written.map Token.withoutLine = l.writtenOut.map Token.withoutLine ∧
      ∃ tree tree', parse tokens = ⟨[], some [tree], []⟩ ∧
        parse written = ⟨[], some [tree'], []⟩ ∧
        tree.relabel Token.withoutLine = tree'.relabel Token.withoutLine := by
  intro l tokens written
  have hsingle : ∀ (ts : List Token) (keep : Stmt → Bool), (parse ts).reports = [] →
      (parse ts).result.map (List.map keep) = some [true] →
      ∃ tree, parse ts = ⟨[], some [tree], []⟩ ∧ keep tree = true := by
    intro ts keep hsilent hkeep
    rcases program_of_silent hsilent with ⟨trees, hparse, _⟩
    rw [hparse, Option.map_some, Option.some_inj] at hkeep
    rcases List.map_eq_singleton_iff.mp hkeep with ⟨tree, rfl, htree⟩
    exact ⟨tree, hparse, htree⟩
  have hl : l.Readable := by
    constructor
    · intro ts hts
      cases hts
      exact hsingle _ Stmt.isClause (by decide +kernel) (by decide +kernel)
    · intro ts hts
      cases hts
    · intro ts hts
      cases hts
      decide +kernel
    · rcases hsingle l.body (fun s => s.declared?.isNone) (by decide +kernel) (by decide +kernel)
        with ⟨tree, hparse, hnone⟩
      exact ⟨tree, hparse, Option.isNone_iff_eq_none.mp hnone⟩
  have htokens : tokens.map Token.withoutLine = l.tokens.map Token.withoutLine := by
    decide +kernel
  have hwritten : written.map Token.withoutLine = l.writtenOut.map Token.withoutLine := by
    decide +kernel
  exact ⟨hl, htokens, hwritten, parse_countingLoop hl htokens hwritten⟩

end Lox
