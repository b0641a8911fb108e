import Lox.Diagnostic
import Lox.Syntax

/-!
# Parsers

A parser reads tokens from the front of a list.  It either has a result or
gives up; in both cases it says what it reports and which tokens are left.  The
end of the input is the empty list, and a report that concerns it has no token.
-/

namespace Lox

structure Report where
  token : Option Token
  violation : Violation
deriving DecidableEq, Repr

namespace Report

def diagnostic (eof : Token) (r : Report) : Diagnostic :=
  .atToken (r.token.getD eof) r.violation

end Report

/-- The reports of a parser, its result unless it gave up, and the tokens left. -/
structure Parsed (α : Type) where
  reports : List Report
  result : Option α
  rest : List Token

def Parser (α : Type) : Type := List Token → Parsed α

namespace Parser

def ok (value : α) : Parser α := fun tokens => ⟨[], some value, tokens⟩

/-- Go on with the result; the reports come in order. -/
@[inline] def andThen (p : Parser α) (next : α → Parser β) : Parser β := fun tokens =>
  let first := p tokens
  match first.result with
  | none => ⟨first.reports, none, first.rest⟩
  | some value =>
      let second := next value first.rest
      ⟨first.reports ++ second.reports, second.result, second.rest⟩

instance : Monad Parser where
  pure := ok
  bind := andThen

def giveUp : Parser α := fun tokens => ⟨[], none, tokens⟩

def fail (violation : Violation) : Parser α := fun tokens =>
  ⟨[⟨tokens.head?, violation⟩], none, tokens⟩

def reportAt (token : Token) (violation : Violation) : Parser Unit := fun tokens =>
  ⟨[⟨some token, violation⟩], some (), tokens⟩

def reportHere (violation : Violation) : Parser Unit := fun tokens =>
  ⟨[⟨tokens.head?, violation⟩], some (), tokens⟩

def peek : Parser (Option TokenKind) := fun tokens =>
  ⟨[], some (tokens.head?.map Token.kind), tokens⟩

def accept (kinds : List TokenKind) : Parser (Option Token)
  | [] => ⟨[], some none, []⟩
  | token :: rest =>
      if token.kind ∈ kinds then ⟨[], some (some token), rest⟩
      else ⟨[], some none, token :: rest⟩

def expect (kind : TokenKind) (what : String) : Parser Token := do
  match ← accept [kind] with
  | some token => ok token
  | none => fail (.expected what)

def unlessNext (kind : TokenKind) (p : Parser α) : Parser (Option α) := do
  if (← peek) = some kind then ok none else some <$> p

/--
More items of a comma-separated list that has `count` of them already; `n`
bounds their number.  Items beyond the limit are reported and kept.
-/
def moreItems (item : Parser α) (what : String) : Nat → Nat → Parser (List α)
  | 0, _ => giveUp
  | n + 1, count => do
      match ← accept [.comma] with
      | none => ok []
      | some _ =>
          if maxArguments ≤ count then
            reportHere (.tooMany what)
          let first ← item
          let rest ← moreItems item what n (count + 1)
          ok (first :: rest)

def items (item : Parser α) (what : String) (n : Nat) : Parser (List α) := do
  if (← peek) = some .rightParen then
    ok []
  else
    let first ← item
    let rest ← moreItems item what n 1
    ok (first :: rest)

end Parser
end Lox
