import Lox.Proofs.Parse.CompleteStatement
import Lox.Proofs.Parse.Total
import Lox.Token.Scan

/-!
# Tokens behind a program

A program is read in the same way whatever stands behind it, as long as that does
not start with `else`.  What stands behind it may be malformed; it is parsed, and
its mistakes are reported, as if it stood alone.
-/

namespace Lox
namespace Parser

/-- Two bounds on the depth of a declaration are alike if both suffice. -/
theorem alike_declaration {k n m : Nat} (hn : k ≤ n) (hm : k ≤ m) :
    AlikeDeclaration k (declaration n) (declaration m) := by
  intro ts hne hlength
  -- both are compared with a declaration that is watched
  have hfirst := (alike_watched ⟨[], none, []⟩ k n n hn hn).2 ts hne hlength
  have hsecond := (alike_watched ⟨[], none, []⟩ k n m hn hm).2 ts hne hlength
  rw [← hfirst.1]
  exact hsecond

end Parser

theorem program_eq_parse {tokens : List Token} {n bound : Nat} (hlength : tokens.length < n)
    (hbound : tokens.length < bound) :
    ∃ trees, parse tokens = ⟨(parse tokens).reports, some trees, []⟩ ∧
      Parser.program (Parser.declaration n) bound tokens = parse tokens := by
  have halike : Parser.AlikeDeclaration (tokens.length + 1) (Parser.declaration n)
      (Parser.declaration (tokens.length + 1)) := Parser.alike_declaration hlength (Nat.le_refl _)
  rcases Parser.program_result halike bound (tokens.length + 1) tokens hbound
    (Nat.lt_succ_self _) (Nat.lt_succ_self _) with ⟨reports, trees, hprogram, hparse, _⟩
  change parse tokens = _ at hparse
  rw [hprogram, hparse]
  exact ⟨trees, rfl, rfl⟩

/--
Complete statements do not depend on what follows.  Let something that does not
start with `else` stand behind tokens on which nothing is reported.  Then the
statements are those of the first tokens and those of the others alone.  Exactly
what is reported on the others alone is reported, in the same order; a report at
the end of the input has no token, so it does not matter which token stands there.
-/
theorem parse_append {first second : List Token} (hsilent : (parse first).reports = [])
    (hnext : ∀ token ∈ second.head?, token.kind ≠ .kwElse) :
    ∃ trees more, parse first = ⟨[], some trees, []⟩ ∧
      parse second = ⟨(parse second).reports, some more, []⟩ ∧
      parse (first ++ second) = ⟨(parse second).reports, some (trees ++ more), []⟩ := by
  rcases program_of_silent hsilent with ⟨trees, hfirst, hprogram⟩
  rcases Parser.program_in_front hprogram hnext (Nat.lt_succ_self _) _ (Nat.lt_succ_self _) with
    ⟨bound, hbound, hbehind⟩
  have hlength : second.length < (first ++ second).length + 1 := by
    rw [List.length_append]
    omega
  rcases program_eq_parse hlength hbound with ⟨more, hsecond, hsame⟩
  have happend : parse (first ++ second) = _ := hbehind _ more [] (hsame.trans hsecond)
  exact ⟨trees, more, hfirst, hsecond, happend⟩

/-- The mistakes behind a conditional without `else` are those that are found without it. -/
theorem parse_append_conditional :
    let first := (scan "while (a) if (b) print c;").tokens
    let second := (scan "+ d; fun (; print e;").tokens
    (parse first).reports = [] ∧
      (parse (first ++ second)).reports.map (Report.diagnostic (.endOfInput 1)) =
        [.atToken ⟨.plus, "+", .nil, 1⟩ (.expected "expression"),
          .atToken ⟨.leftParen, "(", .nil, 1⟩ (.expected "function name")] := by
  intro first second
  have hsilent : (parse first).reports = [] := by decide +kernel
  have hnext : ∀ token ∈ second.head?, token.kind ≠ .kwElse := by decide +kernel
  rcases parse_append hsilent hnext with ⟨_, _, _, _, happend⟩
  have hreports : (parse (first ++ second)).reports = (parse second).reports := by rw [happend]
  refine ⟨hsilent, ?_⟩
  rw [hreports]
  decide +kernel

/-- An `else` is the one token that must not follow. -/
example :
    let first := (scan "if (a) print b;").tokens
    let second := (scan "else print c;").tokens
    (parse first).reports = [] ∧ (parse second).reports ≠ [] ∧
      (parse (first ++ second)).reports = [] := by
  decide +kernel

end Lox
