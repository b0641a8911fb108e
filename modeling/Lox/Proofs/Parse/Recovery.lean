import Mathlib.Order.Bounds.Defs
import Lox.Proofs.Parse.Append

/-!
# Recovery

A declaration that cannot be read is dropped, and parsing goes on at a later
position.  A boundary is the end of the input, a keyword with which a statement
starts, or a position behind a semicolon that is skipped.  The token at which the
mistake is found is always skipped, so parsing goes on at the first boundary
behind it.  That is the first boundary from the mistake on unless the mistake is
found at a keyword; then the statement that starts there is not read.
-/

namespace Lox
namespace Parser

def attempt : Nat → Parser Stmt
  | 0 => giveUp
  | n + 1 => anyDeclaration (n + 1) (statement n) (declaration n)

/-- Whether parsing can go on at `q` after a mistake at `p`. -/
def Boundary (tokens : List Token) (p q : Nat) : Prop :=
  q = tokens.length ∨ (∃ token ∈ tokens[q]?, token.kind.startsStatement = true) ∨
    p < q ∧ ∃ token ∈ tokens[q - 1]?, token.kind = .semicolon

/-- The first boundary from the mistake on. -/
def FirstFrom (tokens : List Token) (p q : Nat) : Prop :=
  IsLeast { position | p ≤ position ∧ Boundary tokens p position } q

def FirstBehind (tokens : List Token) (p q : Nat) : Prop :=
  IsLeast { position | p < position ∧ Boundary tokens p position } q

/-!
# Positions
-/

variable {tokens : List Token} {p i : Nat}

theorem drop_eq_cons {token : Token} (htoken : tokens[i]? = some token) :
    tokens.drop i = token :: tokens.drop (i + 1) := by
  rcases List.getElem?_eq_some_iff.mp htoken with ⟨hlt, rfl⟩
  exact List.drop_eq_getElem_cons hlt

theorem not_boundary_at (hlt : p < tokens.length)
    (hkeyword : ∀ token ∈ tokens[p]?, token.kind.startsStatement = false) :
    ¬ Boundary tokens p p := by
  intro hboundary
  rcases hboundary with hend | ⟨token, htoken, hstarts⟩ | ⟨hless, _⟩
  · exact absurd hend (Nat.ne_of_lt hlt)
  · rw [hkeyword token htoken] at hstarts
    cases hstarts
  · exact absurd hless (Nat.lt_irrefl p)

theorem not_boundary_succ {last token : Token} (hlast : tokens[i]? = some last)
    (htoken : tokens[i + 1]? = some token)
    (hstop : ¬ (last.kind = .semicolon ∨ token.kind.startsStatement = true)) :
    ¬ Boundary tokens p (i + 1) := by
  intro hboundary
  rcases hboundary with hend | ⟨found, hfound, hstarts⟩ | ⟨_, found, hfound, hsemicolon⟩
  · have hlt := (List.getElem?_eq_some_iff.mp htoken).1
    exact absurd hend (Nat.ne_of_lt hlt)
  · rw [htoken] at hfound
    cases hfound
    exact hstop (Or.inr hstarts)
  · rw [Nat.add_sub_cancel, hlast] at hfound
    cases hfound
    exact hstop (Or.inl hsemicolon)

theorem boundary_drop {last : Token} (hlast : tokens[i]? = some last) (hp : p ≤ i) :
    ∃ q, boundary last (tokens.drop (i + 1)) = tokens.drop q ∧
      IsLeast { position | i < position ∧ Boundary tokens p position } q := by
  -- by induction on the number of tokens behind the last one that was skipped
  induction hbehind : tokens.length - i generalizing i last with
  | zero =>
      have hlt := (List.getElem?_eq_some_iff.mp hlast).1
      exact absurd hlt (Nat.not_lt_of_le (Nat.sub_eq_zero_iff_le.mp hbehind))
  | succ behind ih =>
      have hnext : ∀ q, i < q → i + 1 ≤ q := fun _ hq => hq
      cases htoken : tokens[i + 1]? with
      | none =>
          have hlength : tokens.length = i + 1 := by
            have hlt := (List.getElem?_eq_some_iff.mp hlast).1
            have hge := List.getElem?_eq_none_iff.mp htoken
            exact Nat.le_antisymm hge hlt
          refine ⟨i + 1, ?_, ⟨Nat.lt_succ_self i, Or.inl hlength.symm⟩, fun q hq => hnext q hq.1⟩
          rw [← hlength, List.drop_length, boundary]
      | some token =>
          rw [drop_eq_cons htoken, boundary]
          by_cases hstop : last.kind = .semicolon ∨ token.kind.startsStatement = true
          · rw [if_pos hstop, ← drop_eq_cons htoken]
            refine ⟨i + 1, rfl, ⟨Nat.lt_succ_self i, ?_⟩, fun q hq => hnext q hq.1⟩
            rcases hstop with hsemicolon | hstarts
            · exact Or.inr (Or.inr ⟨Nat.lt_succ_of_le hp, last, hlast, hsemicolon⟩)
            · exact Or.inr (Or.inl ⟨token, htoken, hstarts⟩)
          · rw [if_neg hstop]
            rcases ih htoken (Nat.le_succ_of_le hp) (by omega) with
              ⟨q, hskipped, ⟨hq, hboundary⟩, hleast⟩
            refine ⟨q, hskipped, ⟨Nat.lt_of_succ_lt hq, hboundary⟩, ?_⟩
            intro q' hq'
            apply hleast
            refine ⟨Nat.lt_of_le_of_ne (hnext q' hq'.1) ?_, hq'.2⟩
            rintro rfl
            exact not_boundary_succ hlast htoken hstop hq'.2

/--
At the end nothing is skipped; elsewhere recovery stops at the first boundary behind
the mistake.
-/
theorem synchronize_drop (hp : p ≤ tokens.length) :
    ∃ q, synchronize (tokens.drop p) = tokens.drop q ∧ (p = tokens.length → q = p) ∧
      (p < tokens.length → FirstBehind tokens p q) := by
  rcases Nat.lt_or_eq_of_le hp with hlt | heq
  · have htoken := List.getElem?_eq_getElem hlt
    rcases boundary_drop htoken (Nat.le_refl p) with ⟨q, hskipped, hleast⟩
    refine ⟨q, ?_, fun heq => absurd heq (Nat.ne_of_lt hlt), fun _ => hleast⟩
    rw [drop_eq_cons htoken]
    exact hskipped
  · refine ⟨p, ?_, fun _ => rfl, fun hlt => absurd heq (Nat.ne_of_lt hlt)⟩
    rw [heq, List.drop_length, synchronize]

theorem firstFrom_iff {q : Nat} (hp : p ≤ tokens.length) (hend : p = tokens.length → q = p)
    (hbehind : p < tokens.length → FirstBehind tokens p q) :
    FirstFrom tokens p q ↔ ∀ token ∈ tokens[p]?, token.kind.startsStatement = false := by
  constructor
  · intro hfrom token htoken
    have hlt := (List.getElem?_eq_some_iff.mp htoken).1
    cases hstarts : token.kind.startsStatement with
    | false => rfl
    | true =>
        have hhere : q ≤ p := hfrom.2 ⟨Nat.le_refl p, Or.inr (Or.inl ⟨token, htoken, hstarts⟩)⟩
        exact absurd (hbehind hlt).1.1 (Nat.not_lt_of_le hhere)
  · intro hkeyword
    rcases Nat.lt_or_eq_of_le hp with hlt | heq
    · refine ⟨⟨Nat.le_of_lt (hbehind hlt).1.1, (hbehind hlt).1.2⟩, ?_⟩
      intro q' hq'
      apply (hbehind hlt).2
      refine ⟨Nat.lt_of_le_of_ne hq'.1 ?_, hq'.2⟩
      rintro rfl
      exact not_boundary_at hlt hkeyword hq'.2
    · rw [hend heq]
      exact ⟨⟨Nat.le_refl p, Or.inl heq⟩, fun q' hq' => hq'.1⟩

/-!
# Failing declarations
-/

theorem declaration_of_failure {n : Nat} {ts rest : List Token} {reports : List Report}
    (hn : 0 < n) (hfails : attempt n ts = ⟨reports, none, rest⟩) :
    declaration n ts = ⟨reports, some none, synchronize rest⟩ := by
  cases n with
  | zero => exact absurd hn (Nat.lt_irrefl 0)
  | succ n =>
      rw [declaration]
      unfold recovering
      change anyDeclaration (n + 1) (statement n) (declaration n) ts = _ at hfails
      simp only [hfails]

theorem settles_attempt {n : Nat} {ts : List Token} (hlength : ts.length < n) :
    Settles ts (fun s rest => rest.length < ts.length ∧ s.Fresh) (attempt n ts) := by
  cases n with
  | zero => exact absurd hlength (Nat.not_lt_zero _)
  | succ n =>
      have halike := alike_watched ⟨[], none, []⟩ n n n (Nat.le_refl n) (Nat.le_refl n)
      have hany := alike_anyDeclaration halike.1 halike.2 (Nat.le_refl _) (Nat.le_refl _)
      have hsteady := hany ts hlength
      have hsame := hsteady.1
      rw [attempt, ← hsame]
      exact hsteady.2

end Parser

/-- A program whose first declaration is dropped goes on as if it started where parsing goes on. -/
theorem parse_of_dropped {n : Nat} {ts rest : List Token} {reports : List Report} (hne : ts ≠ [])
    (hlength : ts.length < n) (hshorter : rest.length < ts.length)
    (hdropped : Parser.declaration n ts = ⟨reports, some none, rest⟩) :
    parse ts = ⟨reports ++ (parse rest).reports, (parse rest).result, []⟩ := by
  rcases List.exists_cons_of_ne_nil hne with ⟨token, more, rfl⟩
  rcases program_eq_parse hlength (Nat.lt_succ_self _) with ⟨_, _, hwhole⟩
  rcases program_eq_parse (Nat.lt_trans hshorter hlength) hshorter with ⟨trees, hparse, hrest⟩
  rw [← hwhole, Parser.program, Parser.bind_of_result (Parser.peek_result _)]
  simp only [List.head?_cons, Option.map_some]
  rw [Parser.bind_of_some hdropped, Parser.bind_of_some (hrest.trans hparse), hparse]
  simp [Parser.ok]

/--
A declaration that fails is dropped after a report.  If its mistake is found at the
end of the input, parsing ends there; otherwise it goes on at the first boundary
behind the mistake, and what stands there is parsed as if it stood alone.  This is
the first boundary from the mistake on exactly if the mistake is not found at a
keyword with which a statement starts.
-/
theorem declaration_resumes {tokens : List Token} {start n : Nat} (hstart : start < tokens.length)
    (hlength : (tokens.drop start).length < n)
    (hfails : (Parser.attempt n (tokens.drop start)).result = none) :
    ∃ reports p q, reports ≠ [] ∧ start ≤ p ∧ p ≤ tokens.length ∧
      Parser.attempt n (tokens.drop start) = ⟨reports, none, tokens.drop p⟩ ∧
      Parser.declaration n (tokens.drop start) = ⟨reports, some none, tokens.drop q⟩ ∧
      parse (tokens.drop start) =
        ⟨reports ++ (parse (tokens.drop q)).reports, (parse (tokens.drop q)).result, []⟩ ∧
      (p = tokens.length → q = p) ∧
      (p < tokens.length → Parser.FirstBehind tokens p q) ∧
      (Parser.FirstFrom tokens p q ↔
        ∀ token ∈ tokens[p]?, token.kind.startsStatement = false) := by
  have hne : tokens.drop start ≠ [] :=
    fun hnil => Nat.not_le_of_lt hstart (List.drop_eq_nil_iff.mp hnil)
  have hsettles := Parser.settles_attempt hlength
  generalize hattempt : Parser.attempt n (tokens.drop start) = tried at hsettles hfails
  cases hsettles with
  | result _ _ => cases hfails
  | @failure reports rest hsuffix hreports =>
      rcases hsuffix with ⟨skipped, hskipped⟩
      have hp : start + skipped.length ≤ tokens.length := by
        have hsum := congrArg List.length hskipped
        rw [List.length_append, List.length_drop] at hsum
        omega
      have hrest : rest = tokens.drop (start + skipped.length) := by
        rw [← List.drop_drop, ← hskipped, List.drop_left]
      subst hrest
      rcases Parser.synchronize_drop hp with ⟨q, hq, hend, hbehind⟩
      have hdropped := Parser.declaration_of_failure (Nat.zero_lt_of_lt hlength) hattempt
      rw [hq] at hdropped
      have hshorter : (tokens.drop q).length < (tokens.drop start).length := by
        have hproceeds := Parser.proceeds_declaration hne hlength
        rcases Parser.exists_of_proceeds hproceeds with ⟨_, _, _, hparsed, _, hless⟩
        rw [hdropped] at hparsed
        cases hparsed
        exact hless
      exact ⟨reports, start + skipped.length, q, hreports, Nat.le_add_right _ _, hp, rfl, hdropped,
        parse_of_dropped hne hlength hshorter hdropped, hend, hbehind,
        Parser.firstFrom_iff hp hend hbehind⟩

/-- Behind a malformed declaration with its semicolon, parsing goes on with the next statement. -/
theorem declaration_resumes_semicolon :
    let tokens := (scan "var = 1; print 2;").tokens
    (Parser.attempt 8 tokens).result = none ∧
      ∃ q, (Parser.declaration 8 tokens).rest = tokens.drop q ∧
        Parser.FirstFrom tokens 1 q := by
  intro tokens
  have hfails : (Parser.attempt 8 tokens).result = none := by decide +kernel
  have hrest : (Parser.attempt 8 tokens).rest.length = 6 := by decide +kernel
  have hlength : tokens.length = 7 := by decide +kernel
  have hkeyword : ∀ token ∈ tokens[1]?, token.kind.startsStatement = false := by decide +kernel
  have hstart : 0 < tokens.length := by rw [hlength]; decide
  have hbound : (tokens.drop 0).length < 8 := by rw [List.drop_zero, hlength]; decide
  rcases declaration_resumes hstart hbound hfails with
    ⟨reports, p, q, _, _, hp, hattempt, hdropped, _, _, _, hfirst⟩
  rw [List.drop_zero] at hattempt hdropped
  have hone : p = 1 := by
    rw [hattempt, List.length_drop, hlength] at hrest
    omega
  subst hone
  exact ⟨hfails, q, by rw [hdropped], hfirst.mpr hkeyword⟩

/-- A statement behind a missing semicolon is not read, although it starts at a boundary. -/
theorem declaration_drops_keyword :
    let tokens := (scan "print 1 print 2;").tokens
    (Parser.attempt 6 tokens).result = none ∧
      (Parser.attempt 6 tokens).rest = tokens.drop 2 ∧ Parser.FirstFrom tokens 2 2 ∧
      (Parser.declaration 6 tokens).rest = tokens.drop 5 ∧ tokens.length = 5 ∧
      (parse tokens).result.map List.length = some 0 ∧
      (parse (tokens.drop 2)).reports = [] ∧
      (parse (tokens.drop 2)).result.map List.length = some 1 := by
  intro tokens
  have hfirst : Parser.FirstFrom tokens 2 2 := by
    refine ⟨⟨Nat.le_refl 2, Or.inr (Or.inl ?_)⟩, fun q hq => hq.1⟩
    exact ⟨⟨.kwPrint, "print", .nil, 1⟩, by decide +kernel, rfl⟩
  exact ⟨by decide +kernel, by decide +kernel, hfirst, by decide +kernel, by decide +kernel,
    by decide +kernel, by decide +kernel, by decide +kernel⟩

end Lox
