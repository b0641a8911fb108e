import Lox.Proofs.Scan.LongestMatch

/-!
# Blanks separate tokens

No token goes on behind a blank that stands outside of a string.  A newline ends
comments as well, so a source can be scanned line by line: the lines below only
stand further down.  And the tokens of any source, written with single spaces
between them, are scanned as the same tokens.
-/

namespace Lox

def Token.content (t : Token) : TokenKind × String × Literal := (t.kind, t.lexeme, t.literal)

namespace Segment

def content? (segment : Segment) : Option (TokenKind × String × Literal) :=
  (segment.token? 0).map Token.content

end Segment

/-!
# What is scanned, apart from lines
-/

theorem scan_contents (source : String) :
    (scan source).tokens.map Token.content =
      (Segment.all source.toList).filterMap Segment.content? := by
  have hbehind : ∀ (segments : List Segment) (before : List Char),
      (Segment.tokensBehind before segments).map Token.content =
        segments.filterMap Segment.content? := by
    intro segments
    induction segments with
    | nil => exact fun _ => rfl
    | cons segment segments ih =>
        intro before
        rw [Segment.tokensBehind_cons, List.map_append, ih]
        cases segment <;> rfl
  rw [scan_eq, hbehind]

theorem unterminatedString_of_mem {segments : List Segment} {text : List Char}
    (hmem : .unterminated text ∈ segments) (last : Nat) (before : List Char) :
    .unterminatedString ∈
      (Segment.complaintsBehind last before segments).map Diagnostic.violation := by
  induction segments generalizing before with
  | nil => cases hmem
  | cons segment segments ih =>
      rw [Segment.complaintsBehind_cons, List.map_append, List.mem_append]
      rcases List.mem_cons.mp hmem with rfl | hmem
      · exact .inl List.mem_cons_self
      · exact .inr (ih hmem _)

/-!
# Lines
-/

theorem endsBefore_newline_of_closed {source : String}
    (hclosed : .unterminatedString ∉ (scan source).diagnostics.map Diagnostic.violation) :
    ∀ s ∈ Segment.all source.toList, s.endsBefore '\n' = true := by
  intro s hs
  cases s with
  | unterminated text =>
      rw [scan_eq] at hclosed
      exact absurd (unterminatedString_of_mem hs _ _) hclosed
  | _ => rfl

/--
Scanning distributes over lines.  If no string is left open in a source, another
one below it is scanned as if it stood alone: the same tokens and diagnostics
follow those of the first source, further down by its lines.
-/
theorem scan_newline {first : String}
    (hclosed : .unterminatedString ∉ (scan first).diagnostics.map Diagnostic.violation)
    (second : String) :
    let lines := newlines first + 1
    let joined := scan (first ++ "\n" ++ second)
    joined.allTokens = (scan first).tokens ++ (scan second).allTokens.map (Token.down lines) ∧
      joined.diagnostics =
        (scan first).diagnostics ++ (scan second).diagnostics.map (Diagnostic.down lines) := by
  intro lines joined
  have hjoined : joined = _ := scan_append_newline (endsBefore_newline_of_closed hclosed) second
  rw [hjoined]
  constructor
  · simp [Scanned.allTokens, Scanned.eof, Token.endOfInput, Token.down, lines]
  · rfl

/-- A string over two lines, a stray character, and a number that a digit below does not extend. -/
theorem scan_newline_number :
    (scan "\"a\nb\" @ 1.").diagnostics = [.atLine 2 .unexpectedCharacter] ∧
      (scan ("\"a\nb\" @ 1." ++ "\n" ++ "5 \"")).diagnostics =
        [.atLine 2 .unexpectedCharacter, .atLine 3 .unterminatedString] := by
  have hfirst : (scan "\"a\nb\" @ 1.").diagnostics = [.atLine 2 .unexpectedCharacter] := by
    decide +kernel
  have hsecond : (scan "5 \"").diagnostics = [.atLine 1 .unterminatedString] := by
    decide +kernel
  refine ⟨hfirst, ?_⟩
  rw [(scan_newline (by rw [hfirst]; decide) "5 \"").2, hfirst, hsecond]
  decide +kernel

/-!
# Tokens with spaces between them
-/

namespace Segment

def isToken (segment : Segment) : Bool := (segment.token? 0).isSome

theorem isClean_of_isToken {segment : Segment} (htoken : segment.isToken = true) :
    segment.isClean = true := by
  cases segment with
  | token kind lexeme literal => rfl
  | _ => cases htoken

theorem all_of_rule {segment : Segment} (hrule : Rule segment) : all segment.text = [segment] := by
  have htiles := Tiles.cons hrule.leads .nil
  rw [List.append_nil] at htiles
  exact all_of_tiles htiles

theorem all_append_space {segment : Segment} (hrule : Rule segment)
    (htoken : segment.isToken = true) (more : List Char) :
    all (segment.text ++ ' ' :: more) = segment :: .blank ' ' :: all more := by
  have hends : ∀ s ∈ all segment.text, s.endsBefore ' ' = true := by
    rw [all_of_rule hrule]
    intro s hs
    rw [List.mem_singleton.mp hs]
    cases segment with
    | token kind lexeme literal => rfl
    | _ => cases htoken
  rw [all_append_blank (by decide) hends, all_of_rule hrule, List.singleton_append]

/-- Tokens with spaces between them are cut into these tokens, and there is no error. -/
theorem all_intercalate {segments : List Segment}
    (htokens : ∀ s ∈ segments, Rule s ∧ s.isToken = true) :
    (all ([' '].intercalate (segments.map text))).filterMap content? =
        segments.filterMap content? ∧
      ∀ s ∈ all ([' '].intercalate (segments.map text)), s.isClean = true := by
  induction segments with
  | nil =>
      rw [List.map_nil, List.intercalate_nil, all]
      constructor
      · rfl
      · intro s hs
        cases hs
  | cons first segments ih =>
      rcases List.forall_mem_cons.mp htokens with ⟨⟨hrule, htoken⟩, hrest⟩
      cases segments with
      | nil =>
          rw [List.map_cons, List.map_nil, List.intercalate_singleton, all_of_rule hrule]
          refine ⟨rfl, ?_⟩
          intro s hs
          rw [List.mem_singleton.mp hs]
          exact isClean_of_isToken htoken
      | cons second segments =>
          rcases ih hrest with ⟨hcontents, hcleanRest⟩
          rw [List.map_cons, List.map_cons, List.intercalate_cons_cons, List.append_assoc,
            List.singleton_append, ← List.map_cons, all_append_space hrule htoken]
          constructor
          · rw [List.filterMap_cons, List.filterMap_cons_none rfl, hcontents,
              ← List.filterMap_cons]
          · exact List.forall_mem_cons.mpr
              ⟨isClean_of_isToken htoken, List.forall_mem_cons.mpr ⟨rfl, hcleanRest⟩⟩

theorem lexemes_eq (segments : List Segment) :
    (segments.filterMap content?).map (·.2.1) =
      ((segments.filter isToken).map text).map String.ofList := by
  induction segments with
  | nil => rfl
  | cons segment segments ih =>
      cases segment <;>
        simp [List.filterMap_cons, List.filter_cons, content?, isToken, token?, Token.content, ih,
          text]

theorem filterMap_filter_isToken (segments : List Segment) :
    (segments.filter isToken).filterMap content? = segments.filterMap content? := by
  induction segments with
  | nil => rfl
  | cons segment segments ih =>
      cases segment <;>
        simp [List.filterMap_cons, List.filter_cons, content?, isToken, token?, ih]

end Segment

def respaced (source : String) : String :=
  " ".intercalate ((scan source).tokens.map Token.lexeme)

theorem respaced_toList (source : String) :
    (respaced source).toList =
      [' '].intercalate
        (((Segment.all source.toList).filter Segment.isToken).map Segment.text) := by
  have hlexemes : (scan source).tokens.map Token.lexeme =
      ((scan source).tokens.map Token.content).map (·.2.1) := by
    rw [List.map_map]
    rfl
  rw [respaced, hlexemes, scan_contents, Segment.lexemes_eq, String.toList_intercalate,
    List.map_map]
  simp [Function.comp_def]

/--
Rescanning the tokens of a source, with single spaces between them, gives the same
tokens up to their lines, and no error, whatever errors there were in the source.
-/
theorem scan_respaced (source : String) :
    (scan (respaced source)).diagnostics = [] ∧
      (scan (respaced source)).allTokens.map Token.content =
        (scan source).allTokens.map Token.content := by
  have htokens : ∀ s ∈ (Segment.all source.toList).filter Segment.isToken,
      Segment.Rule s ∧ s.isToken = true := by
    intro s hs
    rcases List.mem_filter.mp hs with ⟨hmem, htoken⟩
    rcases (Segment.tiles_all source.toList).leads hmem with ⟨rest, hleads⟩
    exact ⟨hleads.rule (Segment.isClean_of_isToken htoken), htoken⟩
  rcases Segment.all_intercalate htokens with ⟨hcontents, hclean⟩
  rw [← respaced_toList] at hcontents hclean
  constructor
  · exact (scan_diagnostics_iff _).mpr hclean
  · rw [Scanned.allTokens, Scanned.allTokens, List.map_append, List.map_append, scan_contents,
      hcontents, Segment.filterMap_filter_isToken, scan_contents]
    rfl

example : respaced "x=1.//y\n\"a\nb\"@<=!z\"" = "x = 1 . \"a\nb\" <= ! z" := by decide +kernel

end Lox
