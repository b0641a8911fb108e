import Lox.Diagnostic

/-!
# Scanning

A source is cut into segments: tokens, blanks, comments, characters that start
no token, and at most one string without its closing quote.  `cut` takes the
first segment, always the longest that fits, and does not look at lines.  Lines
are given afterwards by `Scan.add`, which counts the newlines of the segments
passed so far; a token stands on the line where it ends.
-/

namespace Lox

/-- A piece of the source. -/
inductive Segment where
  | token (kind : TokenKind) (lexeme : List Char) (literal : Literal)
  | blank (char : Char)
  | comment (text : List Char)
  | stray (char : Char)
  | unterminated (text : List Char)
deriving DecidableEq, Repr

namespace Segment

def text : Segment → List Char
  | token _ lexeme _ => lexeme
  | blank char => [char]
  | comment text => text
  | stray char => [char]
  | unterminated text => text

def newlines (s : Segment) : Nat := s.text.count '\n'

/-!
## The first segment

Each function gets what follows the first character, and gives the segment with
the characters behind it.
-/

def isWordStart (c : Char) : Bool := c.isAlpha || c == '_'

def isWordPart (c : Char) : Bool := c.isAlphanum || c == '_'

/-- The kind of a character that is a token whatever follows. -/
def single? : Char → Option TokenKind
  | '(' => some .leftParen
  | ')' => some .rightParen
  | '{' => some .leftBrace
  | '}' => some .rightBrace
  | ',' => some .comma
  | '.' => some .dot
  | '-' => some .minus
  | '+' => some .plus
  | ';' => some .semicolon
  | '*' => some .star
  | '?' => some .question
  | ':' => some .colon
  | _ => none

def extendable (c : Char) (alone extended : TokenKind) : List Char → Segment × List Char
  | '=' :: rest => (token extended [c, '='] .nil, rest)
  | rest => (token alone [c] .nil, rest)

def slash : List Char → Segment × List Char
  | '/' :: rest =>
      (comment ('/' :: '/' :: rest.takeWhile (· != '\n')), rest.dropWhile (· != '\n'))
  | rest => (token .slash ['/'] .nil, rest)

def quoted (rest : List Char) : Segment × List Char :=
  let body := rest.takeWhile (· != '"')
  match rest.dropWhile (· != '"') with
  | [] => (unterminated ('"' :: body), [])
  | quote :: behind =>
      (token .string ('"' :: body ++ [quote]) (.text (String.ofList body)), behind)

def digitsValue (digits : List Char) : Nat :=
  digits.foldl (fun n d => 10 * n + (d.toNat - '0'.toNat)) 0

def numeral (whole places : List Char) : Literal :=
  .number (Number.ofDecimal (digitsValue (whole ++ places)) (-(places.length : Int)))

def digits (c : Char) (rest : List Char) : Segment × List Char :=
  let whole := c :: rest.takeWhile Char.isDigit
  match rest.dropWhile Char.isDigit with
  | '.' :: d :: behind =>
      if d.isDigit then
        let places := d :: behind.takeWhile Char.isDigit
        (token .number (whole ++ '.' :: places) (numeral whole places),
          behind.dropWhile Char.isDigit)
      else
        (token .number whole (numeral whole []), '.' :: d :: behind)
  | behind => (token .number whole (numeral whole []), behind)

def word (c : Char) (rest : List Char) : Segment × List Char :=
  let lexeme := c :: rest.takeWhile isWordPart
  (token (TokenKind.ofWord (String.ofList lexeme)) lexeme .nil, rest.dropWhile isWordPart)

/-- The first segment of the source `c :: rest`, and what is behind it. -/
def cut (c : Char) (rest : List Char) : Segment × List Char :=
  match single? c with
  | some kind => (token kind [c] .nil, rest)
  | none =>
      if c = '!' then extendable c .bang .bangEqual rest
      else if c = '=' then extendable c .equal .equalEqual rest
      else if c = '<' then extendable c .less .lessEqual rest
      else if c = '>' then extendable c .greater .greaterEqual rest
      else if c = '/' then slash rest
      else if c = ' ' ∨ c = '\r' ∨ c = '\t' ∨ c = '\n' then (blank c, rest)
      else if c = '"' then quoted rest
      else if c.isDigit then digits c rest
      else if isWordStart c then word c rest
      else (stray c, rest)

/-!
## The rest is shorter
-/

theorem length_dropWhile_le (p : Char → Bool) (cs : List Char) :
    (cs.dropWhile p).length ≤ cs.length :=
  (List.dropWhile_suffix p).length_le

theorem length_extendable_le (c : Char) (alone extended : TokenKind) (rest : List Char) :
    (extendable c alone extended rest).2.length ≤ rest.length := by
  unfold extendable
  split <;> simp

theorem length_slash_le (rest : List Char) : (slash rest).2.length ≤ rest.length := by
  unfold slash
  split
  · exact Nat.le_succ_of_le (length_dropWhile_le _ _)
  · exact Nat.le_refl _

theorem length_quoted_le (rest : List Char) : (quoted rest).2.length ≤ rest.length := by
  have behind := length_dropWhile_le (· != '"') rest
  unfold quoted
  split
  · exact Nat.zero_le _
  · next h =>
      rw [h] at behind
      exact Nat.le_of_succ_le behind

theorem length_digits_le (c : Char) (rest : List Char) :
    (digits c rest).2.length ≤ rest.length := by
  have behind := length_dropWhile_le Char.isDigit rest
  unfold digits
  split
  · next d places h =>
      rw [h] at behind
      have := length_dropWhile_le Char.isDigit places
      split
      · simp only [List.length_cons] at behind ⊢
        omega
      · exact behind
  · exact behind

theorem length_word_le (c : Char) (rest : List Char) : (word c rest).2.length ≤ rest.length :=
  length_dropWhile_le _ _

theorem length_cut_le (c : Char) (rest : List Char) : (cut c rest).2.length ≤ rest.length := by
  unfold cut
  split
  · exact Nat.le_refl _
  · split; · exact length_extendable_le _ _ _ _
    split; · exact length_extendable_le _ _ _ _
    split; · exact length_extendable_le _ _ _ _
    split; · exact length_extendable_le _ _ _ _
    split; · exact length_slash_le _
    split; · exact Nat.le_refl _
    split; · exact length_quoted_le _
    split; · exact length_digits_le _ _
    split; · exact length_word_le _ _
    exact Nat.le_refl _

def all : List Char → List Segment
  | [] => []
  | c :: rest => (cut c rest).1 :: all (cut c rest).2
termination_by source => source.length
decreasing_by exact Nat.lt_succ_of_le (length_cut_le c rest)

end Segment

/-!
## Lines
-/

structure Scan where
  line : Nat := 1
  tokens : Array Token := #[]
  diagnostics : Array Diagnostic := #[]

namespace Scan

def add (scan : Scan) (segment : Segment) : Scan :=
  let line := scan.line + segment.newlines
  match segment with
  | .token kind lexeme literal =>
      { scan with line, tokens := scan.tokens.push ⟨kind, String.ofList lexeme, literal, line⟩ }
  | .stray _ =>
      { scan with
        diagnostics := scan.diagnostics.push (.atLine line .unexpectedCharacter) }
  | .unterminated _ =>
      { scan with
        line, diagnostics := scan.diagnostics.push (.atLine line .unterminatedString) }
  | .blank _ | .comment _ => { scan with line }

end Scan

/-- The tokens of a source before its end, the line of the end, and what is wrong with it. -/
structure Scanned where
  tokens : List Token
  line : Nat
  diagnostics : List Diagnostic

namespace Scanned

def eof (s : Scanned) : Token := .endOfInput s.line

def allTokens (s : Scanned) : List Token := s.tokens ++ [s.eof]

end Scanned

def scan (source : String) : Scanned :=
  let done := (Segment.all source.toList).foldl Scan.add {}
  ⟨done.tokens.toList, done.line, done.diagnostics.toList⟩

end Lox
