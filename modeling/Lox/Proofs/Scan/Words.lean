import Lox.Proofs.Scan.Tokens

/-!
# Words

Names and keywords are the tokens that are words.  The kind of a word is
determined by its text, so `this` and `super` are never names.
-/

namespace Lox

def IsWord (lexeme : List Char) : Prop :=
  ∃ c cs, lexeme = c :: cs ∧ Segment.isWordStart c = true ∧
    ∀ d ∈ cs, Segment.isWordPart d = true

theorem isWord_cons {c : Char} {cs : List Char} :
    IsWord (c :: cs) ↔ Segment.isWordStart c = true ∧ cs.all Segment.isWordPart = true := by
  rw [List.all_eq_true]
  constructor
  · rintro ⟨_, _, heq, hword⟩
    cases heq
    exact hword
  · intro hword
    exact ⟨c, cs, rfl, hword⟩

instance : DecidablePred IsWord
  | [] => isFalse (by rintro ⟨_, _, hnil, _⟩; cases hnil)
  | _ :: _ => decidable_of_iff _ isWord_cons.symm

namespace TokenKind

def isWord (kind : TokenKind) : Bool := kind == .identifier || (keywords.map Prod.snd).contains kind

theorem mem_keywords_of_ofWord {word : String} {kind : TokenKind} (hword : ofWord word = kind)
    (hkind : kind ≠ .identifier) : (word, kind) ∈ keywords := by
  unfold ofWord at hword
  cases hlookup : keywords.lookup word with
  | none =>
      rw [hlookup] at hword
      exact absurd hword.symm hkind
  | some found =>
      rw [hlookup] at hword
      cases hword
      rcases List.lookup_eq_some_iff.mp hlookup with ⟨before, behind, hsplit, _⟩
      rw [hsplit]
      simp

end TokenKind

namespace Segment

/-- A token that is a name or a keyword is a word, and its text determines its kind. -/
theorem Leads.word_of_isWord {kind : TokenKind} {lexeme rest : List Char} {literal : Literal}
    (hleads : Leads (.token kind lexeme literal) rest) (hkind : kind.isWord = true) :
    (kind = TokenKind.ofWord (String.ofList lexeme) ∧ literal = .nil) ∧ IsWord lexeme ∧
      ∀ d ∈ rest.head?, isWordPart d = false := by
  cases hleads with
  | @word c cs _ hc hcs hrest => exact ⟨⟨rfl, rfl⟩, ⟨c, cs, rfl, hc, hcs⟩, hrest⟩
  | @single c _ _ hsingle =>
      unfold single? at hsingle
      split at hsingle <;> cases hsingle <;> cases hkind
  | alone hmem _ =>
      simp only [extendables, List.mem_cons, Prod.mk.injEq, List.not_mem_nil, or_false] at hmem
      rcases hmem with ⟨_, rfl, _⟩ | ⟨_, rfl, _⟩ | ⟨_, rfl, _⟩ | ⟨_, rfl, _⟩ <;> cases hkind
  | extended hmem =>
      simp only [extendables, List.mem_cons, Prod.mk.injEq, List.not_mem_nil, or_false] at hmem
      rcases hmem with ⟨_, _, rfl⟩ | ⟨_, _, rfl⟩ | ⟨_, _, rfl⟩ | ⟨_, _, rfl⟩ <;> cases hkind
  | slash _ => cases hkind
  | string _ => cases hkind
  | whole _ _ _ => cases hkind
  | decimal _ _ _ _ _ => cases hkind

theorem Tiles.leads {segments : List Segment} {source : List Char}
    (htiles : Tiles segments source) {segment : Segment} (hmem : segment ∈ segments) :
    ∃ rest, Leads segment rest := by
  induction htiles with
  | nil => cases hmem
  | @cons first segments rest hleads _ ih =>
      rcases List.mem_cons.mp hmem with rfl | hmem
      · exact ⟨rest, hleads⟩
      · exact ih hmem

theorem exists_segment_of_mem_tokensBehind {segments : List Segment} {before : List Char}
    {token : Token} (hmem : token ∈ tokensBehind before segments) :
    ∃ lexeme, .token token.kind lexeme token.literal ∈ segments ∧
      token.lexeme = String.ofList lexeme := by
  induction segments generalizing before with
  | nil => cases hmem
  | cons segment segments ih =>
      rw [tokensBehind_cons, List.mem_append] at hmem
      rcases hmem with hhere | hrest
      · cases segment with
        | token kind lexeme literal =>
            cases List.mem_singleton.mp hhere
            exact ⟨lexeme, List.mem_cons_self, rfl⟩
        | blank c => cases hhere
        | comment text => cases hhere
        | stray c => cases hhere
        | unterminated text => cases hhere
      · rcases ih hrest with ⟨lexeme, hsegment, hlexeme⟩
        exact ⟨lexeme, List.mem_cons_of_mem _ hsegment, hlexeme⟩

end Segment

/--
The words among the tokens of a source have no constant, and their text determines
their kind.
-/
theorem word_of_mem_scan {source : String} {token : Token} (hmem : token ∈ (scan source).tokens)
    (hkind : token.kind.isWord = true) :
    token.kind = TokenKind.ofWord token.lexeme ∧ token.literal = .nil := by
  rw [scan_eq] at hmem
  rcases Segment.exists_segment_of_mem_tokensBehind hmem with ⟨lexeme, hsegment, hlexeme⟩
  rcases (Segment.tiles_all _).leads hsegment with ⟨rest, hleads⟩
  rw [hlexeme]
  exact (hleads.word_of_isWord hkind).1

def Token.Genuine (token : Token) : Prop :=
  token.kind.isWord = true → token.kind = TokenKind.ofWord token.lexeme

theorem genuine_of_mem_scan {source : String} {token : Token}
    (hmem : token ∈ (scan source).tokens) : token.Genuine :=
  fun hkind => (word_of_mem_scan hmem hkind).1

namespace Token.Genuine

variable {token : Token} (hgenuine : token.Genuine)

include hgenuine

theorem lexeme_this (hkind : token.kind = .kwThis) : token.lexeme = "this" := by
  have hword := hgenuine (by rw [hkind]; rfl)
  have hmem := TokenKind.mem_keywords_of_ofWord (hword.symm.trans hkind) (by decide)
  simpa [TokenKind.keywords] using hmem

theorem lexeme_super (hkind : token.kind = .kwSuper) : token.lexeme = "super" := by
  have hword := hgenuine (by rw [hkind]; rfl)
  have hmem := TokenKind.mem_keywords_of_ofWord (hword.symm.trans hkind) (by decide)
  simpa [TokenKind.keywords] using hmem

theorem ofWord_of_identifier (hkind : token.kind = .identifier) :
    TokenKind.ofWord token.lexeme = .identifier :=
  (hgenuine (by rw [hkind]; rfl)).symm.trans hkind

end Token.Genuine

end Lox
