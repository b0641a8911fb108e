import Mathlib.Data.List.TakeWhile
import Lox.Token.Scan

/-!
# Segments and what may follow them

The first segment of a source is the longest one that fits.  This is said here
without running the scanner: `Leads segment rest` lists the forms of segments, and
for each form what must not come next because it would be part of the segment.
A source is cut in exactly one way into segments that lead to one another.
-/

namespace Lox
namespace Segment

/-- The operators that an equals sign extends, alone and extended. -/
def extendables : List (Char × TokenKind × TokenKind) :=
  [('!', .bang, .bangEqual), ('=', .equal, .equalEqual), ('<', .less, .lessEqual),
    ('>', .greater, .greaterEqual)]

def blanks : List Char := [' ', '\r', '\t', '\n']

/-- What can stand behind the digits of a number that has no places. -/
def EndsWhole (rest : List Char) : Prop :=
  (∀ d ∈ rest.head?, d.isDigit = false) ∧
    ∀ d behind, rest = '.' :: d :: behind → d.isDigit = false

/-- A segment that the scanner cuts off in front of `rest`. -/
inductive Leads : Segment → List Char → Prop where
  | single {c : Char} {kind : TokenKind} {rest : List Char} :
      single? c = some kind → Leads (.token kind [c] .nil) rest
  | alone {c : Char} {alone extended : TokenKind} {rest : List Char} :
      (c, alone, extended) ∈ extendables → rest.head? ≠ some '=' →
      Leads (.token alone [c] .nil) rest
  | extended {c : Char} {alone extended : TokenKind} {rest : List Char} :
      (c, alone, extended) ∈ extendables → Leads (.token extended [c, '='] .nil) rest
  | slash {rest : List Char} :
      rest.head? ≠ some '/' → Leads (.token .slash ['/'] .nil) rest
  | comment {text rest : List Char} :
      (∀ c ∈ text, (c != '\n') = true) → (∀ c ∈ rest.head?, (c != '\n') = false) →
      Leads (.comment ('/' :: '/' :: text)) rest
  | blank {c : Char} {rest : List Char} : c ∈ blanks → Leads (.blank c) rest
  | string {body rest : List Char} :
      (∀ c ∈ body, (c != '"') = true) →
      Leads (.token .string ('"' :: body ++ ['"']) (.text (String.ofList body))) rest
  | unterminated {body : List Char} :
      (∀ c ∈ body, (c != '"') = true) → Leads (.unterminated ('"' :: body)) []
  | whole {c : Char} {whole rest : List Char} :
      c.isDigit = true → (∀ d ∈ whole, d.isDigit = true) → EndsWhole rest →
      Leads (.token .number (c :: whole) (numeral (c :: whole) [])) rest
  | decimal {c d : Char} {whole places rest : List Char} :
      c.isDigit = true → (∀ d ∈ whole, d.isDigit = true) →
      d.isDigit = true → (∀ d ∈ places, d.isDigit = true) →
      (∀ d ∈ rest.head?, d.isDigit = false) →
      Leads (.token .number (c :: whole ++ '.' :: d :: places)
        (numeral (c :: whole) (d :: places))) rest
  | word {c : Char} {cs rest : List Char} :
      isWordStart c = true → (∀ d ∈ cs, isWordPart d = true) →
      (∀ d ∈ rest.head?, isWordPart d = false) →
      Leads (.token (TokenKind.ofWord (String.ofList (c :: cs))) (c :: cs) .nil) rest
  | stray {c : Char} {rest : List Char} :
      single? c = none → (∀ entry ∈ extendables, c ≠ entry.1) → c ≠ '/' → c ∉ blanks →
      c ≠ '"' → c.isDigit = false → isWordStart c = false → Leads (.stray c) rest

/-!
# Runs of characters
-/

section

variable {p : Char → Bool} {run rest : List Char}

theorem takeWhile_append_of_head (hrun : ∀ c ∈ run, p c = true)
    (hrest : ∀ c ∈ rest.head?, p c = false) : (run ++ rest).takeWhile p = run := by
  rw [List.takeWhile_append_of_pos hrun]
  cases rest with
  | nil => simp
  | cons c rest => simp [hrest c rfl]

theorem dropWhile_append_of_head (hrun : ∀ c ∈ run, p c = true)
    (hrest : ∀ c ∈ rest.head?, p c = false) : (run ++ rest).dropWhile p = rest := by
  rw [List.dropWhile_append_of_pos hrun]
  cases rest with
  | nil => rfl
  | cons c rest => simp [hrest c rfl]

theorem head?_dropWhile (p : Char → Bool) (cs : List Char) :
    ∀ c ∈ (cs.dropWhile p).head?, p c = false := by
  intro c hc
  have hnot := List.head?_dropWhile_not p cs
  rw [Option.mem_def.mp hc] at hnot
  simpa using hnot

end

/-!
# The scanner cuts off leading segments
-/

theorem leads_extendable {c : Char} {alone extended : TokenKind}
    (hmem : (c, alone, extended) ∈ extendables) (rest : List Char) :
    Leads (extendable c alone extended rest).1 (extendable c alone extended rest).2 ∧
      (extendable c alone extended rest).1.text ++ (extendable c alone extended rest).2 =
        c :: rest := by
  unfold extendable
  split
  · exact ⟨.extended hmem, rfl⟩
  · next hrest =>
      refine ⟨.alone hmem ?_, rfl⟩
      intro hhead
      rcases List.head?_eq_some_iff.mp hhead with ⟨behind, rfl⟩
      exact hrest behind rfl

theorem leads_slash (rest : List Char) :
    Leads (slash rest).1 (slash rest).2 ∧ (slash rest).1.text ++ (slash rest).2 = '/' :: rest := by
  unfold slash
  split
  · next rest =>
      have htext : ∀ c ∈ rest.takeWhile (· != '\n'), (c != '\n') = true := by
        intro c hc
        exact List.mem_takeWhile_imp (p := (· != '\n')) hc
      refine ⟨.comment htext (head?_dropWhile _ _), ?_⟩
      simp [text]
  · next hrest =>
      refine ⟨.slash ?_, rfl⟩
      intro hhead
      rcases List.head?_eq_some_iff.mp hhead with ⟨behind, rfl⟩
      exact hrest behind rfl

theorem leads_quoted (rest : List Char) :
    Leads (quoted rest).1 (quoted rest).2 ∧
      (quoted rest).1.text ++ (quoted rest).2 = '"' :: rest := by
  have hsplit := List.takeWhile_append_dropWhile (p := (· != '"')) (l := rest)
  have hbody : ∀ c ∈ rest.takeWhile (· != '"'), (c != '"') = true := by
    intro c hc
    exact List.mem_takeWhile_imp (p := (· != '"')) hc
  have hhead := head?_dropWhile (· != '"') rest
  unfold quoted
  split
  · next hnil =>
      rw [hnil, List.append_nil] at hsplit
      refine ⟨.unterminated hbody, ?_⟩
      simp [text, hsplit]
  · next quote behind hcons =>
      rw [hcons] at hsplit hhead
      have hquote : quote = '"' := by simpa using hhead quote rfl
      subst hquote
      refine ⟨.string hbody, ?_⟩
      simp only [text, List.cons_append, List.append_assoc, List.nil_append]
      rw [hsplit]

theorem leads_digits {c : Char} (hc : c.isDigit = true) (rest : List Char) :
    Leads (digits c rest).1 (digits c rest).2 ∧
      (digits c rest).1.text ++ (digits c rest).2 = c :: rest := by
  have hsplit := List.takeWhile_append_dropWhile (p := Char.isDigit) (l := rest)
  have hwhole : ∀ d ∈ rest.takeWhile Char.isDigit, d.isDigit = true :=
    fun d hd => List.mem_takeWhile_imp hd
  have hhead := head?_dropWhile Char.isDigit rest
  unfold digits
  split
  · next d behind hcons =>
      rw [hcons] at hsplit hhead
      by_cases hd : d.isDigit = true
      · rw [if_pos hd]
        refine ⟨.decimal hc hwhole hd (fun e he => List.mem_takeWhile_imp he)
          (head?_dropWhile _ _), ?_⟩
        simp only [text, List.cons_append, List.append_assoc,
          List.takeWhile_append_dropWhile]
        rw [hsplit]
      · rw [if_neg hd]
        refine ⟨.whole hc hwhole ⟨hhead, ?_⟩, ?_⟩
        · intro e behind' heq
          cases heq
          simpa using hd
        · simp only [text, List.cons_append]
          rw [hsplit]
  · next hother =>
      refine ⟨.whole hc hwhole ⟨hhead, ?_⟩, ?_⟩
      · intro d behind heq
        exact absurd heq (hother d behind)
      · simp only [text, List.cons_append, List.takeWhile_append_dropWhile]

theorem leads_word {c : Char} (hc : isWordStart c = true) (rest : List Char) :
    Leads (word c rest).1 (word c rest).2 ∧
      (word c rest).1.text ++ (word c rest).2 = c :: rest := by
  unfold word
  refine ⟨.word hc (fun d hd => List.mem_takeWhile_imp hd) (head?_dropWhile _ _), ?_⟩
  simp only [text, List.cons_append, List.takeWhile_append_dropWhile]

theorem leads_cut (c : Char) (rest : List Char) :
    Leads (cut c rest).1 (cut c rest).2 ∧ (cut c rest).1.text ++ (cut c rest).2 = c :: rest := by
  unfold cut
  cases hsingle : single? c with
  | some kind => exact ⟨.single hsingle, rfl⟩
  | none =>
      simp only
      by_cases hbang : c = '!'
      · subst hbang
        exact leads_extendable (by decide) rest
      rw [if_neg hbang]
      by_cases hequal : c = '='
      · subst hequal
        exact leads_extendable (by decide) rest
      rw [if_neg hequal]
      by_cases hless : c = '<'
      · subst hless
        exact leads_extendable (by decide) rest
      rw [if_neg hless]
      by_cases hgreater : c = '>'
      · subst hgreater
        exact leads_extendable (by decide) rest
      rw [if_neg hgreater]
      by_cases hslash : c = '/'
      · subst hslash
        exact leads_slash rest
      rw [if_neg hslash]
      by_cases hblank : c = ' ' ∨ c = '\r' ∨ c = '\t' ∨ c = '\n'
      · rw [if_pos hblank]
        exact ⟨.blank (by simpa [blanks] using hblank), rfl⟩
      rw [if_neg hblank]
      by_cases hquote : c = '"'
      · subst hquote
        exact leads_quoted rest
      rw [if_neg hquote]
      by_cases hdigit : c.isDigit = true
      · rw [if_pos hdigit]
        exact leads_digits hdigit rest
      rw [if_neg hdigit]
      by_cases hword : isWordStart c = true
      · rw [if_pos hword]
        exact leads_word hword rest
      rw [if_neg hword]
      refine ⟨.stray hsingle ?_ hslash (by simpa [blanks] using hblank) hquote
        (by simpa using hdigit) (by simpa using hword), rfl⟩
      simp [extendables, hbang, hequal, hless, hgreater]

/-!
# Leading segments are cut off
-/

theorem cut_single {c : Char} {kind : TokenKind} (hsingle : single? c = some kind)
    (rest : List Char) : cut c rest = (.token kind [c] .nil, rest) := by
  unfold cut
  rw [hsingle]

theorem cut_extendable {c : Char} {alone extended : TokenKind}
    (hmem : (c, alone, extended) ∈ extendables) (rest : List Char) :
    cut c rest = extendable c alone extended rest := by
  simp only [extendables, List.mem_cons, Prod.mk.injEq, List.not_mem_nil, or_false] at hmem
  rcases hmem with ⟨rfl, rfl, rfl⟩ | ⟨rfl, rfl, rfl⟩ | ⟨rfl, rfl, rfl⟩ | ⟨rfl, rfl, rfl⟩ <;> rfl

theorem cut_blank {c : Char} (hblank : c ∈ blanks) (rest : List Char) :
    cut c rest = (.blank c, rest) := by
  simp only [blanks, List.mem_cons, List.not_mem_nil, or_false] at hblank
  rcases hblank with rfl | rfl | rfl | rfl <;> rfl

def special : List Char :=
  ['(', ')', '{', '}', ',', '.', '-', '+', ';', '*', '?', ':', '!', '=', '<', '>', '/', ' ', '\r',
    '\t', '\n', '"']

theorem cut_of_not_special {c : Char} (hc : c ∉ special) (rest : List Char) :
    cut c rest =
      if c.isDigit then digits c rest else if isWordStart c then word c rest
      else (.stray c, rest) := by
  have hsingle : single? c = none := by
    unfold single?
    split <;> first | rfl | exact absurd (by decide) hc
  simp only [special, List.mem_cons, List.not_mem_nil, or_false, not_or] at hc
  unfold cut
  rw [hsingle]
  simp [hc]

theorem not_special_of_isDigit {c : Char} (hc : c.isDigit = true) : c ∉ special := by
  intro hspecial
  have hnone : special.all (!·.isDigit) = true := by decide
  have hdigit := List.all_eq_true.mp hnone c hspecial
  rw [hc] at hdigit
  cases hdigit

theorem not_special_of_isWordStart {c : Char} (hc : isWordStart c = true) : c ∉ special := by
  intro hspecial
  have hnone : special.all (!isWordStart ·) = true := by decide
  have hword := List.all_eq_true.mp hnone c hspecial
  rw [hc] at hword
  cases hword

theorem not_isDigit_of_isWordStart {c : Char} (hc : isWordStart c = true) : c.isDigit = false := by
  rw [isWordStart, Bool.or_eq_true] at hc
  rcases hc with halpha | hunderscore
  · have hletter : (decide (65 ≤ c.val ∧ c.val ≤ 90) ||
        decide (97 ≤ c.val) && decide (c.val ≤ 122)) = true := halpha
    have hdigit : c.isDigit = (decide (48 ≤ c.val) && decide (c.val ≤ 57)) := rfl
    simp only [Bool.or_eq_true, Bool.and_eq_true, decide_eq_true_eq,
      UInt32.le_iff_toNat_le] at hletter
    rw [hdigit, Bool.and_eq_false_iff]
    simp only [decide_eq_false_iff_not, UInt32.le_iff_toNat_le]
    simp only [UInt32.toNat_ofNat] at hletter ⊢
    omega
  · rw [beq_iff_eq.mp hunderscore]
    rfl

theorem cut_of_leads {segment : Segment} {behind : List Char} (hleads : Leads segment behind) :
    ∃ c rest, segment.text ++ behind = c :: rest ∧ cut c rest = (segment, behind) := by
  cases hleads with
  | @single c _ _ hsingle => exact ⟨c, behind, rfl, cut_single hsingle behind⟩
  | @alone c alone extended _ hmem hhead =>
      refine ⟨c, behind, rfl, ?_⟩
      rw [cut_extendable hmem]
      unfold extendable
      split
      · exact absurd rfl hhead
      · rfl
  | @extended c alone extended _ hmem =>
      refine ⟨c, '=' :: behind, rfl, ?_⟩
      rw [cut_extendable hmem]
      rfl
  | slash hhead =>
      refine ⟨'/', behind, rfl, ?_⟩
      show slash behind = _
      unfold slash
      split
      · exact absurd rfl hhead
      · rfl
  | @comment text _ htext hhead =>
      refine ⟨'/', '/' :: (text ++ behind), rfl, ?_⟩
      show (Segment.comment ('/' :: '/' :: (text ++ behind).takeWhile (· != '\n')),
        (text ++ behind).dropWhile (· != '\n')) = _
      rw [takeWhile_append_of_head htext hhead, dropWhile_append_of_head htext hhead]
  | @blank c _ hblank => exact ⟨c, behind, rfl, cut_blank hblank behind⟩
  | @string body _ hbody =>
      refine ⟨'"', body ++ '"' :: behind, by simp [text], ?_⟩
      show quoted (body ++ '"' :: behind) = _
      have hhead : ∀ c ∈ ('"' :: behind).head?, (c != '"') = false := by simp
      unfold quoted
      rw [takeWhile_append_of_head hbody hhead, dropWhile_append_of_head hbody hhead]
  | @unterminated body hbody =>
      refine ⟨'"', body, by simp [text], ?_⟩
      show quoted body = _
      have htake : (body ++ []).takeWhile (· != '"') = body :=
        takeWhile_append_of_head hbody (by simp)
      have hdrop : (body ++ []).dropWhile (· != '"') = [] :=
        dropWhile_append_of_head hbody (by simp)
      rw [List.append_nil] at htake hdrop
      unfold quoted
      rw [htake, hdrop]
  | @whole c whole _ hc hwhole hends =>
      refine ⟨c, whole ++ behind, rfl, ?_⟩
      rw [cut_of_not_special (not_special_of_isDigit hc), if_pos hc]
      unfold digits
      rw [takeWhile_append_of_head hwhole hends.1, dropWhile_append_of_head hwhole hends.1]
      split
      · next d rest =>
          rw [if_neg]
          simp [hends.2 d rest rfl]
      · rfl
  | @decimal c d whole places _ hc hwhole hd hplaces hhead =>
      refine ⟨c, whole ++ '.' :: d :: (places ++ behind), by simp [text], ?_⟩
      have hdot : ∀ e ∈ ('.' :: d :: (places ++ behind)).head?, e.isDigit = false := by
        intro e he
        cases he
        rfl
      rw [cut_of_not_special (not_special_of_isDigit hc), if_pos hc]
      unfold digits
      rw [takeWhile_append_of_head hwhole hdot, dropWhile_append_of_head hwhole hdot]
      simp only [hd, if_true]
      rw [takeWhile_append_of_head hplaces hhead, dropWhile_append_of_head hplaces hhead]
  | @word c cs _ hc hcs hhead =>
      refine ⟨c, cs ++ behind, rfl, ?_⟩
      rw [cut_of_not_special (not_special_of_isWordStart hc),
        if_neg (by simp [not_isDigit_of_isWordStart hc]), if_pos hc]
      unfold Segment.word
      rw [takeWhile_append_of_head hcs hhead, dropWhile_append_of_head hcs hhead]
  | @stray c _ hsingle hextendable hslash hblank hquote hdigit hword =>
      refine ⟨c, behind, rfl, ?_⟩
      simp only [extendables, List.forall_mem_cons] at hextendable
      simp only [blanks, List.mem_cons, List.not_mem_nil, or_false] at hblank
      unfold cut
      rw [hsingle]
      simp [hextendable, hslash, hblank, hquote, hdigit, hword]

/-!
# Tilings
-/

inductive Tiles : List Segment → List Char → Prop where
  | nil : Tiles [] []
  | cons {segment : Segment} {segments : List Segment} {rest : List Char} :
      Leads segment rest → Tiles segments rest →
      Tiles (segment :: segments) (segment.text ++ rest)

theorem tiles_all (source : List Char) : Tiles (all source) source := by
  induction source using all.induct with
  | case1 =>
      rw [all]
      exact .nil
  | case2 c rest ih =>
      rw [all]
      obtain ⟨hleads, htext⟩ := leads_cut c rest
      have htiles := Tiles.cons hleads ih
      rwa [htext] at htiles

theorem all_of_tiles {segments : List Segment} {source : List Char}
    (htiles : Tiles segments source) : all source = segments := by
  induction htiles with
  | nil => rw [all]
  | @cons segment segments rest hleads _ ih =>
      rcases cut_of_leads hleads with ⟨c, behind, htext, hcut⟩
      rw [htext, all, hcut, ih]

end Segment
end Lox
