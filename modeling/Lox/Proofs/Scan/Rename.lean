import Lox.Proofs.Scan.Words

/-!
# Sources with other names

A source in which the names, and only they, are written with other names.  It is
scanned to the same tokens except for the texts of the names: a name starts like
any other name, so what stands in front of it is cut off as before.
-/

namespace Lox

def IsName (name : String) : Prop := IsWord name.toList ∧ TokenKind.ofWord name = .identifier

instance : DecidablePred IsName := fun _ => inferInstanceAs (Decidable (_ ∧ _))

namespace Segment

/-- Segments with new texts for the names; `place` counts the tokens in front of them. -/
def renamed (names : Nat → String) : Nat → List Segment → List Segment
  | _, [] => []
  | place, .token kind lexeme literal :: segments =>
      .token kind (if kind = .identifier then (names place).toList else lexeme) literal ::
        renamed names (place + 1) segments
  | place, segment :: segments => segment :: renamed names place segments

end Segment

/-- A source in which the token at each place, if it is a name, is written as given. -/
def rename (names : Nat → String) (source : String) : String :=
  String.ofList ((Segment.renamed names 0 (Segment.all source.toList)).flatMap Segment.text)

def Token.renamed (name : String) (t : Token) : Token :=
  if t.kind = .identifier then { t with lexeme := name } else t

namespace Segment

/-!
# What a segment can stand in front of
-/

/-- Texts with the same first character, or with two characters that both start words. -/
inductive SameFirst : List Char → List Char → Prop where
  | nil : SameFirst [] []
  | same (c : Char) (cs cs' : List Char) : SameFirst (c :: cs) (c :: cs')
  | word {c c' : Char} (cs cs' : List Char) :
      isWordStart c = true → isWordStart c' = true → SameFirst (c :: cs) (c' :: cs')

structure StartsAlike (cs cs' : List Char) : Prop where
  first : SameFirst cs cs'
  dot : ∀ behind', cs' = '.' :: behind' → ∃ behind, cs = '.' :: behind ∧ SameFirst behind behind'

/-- A character class that has all characters that start words, or none of them. -/
theorem SameFirst.head {cs cs' : List Char} (hsame : SameFirst cs cs') {p : Char → Bool} {b : Bool}
    (hp : ∀ c, isWordStart c = true → p c = b) (hhead : ∀ c ∈ cs.head?, p c = false) :
    ∀ c ∈ cs'.head?, p c = false := by
  cases hsame with
  | nil => exact hhead
  | same c cs cs' => exact hhead
  | @word c c' cs cs' hc hc' =>
      intro d hd
      cases hd
      rw [hp c' hc', ← hp c hc]
      exact hhead c rfl

theorem SameFirst.append {cs cs' : List Char} (hsame : SameFirst cs cs') (text : List Char) :
    SameFirst (text ++ cs) (text ++ cs') := by
  cases text with
  | nil => exact hsame
  | cons c text => exact .same c _ _

theorem ne_of_isWordStart {c d : Char} (hd : isWordStart d = false) (hc : isWordStart c = true) :
    (c == d) = false := by
  rw [beq_eq_false_iff_ne]
  intro heq
  rw [heq, hd] at hc
  cases hc

theorem isWordPart_of_isWordStart {c : Char} (hc : isWordStart c = true) :
    isWordPart c = true := by
  simp only [isWordStart, isWordPart, Char.isAlphanum, Bool.or_eq_true] at hc ⊢
  rcases hc with halpha | hunderscore
  · exact Or.inl (Or.inl halpha)
  · exact Or.inr hunderscore

theorem SameFirst.head_ne {cs cs' : List Char} (hsame : SameFirst cs cs') {d : Char}
    (hd : isWordStart d = false) (hhead : cs.head? ≠ some d) : cs'.head? ≠ some d := by
  have hhead' : ∀ c ∈ cs.head?, (c == d) = false := by
    intro c hc
    rw [beq_eq_false_iff_ne]
    intro heq
    rw [heq] at hc
    exact hhead hc
  intro hsome
  have hfalse := hsame.head (fun c hc => ne_of_isWordStart hd hc) hhead' d hsome
  simp at hfalse

/-- A segment that is no error also leads to a text that starts alike. -/
theorem Leads.startsAlike {segment : Segment} {rest rest' : List Char}
    (hleads : Leads segment rest) (hclean : segment.isClean = true)
    (halike : StartsAlike rest rest') : Leads segment rest' := by
  have hdigit : ∀ c, isWordStart c = true → c.isDigit = false :=
    fun c hc => not_isDigit_of_isWordStart hc
  cases hleads with
  | single hsingle => exact .single hsingle
  | alone hmem hnext => exact .alone hmem (halike.first.head_ne (by decide) hnext)
  | extended hmem => exact .extended hmem
  | slash hnext => exact .slash (halike.first.head_ne (by decide) hnext)
  | comment htext hnext =>
      refine .comment htext (halike.first.head (b := true) ?_ hnext)
      intro c hc
      rw [bne, ne_of_isWordStart (by decide) hc]
      rfl
  | blank hblank => exact .blank hblank
  | string hbody => exact .string hbody
  | unterminated _ => cases hclean
  | whole hc hwhole hends =>
      refine .whole hc hwhole ⟨halike.first.head hdigit hends.1, ?_⟩
      intro d behind' heq
      rcases halike.dot _ heq with ⟨behind, hbehind, hsame⟩
      have hnone : ∀ d ∈ behind.head?, d.isDigit = false := by
        intro d hd
        rcases List.head?_eq_some_iff.mp hd with ⟨others, hothers⟩
        exact hends.2 d others (by rw [hbehind, hothers])
      exact hsame.head hdigit hnone d rfl
  | decimal hc hwhole hd hplaces hnext =>
      exact .decimal hc hwhole hd hplaces (halike.first.head hdigit hnext)
  | word hc hcs hnext =>
      exact .word hc hcs (halike.first.head (fun c hc => isWordPart_of_isWordStart hc) hnext)
  | stray => cases hclean

/-!
# Renamed segments
-/

theorem Leads.renamed {lexeme rest rest' : List Char} {literal : Literal} {name : String}
    (hleads : Leads (.token .identifier lexeme literal) rest) (hname : IsName name)
    (halike : StartsAlike rest rest') : Leads (.token .identifier name.toList literal) rest' := by
  rcases hleads.word_of_isWord rfl with ⟨⟨_, rfl⟩, _, hnext⟩
  rcases hname with ⟨⟨c, cs, htext, hc, hcs⟩, hkind⟩
  have hword : Leads (.token (TokenKind.ofWord (String.ofList (c :: cs))) (c :: cs) .nil) rest' :=
    .word hc hcs (halike.first.head (fun c hc => isWordPart_of_isWordStart hc) hnext)
  rw [← htext, String.ofList_toList, hkind] at hword
  exact hword

theorem text_ne_nil {segment : Segment} {rest : List Char} (hleads : Leads segment rest) :
    segment.text ≠ [] := by
  cases hleads <;> exact List.cons_ne_nil _ _

theorem StartsAlike.append {rest rest' : List Char} (halike : StartsAlike rest rest')
    {text : List Char} (htext : text ≠ []) : StartsAlike (text ++ rest) (text ++ rest') := by
  cases text with
  | nil => exact absurd rfl htext
  | cons c text =>
      refine ⟨.same c _ _, ?_⟩
      intro behind' heq
      cases heq
      exact ⟨_, rfl, halike.first.append text⟩

theorem startsAlike_of_isWord {lexeme lexeme' : List Char} (hword : IsWord lexeme)
    (hword' : IsWord lexeme') (rest rest' : List Char) :
    StartsAlike (lexeme ++ rest) (lexeme' ++ rest') := by
  rcases hword with ⟨c, cs, rfl, hc, _⟩
  rcases hword' with ⟨c', cs', rfl, hc', _⟩
  refine ⟨.word _ _ hc hc', ?_⟩
  intro behind' heq
  cases heq
  exact absurd hc' (by decide)

theorem isClean_renamed {segments : List Segment} (hclean : ∀ s ∈ segments, s.isClean = true)
    (names : Nat → String) (place : Nat) :
    ∀ s ∈ renamed names place segments, s.isClean = true := by
  induction segments generalizing place with
  | nil => exact hclean
  | cons segment segments ih =>
      have hfirst := hclean segment List.mem_cons_self
      have hrest := ih fun s hs => hclean s (List.mem_cons_of_mem _ hs)
      cases segment with
      | token kind lexeme literal => exact List.forall_mem_cons.mpr ⟨rfl, hrest (place + 1)⟩
      | blank c => exact List.forall_mem_cons.mpr ⟨rfl, hrest place⟩
      | comment text => exact List.forall_mem_cons.mpr ⟨rfl, hrest place⟩
      | stray c => cases hfirst
      | unterminated text => cases hfirst

def AllNames (names : Nat → String) (ts : List (Token × Nat)) : Prop :=
  ∀ entry ∈ ts, entry.1.kind = .identifier → IsName (names entry.2)

instance (names : Nat → String) (ts : List (Token × Nat)) : Decidable (AllNames names ts) :=
  inferInstanceAs (Decidable (∀ entry ∈ ts, _ → _))

theorem Tiles.renamed {segments : List Segment} {source : List Char}
    (htiles : Tiles segments source) (hclean : ∀ s ∈ segments, s.isClean = true)
    {names : Nat → String} {place : Nat} {before : List Char}
    (hnames : AllNames names ((tokensBehind before segments).zipIdx place)) :
    Tiles (Segment.renamed names place segments)
        ((Segment.renamed names place segments).flatMap Segment.text) ∧
      StartsAlike source ((Segment.renamed names place segments).flatMap Segment.text) := by
  induction htiles generalizing place before with
  | nil => exact ⟨.nil, .nil, fun _ heq => nomatch heq⟩
  | @cons segment segments rest hleads _ ih =>
      have hcleanRest : ∀ s ∈ segments, s.isClean = true :=
        fun s hs => hclean s (List.mem_cons_of_mem _ hs)
      have hsame : ∀ {place' : Nat},
          AllNames names ((tokensBehind (before ++ segment.text) segments).zipIdx place') →
          Tiles (segment :: Segment.renamed names place' segments)
              (segment.text ++ (Segment.renamed names place' segments).flatMap Segment.text) ∧
            StartsAlike (segment.text ++ rest)
              (segment.text ++ (Segment.renamed names place' segments).flatMap Segment.text) := by
        intro place' hnames'
        rcases ih hcleanRest hnames' with ⟨htiles', halike⟩
        have hleads' := hleads.startsAlike (hclean segment List.mem_cons_self) halike
        exact ⟨.cons hleads' htiles', halike.append (text_ne_nil hleads)⟩
      cases segment with
      | token kind lexeme literal =>
          have hrest : AllNames names
              ((tokensBehind (before ++ lexeme) segments).zipIdx (place + 1)) :=
            fun entry hentry => hnames entry (List.mem_cons_of_mem _ hentry)
          by_cases hkind : kind = .identifier
          · subst hkind
            rcases ih hcleanRest hrest with ⟨htiles', halike⟩
            have hname : IsName (names place) := hnames (_, place) List.mem_cons_self rfl
            have hword := (hleads.word_of_isWord rfl).2.1
            exact ⟨.cons (hleads.renamed hname halike) htiles',
              startsAlike_of_isWord hword hname.1 _ _⟩
          · rw [Segment.renamed, if_neg hkind]
            exact hsame hrest
      | blank c => exact hsame hnames
      | comment text => exact hsame hnames
      | stray c => exact hsame hnames
      | unterminated text => exact hsame hnames

/-!
# The tokens of renamed segments
-/

theorem newlines_of_isWord {lexeme : List Char} (hword : IsWord lexeme) :
    lexeme.count '\n' = 0 := by
  rcases hword with ⟨c, cs, rfl, hc, hcs⟩
  rw [List.count_eq_zero]
  intro hmem
  rcases List.mem_cons.mp hmem with rfl | hmem
  · exact absurd hc (by decide)
  · exact absurd (hcs _ hmem) (by decide)

theorem tokensBehind_renamed {segments : List Segment} {source : List Char}
    (htiles : Tiles segments source) {names : Nat → String} {place : Nat} {before : List Char}
    (hnames : AllNames names ((tokensBehind before segments).zipIdx place)) :
    tokensBehind before (renamed names place segments) =
      ((tokensBehind before segments).zipIdx place).map
        fun entry => entry.1.renamed (names entry.2) := by
  induction htiles generalizing place before with
  | nil => rfl
  | @cons segment segments rest hleads _ ih =>
      cases segment with
      | token kind lexeme literal =>
          have hrest : AllNames names
              ((tokensBehind (before ++ lexeme) segments).zipIdx (place + 1)) :=
            fun entry hentry => hnames entry (List.mem_cons_of_mem _ hentry)
          have htoken := ih hrest
          by_cases hkind : kind = .identifier
          · subst hkind
            have hname : IsName (names place) := hnames (_, place) List.mem_cons_self rfl
            have hold := newlines_of_isWord (hleads.word_of_isWord rfl).2.1
            have hnew := newlines_of_isWord hname.1
            have hcount : (before ++ (names place).toList).count '\n' =
                (before ++ lexeme).count '\n' := by
              rw [List.count_append, List.count_append, hold, hnew]
            rw [renamed, if_pos rfl, tokensBehind_cons, tokensBehind_cons]
            simp only [text]
            rw [tokensBehind_congr hcount, hcount, htoken]
            simp [token?, Token.renamed]
          · rw [renamed, if_neg hkind, tokensBehind_cons, tokensBehind_cons]
            simp only [text]
            rw [htoken]
            simp [token?, Token.renamed, hkind]
      | blank c => exact ih hnames
      | comment text => exact ih hnames
      | stray c => exact ih hnames
      | unterminated text => exact ih hnames

end Segment

/-- A source with other names is scanned to the same tokens, except for those names. -/
theorem scan_rename {source : String} (hscan : (scan source).diagnostics = [])
    {names : Nat → String} (hnames : Segment.AllNames names (scan source).tokens.zipIdx) :
    (scan (rename names source)).diagnostics = [] ∧
      (scan (rename names source)).tokens =
        (scan source).tokens.zipIdx.map fun entry => entry.1.renamed (names entry.2) := by
  have hclean := (scan_diagnostics_iff source).mp hscan
  have htiles := Segment.tiles_all source.toList
  have htokens : (scan source).tokens = Segment.tokensBehind [] (Segment.all source.toList) := by
    rw [scan_eq]
  rw [htokens] at hnames ⊢
  have hall : Segment.all (rename names source).toList =
      Segment.renamed names 0 (Segment.all source.toList) := by
    rw [rename, String.toList_ofList]
    exact Segment.all_of_tiles (htiles.renamed hclean hnames).1
  have hscan' : (scan (rename names source)).diagnostics = [] := by
    rw [scan_diagnostics_iff, hall]
    exact Segment.isClean_renamed hclean names 0
  refine ⟨hscan', ?_⟩
  rw [scan_eq, hall, Segment.tokensBehind_renamed htiles hnames]

end Lox
