import Lox.Proofs.Scan.Words

/-!
# Longest match

The lexical rules say which texts are tokens, comments and blanks; they know
nothing of what stands around a text.  The scanner follows them by longest
match: at every place it takes the longest text to which some rule applies.
Where no rule applies, a quote opens a string that is never closed, and any
other character stands for itself.  There is one way to cut a source like this,
and lines are counted along it.
-/

namespace Lox

def operators : List (List Char × TokenKind) :=
  [(['('], .leftParen), ([')'], .rightParen), (['{'], .leftBrace), (['}'], .rightBrace),
    ([','], .comma), (['.'], .dot), (['-'], .minus), (['+'], .plus), ([';'], .semicolon),
    (['/'], .slash), (['*'], .star), (['?'], .question), ([':'], .colon),
    (['!'], .bang), (['!', '='], .bangEqual), (['='], .equal), (['=', '='], .equalEqual),
    (['>'], .greater), (['>', '='], .greaterEqual), (['<'], .less), (['<', '='], .lessEqual)]

namespace Segment

inductive Rule : Segment → Prop where
  | operator {text : List Char} {kind : TokenKind} :
      (text, kind) ∈ operators → Rule (.token kind text .nil)
  | whole {whole : List Char} :
      whole ≠ [] → (∀ d ∈ whole, d.isDigit = true) →
      Rule (.token .number whole (numeral whole []))
  | decimal {whole places : List Char} :
      whole ≠ [] → (∀ d ∈ whole, d.isDigit = true) →
      places ≠ [] → (∀ d ∈ places, d.isDigit = true) →
      Rule (.token .number (whole ++ '.' :: places) (numeral whole places))
  | word {text : List Char} :
      IsWord text → Rule (.token (TokenKind.ofWord (String.ofList text)) text .nil)
  | string {body : List Char} :
      '"' ∉ body → Rule (.token .string ('"' :: body ++ ['"']) (.text (String.ofList body)))
  | comment {body : List Char} : '\n' ∉ body → Rule (.comment ('/' :: '/' :: body))
  | blank {c : Char} : c ∈ blanks → Rule (.blank c)

def Begins (source : List Char) (segment : Segment) : Prop :=
  Rule segment ∧ segment.text <+: source

/-- The segment that longest match takes in front of `rest`. -/
inductive Munches : Segment → List Char → Prop where
  | longest {segment : Segment} {rest : List Char} :
      Rule segment →
      (∀ other, Begins (segment.text ++ rest) other → other.text.length ≤ segment.text.length) →
      Munches segment rest
  | unterminated {body : List Char} :
      (∀ other, ¬ Begins ('"' :: body) other) → Munches (.unterminated ('"' :: body)) []
  | stray {c : Char} {rest : List Char} :
      c ≠ '"' → (∀ other, ¬ Begins (c :: rest) other) → Munches (.stray c) rest

/-- Segments that make up a source, each the longest match at its place. -/
structure Tokenises (segments : List Segment) (source : List Char) : Prop where
  whole : segments.flatMap text = source
  munches : ∀ before segment behind, segments = before ++ segment :: behind →
    Munches segment (behind.flatMap text)

/-!
# Longest match takes what the scanner cuts off
-/

theorem leads_operator {text : List Char} {kind : TokenKind} (hmem : (text, kind) ∈ operators) :
    Leads (.token kind text .nil) [] := by
  have hcut : ∀ entry ∈ operators, ∃ c rest, entry.1 = c :: rest ∧
      cut c rest = (.token entry.2 entry.1 .nil, []) := by
    intro entry hentry
    simp only [operators, List.mem_cons, List.not_mem_nil, or_false] at hentry
    rcases hentry with
      rfl | rfl | rfl | rfl | rfl | rfl | rfl | rfl | rfl | rfl | rfl | rfl | rfl | rfl | rfl |
      rfl | rfl | rfl | rfl | rfl | rfl <;> exact ⟨_, _, rfl, rfl⟩
  rcases hcut _ hmem with ⟨c, rest, _, heq⟩
  have hleads := (leads_cut c rest).1
  rw [heq] at hleads
  exact hleads

/-- A text to which a rule applies is cut off as a whole if nothing is behind it. -/
theorem Rule.leads {segment : Segment} (hrule : Rule segment) : Leads segment [] := by
  cases hrule with
  | operator hmem => exact leads_operator hmem
  | @whole whole hne hwhole =>
      cases whole with
      | nil => exact absurd rfl hne
      | cons c whole =>
          have hends : EndsWhole [] := by simp [EndsWhole]
          exact .whole (hwhole c List.mem_cons_self)
            (fun d hd => hwhole d (List.mem_cons_of_mem _ hd)) hends
  | @decimal whole places hne hwhole hne' hplaces =>
      cases whole with
      | nil => exact absurd rfl hne
      | cons c whole =>
          cases places with
          | nil => exact absurd rfl hne'
          | cons d places =>
              apply Leads.decimal (hwhole c List.mem_cons_self)
              · exact fun e he => hwhole e (List.mem_cons_of_mem _ he)
              · exact hplaces d List.mem_cons_self
              · exact fun e he => hplaces e (List.mem_cons_of_mem _ he)
              · simp
  | word hword =>
      rcases hword with ⟨c, cs, rfl, hc, hcs⟩
      exact .word hc hcs (by simp)
  | string hbody =>
      apply Leads.string
      intro c hc
      rw [bne_iff_ne]
      exact fun heq => hbody (heq ▸ hc)
  | comment hbody =>
      apply Leads.comment
      · intro c hc
        rw [bne_iff_ne]
        exact fun heq => hbody (heq ▸ hc)
      · simp
  | blank hblank => exact .blank hblank

theorem mem_operators_of_single {c : Char} {kind : TokenKind} (hsingle : single? c = some kind) :
    ([c], kind) ∈ operators := by
  unfold single? at hsingle
  split at hsingle <;> cases hsingle <;> decide

theorem mem_operators_of_extendables {c : Char} {alone extended : TokenKind}
    (hmem : (c, alone, extended) ∈ extendables) :
    ([c], alone) ∈ operators ∧ ([c, '='], extended) ∈ operators := by
  simp only [extendables, List.mem_cons, Prod.mk.injEq, List.not_mem_nil, or_false] at hmem
  rcases hmem with ⟨rfl, rfl, rfl⟩ | ⟨rfl, rfl, rfl⟩ | ⟨rfl, rfl, rfl⟩ | ⟨rfl, rfl, rfl⟩ <;> decide

/-- What the scanner cuts off follows a lexical rule, unless it is an error. -/
theorem Leads.rule {segment : Segment} {rest : List Char} (hleads : Leads segment rest)
    (hclean : segment.isClean = true) : Rule segment := by
  cases hleads with
  | single hsingle => exact .operator (mem_operators_of_single hsingle)
  | alone hmem _ => exact .operator (mem_operators_of_extendables hmem).1
  | extended hmem => exact .operator (mem_operators_of_extendables hmem).2
  | slash _ => exact .operator (by decide)
  | comment htext _ =>
      apply Rule.comment
      intro hmem
      exact absurd (htext _ hmem) (by decide)
  | blank hblank => exact .blank hblank
  | string hbody =>
      apply Rule.string
      intro hmem
      exact absurd (hbody _ hmem) (by decide)
  | unterminated _ => cases hclean
  | whole hc hwhole _ =>
      apply Rule.whole (List.cons_ne_nil _ _)
      exact List.forall_mem_cons.mpr ⟨hc, hwhole⟩
  | decimal hc hwhole hd hplaces _ =>
      apply Rule.decimal (List.cons_ne_nil _ _) _ (List.cons_ne_nil _ _)
      · exact List.forall_mem_cons.mpr ⟨hd, hplaces⟩
      · exact List.forall_mem_cons.mpr ⟨hc, hwhole⟩
  | word hc hcs _ => exact .word ⟨_, _, rfl, hc, hcs⟩
  | stray => cases hclean

/-- Only the characters next to a segment decide whether it ends there. -/
theorem Leads.shorten {segment : Segment} {more behind : List Char}
    (hleads : Leads segment (more ++ behind)) (hmore : more ≠ []) : Leads segment more := by
  rcases List.exists_cons_of_ne_nil hmore with ⟨first, more, rfl⟩
  cases hleads with
  | single hsingle => exact .single hsingle
  | alone hmem hnext => exact .alone hmem hnext
  | extended hmem => exact .extended hmem
  | slash hnext => exact .slash hnext
  | comment htext hnext => exact .comment htext hnext
  | blank hblank => exact .blank hblank
  | string hbody => exact .string hbody
  | whole hc hwhole hends =>
      apply Leads.whole hc hwhole
      constructor
      · exact hends.1
      · intro d rest heq
        apply hends.2 d (rest ++ behind)
        rw [heq, List.cons_append, List.cons_append]
  | decimal hc hwhole hd hplaces hnext => exact .decimal hc hwhole hd hplaces hnext
  | word hc hcs hnext => exact .word hc hcs hnext
  | stray hsingle hextendable hslash hblank hquote hdigit hword =>
      exact .stray hsingle hextendable hslash hblank hquote hdigit hword

theorem Leads.unique {first second : Segment} {rest rest' : List Char}
    (hfirst : Leads first rest) (hsecond : Leads second rest')
    (hsource : first.text ++ rest = second.text ++ rest') : first = second ∧ rest = rest' := by
  rcases cut_of_leads hfirst with ⟨c, cs, htext, hcut⟩
  rcases cut_of_leads hsecond with ⟨c', cs', htext', hcut'⟩
  rw [← hsource, htext] at htext'
  cases htext'
  rw [hcut] at hcut'
  exact Prod.mk.inj hcut'

/-- What the scanner cuts off is at least as long as every text to which a rule applies. -/
theorem Leads.longest {segment other : Segment} {rest : List Char} (hleads : Leads segment rest)
    (hother : Begins (segment.text ++ rest) other) :
    other.text.length ≤ segment.text.length := by
  by_contra hlonger
  have hstart : segment.text <+: other.text :=
    List.prefix_of_prefix_length_le (List.prefix_append _ _) hother.2 (by omega)
  rcases hstart with ⟨more, hmore⟩
  have hne : more ≠ [] := by
    rintro rfl
    rw [List.append_nil] at hmore
    exact hlonger (hmore ▸ Nat.le_refl _)
  rcases hother.2 with ⟨behind, hbehind⟩
  rw [← hmore, List.append_assoc, List.append_cancel_left_eq] at hbehind
  rw [← hbehind] at hleads
  -- In front of `more` alone the scanner would cut off both segments.
  have hboth := (hleads.shorten hne).unique hother.1.leads (by rw [hmore, List.append_nil])
  exact hne hboth.2

theorem Rule.text_ne_nil {segment : Segment} (hrule : Rule segment) : segment.text ≠ [] := by
  rcases cut_of_leads hrule.leads with ⟨c, rest, htext, _⟩
  rw [List.append_nil] at htext
  rw [htext]
  exact List.cons_ne_nil _ _

theorem not_begins_of_stray {c : Char} {rest : List Char} (hleads : Leads (.stray c) rest)
    (other : Segment) : ¬ Begins (c :: rest) other := by
  rintro ⟨hrule, htext⟩
  rcases List.prefix_cons_iff.mp htext with hnil | ⟨more, hmore, _⟩
  · exact hrule.text_ne_nil hnil
  · have hhere : Leads (.stray c) more := by
      cases hleads with
      | stray hsingle hextendable hslash hblank hquote hdigit hword =>
          exact .stray hsingle hextendable hslash hblank hquote hdigit hword
    have hsame := hhere.unique hrule.leads (by rw [hmore, List.append_nil]; rfl)
    rw [← hsame.1] at hrule
    cases hrule

theorem not_begins_of_unterminated {body : List Char}
    (hleads : Leads (.unterminated ('"' :: body)) []) (other : Segment) :
    ¬ Begins ('"' :: body) other := by
  rintro ⟨hrule, htext⟩
  rcases List.prefix_cons_iff.mp htext with hnil | ⟨more, hmore, hstart⟩
  · exact hrule.text_ne_nil hnil
  · have hhere : Leads (.unterminated ('"' :: more)) [] := by
      cases hleads with
      | unterminated hbody => exact .unterminated fun c hc => hbody c (hstart.subset hc)
    have hsame := hhere.unique hrule.leads (by rw [hmore]; rfl)
    rw [← hsame.1] at hrule
    cases hrule

theorem Leads.munches {segment : Segment} {rest : List Char} (hleads : Leads segment rest) :
    Munches segment rest := by
  by_cases hclean : segment.isClean = true
  · exact .longest (hleads.rule hclean) fun other hother => hleads.longest hother
  · cases hleads with
    | unterminated hbody => exact .unterminated (not_begins_of_unterminated (.unterminated hbody))
    | stray hsingle hextendable hslash hblank hquote hdigit hword =>
        apply Munches.stray hquote
        exact not_begins_of_stray
          (.stray hsingle hextendable hslash hblank hquote hdigit hword)
    | _ => exact absurd rfl hclean

/-!
# There is one longest match
-/

theorem Munches.unique {first second : Segment} {rest rest' : List Char}
    (hfirst : Munches first rest) (hsecond : Munches second rest')
    (hsource : first.text ++ rest = second.text ++ rest') : first = second ∧ rest = rest' := by
  cases hfirst with
  | longest hrule hlongest =>
      have hbegins : Begins (first.text ++ rest) first := ⟨hrule, List.prefix_append _ _⟩
      cases hsecond with
      | longest hrule' hlongest' =>
          have hbegins' : Begins (second.text ++ rest') second := ⟨hrule', List.prefix_append _ _⟩
          have hle := hlongest second (hsource ▸ hbegins')
          have hge := hlongest' first (hsource ▸ hbegins)
          rcases List.append_inj hsource (Nat.le_antisymm hge hle) with ⟨htext, hrest⟩
          have hsame := hrule.leads.unique hrule'.leads (by rw [htext])
          exact ⟨hsame.1, hrest⟩
      | unterminated hnone =>
          rw [hsource, List.append_nil] at hbegins
          exact absurd hbegins (hnone _)
      | stray _ hnone =>
          rw [hsource] at hbegins
          exact absurd hbegins (hnone _)
  | unterminated hnone =>
      cases hsecond with
      | longest hrule' _ =>
          have hbegins' : Begins (second.text ++ rest') second := ⟨hrule', List.prefix_append _ _⟩
          rw [← hsource, List.append_nil] at hbegins'
          exact absurd hbegins' (hnone _)
      | unterminated _ =>
          rw [List.append_nil, List.append_nil] at hsource
          exact ⟨congrArg Segment.unterminated hsource, rfl⟩
      | stray hquote _ =>
          cases hsource
          exact absurd rfl hquote
  | stray hquote hnone =>
      cases hsecond with
      | longest hrule' _ =>
          have hbegins' : Begins (second.text ++ rest') second := ⟨hrule', List.prefix_append _ _⟩
          rw [← hsource] at hbegins'
          exact absurd hbegins' (hnone _)
      | unterminated _ =>
          cases hsource
          exact absurd rfl hquote
      | stray _ _ =>
          cases hsource
          exact ⟨rfl, rfl⟩

theorem Munches.text_ne_nil {segment : Segment} {rest : List Char}
    (hmunches : Munches segment rest) : segment.text ≠ [] := by
  cases hmunches with
  | longest hrule _ => exact hrule.text_ne_nil
  | unterminated _ => exact List.cons_ne_nil _ _
  | stray _ _ => exact List.cons_ne_nil _ _

theorem Munches.leads {segment : Segment} {rest : List Char} (hmunches : Munches segment rest) :
    Leads segment rest := by
  have hne : segment.text ++ rest ≠ [] :=
    List.append_ne_nil_of_left_ne_nil hmunches.text_ne_nil rest
  rcases List.exists_cons_of_ne_nil hne with ⟨c, cs, hsource⟩
  rcases leads_cut c cs with ⟨hleads, htext⟩
  have hsame := hmunches.unique hleads.munches (hsource.trans htext.symm)
  rw [hsame.1, hsame.2]
  exact hleads

theorem Tiles.tokenises {segments : List Segment} {source : List Char}
    (htiles : Tiles segments source) : Tokenises segments source := by
  constructor
  · exact htiles.text
  · induction htiles with
    | nil =>
        intro before segment behind heq
        cases before <;> cases heq
    | @cons first segments rest hleads htiles ih =>
        intro before segment behind heq
        cases before with
        | nil =>
            cases heq
            rw [htiles.text]
            exact hleads.munches
        | cons _ before =>
            cases heq
            exact ih before segment behind rfl

theorem Tokenises.tiles {segments : List Segment} {source : List Char}
    (htokenises : Tokenises segments source) : Tiles segments source := by
  rcases htokenises with ⟨rfl, hmunches⟩
  induction segments with
  | nil => exact .nil
  | cons segment segments ih =>
      have hrest := ih fun before other behind heq =>
        hmunches (segment :: before) other behind (congrArg (segment :: ·) heq)
      exact .cons (hmunches [] segment segments rfl).leads hrest

theorem Tokenises.eq_nil_of_unterminated {segments before behind : List Segment}
    {source text : List Char} (htokenises : Tokenises segments source)
    (heq : segments = before ++ .unterminated text :: behind) : behind = [] := by
  have hend : behind.flatMap Segment.text = [] := by
    have hmunches := htokenises.munches before _ behind heq
    generalize behind.flatMap Segment.text = rest at hmunches
    cases hmunches with
    | longest hrule _ => cases hrule
    | unterminated _ => rfl
  cases behind with
  | nil => rfl
  | cons next behind =>
      have hnext := htokenises.munches (before ++ [.unterminated text]) next behind (by simp [heq])
      rw [List.flatMap_cons, List.append_eq_nil_iff] at hend
      exact absurd hend.1 hnext.text_ne_nil

end Segment

/-- Scanning is longest match, with lines counted along the source. -/
theorem scan_longest_match (source : String) :
    ∃ segments, Segment.Tokenises segments source.toList ∧
      (∀ other, Segment.Tokenises other source.toList → other = segments) ∧
      (∀ before text behind, segments = before ++ .unterminated text :: behind → behind = []) ∧
      (scan source).allTokens =
        Segment.tokensBehind [] segments ++ [.endOfInput (1 + newlines source)] ∧
      (scan source).diagnostics = Segment.complaintsBehind (1 + newlines source) [] segments := by
  have htiles := Segment.tiles_all source.toList
  refine ⟨Segment.all source.toList, htiles.tokenises, ?_, ?_, ?_, ?_⟩
  · intro other hother
    exact (Segment.all_of_tiles hother.tiles).symm
  · intro before text behind heq
    exact htiles.tokenises.eq_nil_of_unterminated heq
  · rw [Scanned.allTokens, Scanned.eof, scan_eq]
  · rw [scan_eq]

end Lox
