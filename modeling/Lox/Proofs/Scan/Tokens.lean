import Lox.Proofs.Scan.Segments

/-!
# The tokens of a source

What scanning gives, in terms of the segments of a source.  Two sources with a
newline between them are scanned one after the other, also if there are errors in
them; what comes from the second one stands further down.
-/

namespace Lox

def Token.down (lines : Nat) (token : Token) : Token := { token with line := token.line + lines }

def Diagnostic.down (lines : Nat) (d : Diagnostic) : Diagnostic := { d with line := d.line + lines }

namespace Segment

def isClean : Segment → Bool
  | .stray _ | .unterminated _ => false
  | _ => true

/-- The token that a segment is, if it is one; it ends on `line`. -/
def token? (line : Nat) : Segment → Option Token
  | .token kind lexeme literal => some ⟨kind, String.ofList lexeme, literal, line⟩
  | _ => none

theorem Tiles.text {segments : List Segment} {source : List Char} (htiles : Tiles segments source) :
    segments.flatMap Segment.text = source := by
  induction htiles with
  | nil => rfl
  | cons _ _ ih => rw [List.flatMap_cons, ih]

theorem newlines_stray {c : Char} {rest : List Char} (hleads : Leads (.stray c) rest) :
    (Segment.stray c).newlines = 0 := by
  cases hleads with
  | stray _ _ _ hblank _ _ _ =>
      have hne : c ≠ '\n' := fun heq => hblank (heq ▸ by decide)
      simp [newlines, text, hne]

/-!
# What is scanned
-/

def placed (before : List Char) : List Segment → List (List Char × Segment)
  | [] => []
  | segment :: segments => (before, segment) :: placed (before ++ segment.text) segments

/-- What is reported about a segment that starts on `line`; `last` is the last line. -/
def complaint? (line last : Nat) : Segment → Option Diagnostic
  | .stray _ => some (.atLine line .unexpectedCharacter)
  | .unterminated _ => some (.atLine last .unterminatedString)
  | _ => none

/-- The tokens among segments that stand behind a text, each on the line where it ends. -/
def tokensBehind (before : List Char) (segments : List Segment) : List Token :=
  (placed before segments).filterMap fun entry =>
    entry.2.token? (1 + (entry.1 ++ entry.2.text).count '\n')

/-- What is reported about segments that stand behind a text, up to the line `last`. -/
def complaintsBehind (last : Nat) (before : List Char) (segments : List Segment) :
    List Diagnostic :=
  (placed before segments).filterMap fun entry =>
    entry.2.complaint? (1 + entry.1.count '\n') last

theorem tokensBehind_cons (before : List Char) (segment : Segment) (segments : List Segment) :
    tokensBehind before (segment :: segments) =
      (segment.token? (1 + (before ++ segment.text).count '\n')).toList ++
        tokensBehind (before ++ segment.text) segments := by
  rw [tokensBehind, placed, List.filterMap_cons]
  cases segment <;> rfl

theorem complaintsBehind_cons (last : Nat) (before : List Char) (segment : Segment)
    (segments : List Segment) :
    complaintsBehind last before (segment :: segments) =
      (segment.complaint? (1 + before.count '\n') last).toList ++
        complaintsBehind last (before ++ segment.text) segments := by
  rw [complaintsBehind, placed, List.filterMap_cons]
  cases segment <;> rfl

/-- Scanning one segment behind `before` counts its newlines, and keeps its token or complaint. -/
theorem add_of_leads {segment : Segment} {rest before : List Char} (hleads : Leads segment rest)
    {scan : Scan} (hline : scan.line = 1 + before.count '\n') {last : Nat}
    (hlast : rest = [] → last = 1 + (before ++ segment.text).count '\n') :
    scan.add segment =
      ⟨1 + (before ++ segment.text).count '\n',
        scan.tokens ++
          (segment.token? (1 + (before ++ segment.text).count '\n')).toList.toArray,
        scan.diagnostics ++ (segment.complaint? (1 + before.count '\n') last).toList.toArray⟩ := by
  have hcount : scan.line + segment.newlines = 1 + (before ++ segment.text).count '\n' := by
    rw [hline, List.count_append, Nat.add_assoc]
    rfl
  cases segment with
  | token kind lexeme literal => simp [Scan.add, hcount, token?, complaint?]
  | blank c => simp [Scan.add, hcount, token?, complaint?]
  | comment text => simp [Scan.add, hcount, token?, complaint?]
  | stray c =>
      have hzero := newlines_stray hleads
      rw [← hcount, ← hline, hzero]
      simp [Scan.add, hzero, token?, complaint?]
  | unterminated text =>
      cases hleads with
      | unterminated _ => simp [Scan.add, hcount, token?, complaint?, hlast rfl]

theorem foldl_add_of_tiles {segments : List Segment} {source before : List Char}
    (htiles : Tiles segments source) {scan : Scan} (hline : scan.line = 1 + before.count '\n') :
    segments.foldl Scan.add scan =
      ⟨1 + (before ++ source).count '\n',
        scan.tokens ++ (tokensBehind before segments).toArray,
        scan.diagnostics ++
          (complaintsBehind (1 + (before ++ source).count '\n') before segments).toArray⟩ := by
  induction htiles generalizing before scan with
  | nil => simp [tokensBehind, complaintsBehind, placed, ← hline]
  | @cons segment segments rest hleads _ ih =>
      have hlast : rest = [] → 1 + (before ++ (segment.text ++ rest)).count '\n' =
          1 + (before ++ segment.text).count '\n' := by
        rintro rfl
        rw [List.append_nil]
      rw [List.foldl_cons, add_of_leads hleads hline hlast, ih rfl, List.append_assoc,
        tokensBehind_cons, complaintsBehind_cons]
      simp only [Array.append_assoc, List.append_toArray]

theorem tokensBehind_congr {before before' : List Char}
    (hcount : before'.count '\n' = before.count '\n') (segments : List Segment) :
    tokensBehind before' segments = tokensBehind before segments := by
  induction segments generalizing before before' with
  | nil => rfl
  | cons segment segments ih =>
      have hnext : (before' ++ segment.text).count '\n' = (before ++ segment.text).count '\n' := by
        rw [List.count_append, List.count_append, hcount]
      rw [tokensBehind_cons, tokensBehind_cons, hnext, ih hnext]

theorem complaintsBehind_eq_nil_iff {last : Nat} {before : List Char} {segments : List Segment} :
    complaintsBehind last before segments = [] ↔ ∀ s ∈ segments, s.isClean = true := by
  induction segments generalizing before with
  | nil => simp [complaintsBehind, placed]
  | cons segment segments ih =>
      rw [complaintsBehind_cons, List.append_eq_nil_iff, ih, List.forall_mem_cons]
      cases segment <;> simp [complaint?, isClean]

end Segment

def newlines (source : String) : Nat := source.toList.count '\n'

theorem scan_eq (source : String) :
    scan source =
      ⟨Segment.tokensBehind [] (Segment.all source.toList), 1 + newlines source,
        Segment.complaintsBehind (1 + newlines source) [] (Segment.all source.toList)⟩ := by
  have hstart : ({} : Scan).line = 1 + ([] : List Char).count '\n' := rfl
  have hscan := Segment.foldl_add_of_tiles (Segment.tiles_all source.toList) hstart
  simp [scan, hscan, newlines]

theorem scan_diagnostics_iff (source : String) :
    (scan source).diagnostics = [] ↔ ∀ s ∈ Segment.all source.toList, s.isClean = true := by
  rw [scan_eq]
  exact Segment.complaintsBehind_eq_nil_iff

/-!
# Lines
-/

namespace Scan

/-- What is read of a source that starts `lines` further down, behind what `front` has read. -/
def behind (front : Scan) (lines : Nat) (scan : Scan) : Scan where
  line := scan.line + lines
  tokens := front.tokens ++ scan.tokens.map (Token.down lines)
  diagnostics := front.diagnostics ++ scan.diagnostics.map (Diagnostic.down lines)

/-- Reading a segment does not depend on what was read before, except for the lines. -/
theorem add_behind (front : Scan) (lines : Nat) (scan : Scan) (segment : Segment) :
    (front.behind lines scan).add segment = front.behind lines (scan.add segment) := by
  have hline : scan.line + lines + segment.newlines = scan.line + segment.newlines + lines :=
    Nat.add_right_comm _ _ _
  cases segment with
  | token kind lexeme literal =>
      simp only [add, behind, hline, Array.map_push, Array.append_push]
      rfl
  | blank c => simp only [add, behind, hline]
  | comment text => simp only [add, behind, hline]
  | stray c =>
      simp only [add, behind, hline, Array.map_push, Array.append_push]
      rfl
  | unterminated text =>
      simp only [add, behind, hline, Array.map_push, Array.append_push]
      rfl

theorem foldl_add_behind (front : Scan) (lines : Nat) (segments : List Segment) (scan : Scan) :
    segments.foldl add (front.behind lines scan) =
      front.behind lines (segments.foldl add scan) := by
  induction segments generalizing scan with
  | nil => rfl
  | cons segment segments ih => rw [List.foldl_cons, List.foldl_cons, add_behind, ih]

end Scan

/-!
# Sources one after the other
-/

namespace Segment

/-- Whether a blank ends a segment, unless it has ended before. -/
def endsBefore (blank : Char) : Segment → Bool
  | .comment _ => blank == '\n'
  | .unterminated _ => false
  | _ => true

theorem endsBefore_newline_of_isClean {segment : Segment} (hclean : segment.isClean = true) :
    segment.endsBefore '\n' = true := by
  cases segment with
  | unterminated text => cases hclean
  | _ => rfl

/-- A segment that a blank ends also leads to the blank and anything behind it. -/
theorem Leads.append_blank {segment : Segment} {rest : List Char} (hleads : Leads segment rest)
    {blank : Char} (hblank : blank ∈ blanks) (hends : segment.endsBefore blank = true)
    (more : List Char) : Leads segment (rest ++ blank :: more) := by
  have hhead : ∀ {p : Char → Bool}, p blank = false → (∀ c ∈ rest.head?, p c = false) →
      ∀ c ∈ (rest ++ blank :: more).head?, p c = false := by
    intro p hp hrest c hc
    cases rest with
    | nil =>
        cases hc
        exact hp
    | cons first rest => exact hrest c hc
  have hother : ∀ {c : Char}, c ∉ blanks → rest.head? ≠ some c →
      (rest ++ blank :: more).head? ≠ some c := by
    intro c hc hrest
    cases rest with
    | nil =>
        intro heq
        cases heq
        exact hc hblank
    | cons first rest => exact hrest
  have hnone : ∀ {p : Char → Bool}, blanks.all (!p ·) = true → p blank = false := by
    intro p hp
    simpa using List.all_eq_true.mp hp blank hblank
  have hdigit : blank.isDigit = false := hnone (by decide)
  cases hleads with
  | single hsingle => exact .single hsingle
  | alone hmem hnext => exact .alone hmem (hother (by decide) hnext)
  | extended hmem => exact .extended hmem
  | slash hnext => exact .slash (hother (by decide) hnext)
  | comment htext hnext =>
      rw [beq_iff_eq.mp hends] at hhead ⊢
      exact .comment htext (hhead rfl hnext)
  | blank hmem => exact .blank hmem
  | string hbody => exact .string hbody
  | unterminated _ => cases hends
  | whole hc hwhole hwholeEnds =>
      refine .whole hc hwhole ⟨hhead hdigit hwholeEnds.1, ?_⟩
      intro d behind heq
      rcases rest with _ | ⟨first, _ | ⟨second, rest⟩⟩
      · cases heq
        exact absurd hblank (by decide)
      · cases heq
        exact hdigit
      · cases heq
        exact hwholeEnds.2 d rest rfl
  | decimal hc hwhole hd hplaces hnext => exact .decimal hc hwhole hd hplaces (hhead hdigit hnext)
  | word hc hcs hnext => exact .word hc hcs (hhead (hnone (by decide)) hnext)
  | stray hsingle hextendable hslash hnot hquote hnoDigit hword =>
      exact .stray hsingle hextendable hslash hnot hquote hnoDigit hword

/-- Two sources with a blank between them are cut one after the other. -/
theorem all_append_blank {source : List Char} {blank : Char} (hblank : blank ∈ blanks)
    (hends : ∀ s ∈ all source, s.endsBefore blank = true) (more : List Char) :
    all (source ++ blank :: more) = all source ++ .blank blank :: all more := by
  apply all_of_tiles
  have htiles := tiles_all source
  generalize all source = segments at htiles hends
  induction htiles with
  | nil => exact .cons (.blank hblank) (tiles_all more)
  | @cons segment segments rest hleads _ ih =>
      rw [List.append_assoc, List.cons_append]
      refine .cons (hleads.append_blank hblank (hends segment List.mem_cons_self) more) ?_
      exact ih fun s hs => hends s (List.mem_cons_of_mem _ hs)

end Segment

/-- Two sources with a newline between them are scanned one after the other. -/
theorem scan_append_newline {first : String}
    (hfirst : ∀ s ∈ Segment.all first.toList, s.endsBefore '\n' = true) (second : String) :
    scan (first ++ "\n" ++ second) =
      ⟨(scan first).tokens ++ (scan second).tokens.map (Token.down (newlines first + 1)),
        (scan second).line + (newlines first + 1),
        (scan first).diagnostics ++
          (scan second).diagnostics.map (Diagnostic.down (newlines first + 1))⟩ := by
  have hlist : (first ++ "\n" ++ second).toList = first.toList ++ '\n' :: second.toList := by
    rw [String.toList_append, String.toList_append]
    simp
  have hall := Segment.all_append_blank (by decide) hfirst second.toList
  -- behind the newline the scanner starts anew, further down
  have hstart : ∀ done : Scan, done.line = 1 + newlines first →
      done.add (.blank '\n') = done.behind (newlines first + 1) {} := by
    intro done hline
    have hnext : done.line + 1 = 1 + (newlines first + 1) := by rw [hline, Nat.add_assoc]
    simp only [Scan.add, Scan.behind, Array.map_empty, Array.append_empty, ← hnext]
    rfl
  have hdone : (scan first).line = 1 + newlines first := by rw [scan_eq]
  simp only [scan, hlist, hall, List.foldl_append, List.foldl_cons]
  rw [hstart _ hdone, Scan.foldl_add_behind]
  simp [Scan.behind]

theorem scan_join {first second : String} (hfirst : (scan first).diagnostics = [])
    (hsecond : (scan second).diagnostics = []) :
    (scan (first ++ "\n" ++ second)).diagnostics = [] ∧
      (scan (first ++ "\n" ++ second)).tokens =
        (scan first).tokens ++ (scan second).tokens.map (Token.down (newlines first + 1)) := by
  have hclean := (scan_diagnostics_iff first).mp hfirst
  have hends : ∀ s ∈ Segment.all first.toList, s.endsBefore '\n' = true :=
    fun s hs => Segment.endsBefore_newline_of_isClean (hclean s hs)
  rw [scan_append_newline hends, hfirst, hsecond]
  exact ⟨rfl, rfl⟩

def lower : Nat → String → String
  | 0, source => source
  | lines + 1, source => "\n" ++ lower lines source

theorem scan_lower {source : String} (hscan : (scan source).diagnostics = []) (lines : Nat) :
    (scan (lower lines source)).diagnostics = [] ∧
      (scan (lower lines source)).tokens = (scan source).tokens.map (Token.down lines) := by
  induction lines with
  | zero =>
      refine ⟨hscan, ?_⟩
      show _ = (scan source).tokens.map id
      rw [List.map_id]
      rfl
  | succ lines ih =>
      have hempty : scan "" = ⟨[], 1, []⟩ := by simp [scan, Segment.all]
      obtain ⟨hnone, htokens⟩ := scan_join (show (scan "").diagnostics = [] by rw [hempty]) ih.1
      refine ⟨hnone, htokens.trans ?_⟩
      rw [ih.2, hempty, List.map_map]
      rfl

end Lox
