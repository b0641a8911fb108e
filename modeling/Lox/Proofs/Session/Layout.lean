import Lox.Proofs.Session.Outline
import Lox.Proofs.Syntax.Labels

/-!
# Lines do not matter

Sources whose tokens differ only in their lines run alike.  What a run does is
its course, which does not speak of lines: a broken rule, a distance and an
error belong to the token at a position of the source, or to a token that was
there before the run.  Every layout of the same tokens takes the same course,
and reports at the lines that its own tokens have at these positions.
-/

namespace Lox

/-- Where a token comes from: from a position in the source at hand, or from before. -/
inductive Origin where
  | here (position : Nat)
  | before (token : Token)

namespace Origin

def token? (tokens : List Token) : Origin → Option Token
  | here position => tokens[position]?
  | before token => some token

end Origin

/-- What a run does, whatever the lines of its tokens are. -/
structure Course where
  /-- The broken rules, at positions of the source. -/
  diagnostics : List (Nat × Violation)
  /-- The nodes; for local references the positions in the source, and the distances. -/
  table : List (Option (ReferenceKind × Nat × Nat))
  printed : List String
  errors : List (Origin × RuntimeCause)
  /-- Why the run was given up, without lines. -/
  halts : List Stop
  globals : List (String × ValueKind × String)
  /-- The flags behind the run; they tell the exit code. -/
  flags : Flags

namespace Course

/-- A run of a source with these tokens takes the course. -/
structure Taken (course : Course) (tokens : List Token) (before behind : Session) : Prop where
  diagnostics : ((before.since behind).filterMap Event.diagnostic?).map some =
    course.diagnostics.map fun (i, rule) => tokens[i]?.map (Diagnostic.atToken · rule)
  table : (before.entriesSince behind).map some =
    course.table.map fun entry => entry.elim (some none) fun (kind, i, depth) =>
      tokens[i]?.map fun token => some (Distance.mk kind token depth)
  printed : (before.since behind).filterMap Event.printed? = course.printed
  errors : ((before.since behind).filterMap Event.runtimeError?).map some =
    course.errors.map fun (origin, cause) => (origin.token? tokens).map (RuntimeError.mk · cause)
  halts : ((before.since behind).filterMap Event.halted?).map (Stop.relabel Token.withoutLine) =
    course.halts
  globals : behind.machine.shownGlobals = course.globals
  flags : behind.flags = course.flags

end Course

/-!
# Moving tokens to other lines
-/

/-- The relabellings that change nothing but lines. -/
def KeepsText (g : Token → Token) : Prop := Token.withoutLine ∘ g = Token.withoutLine

namespace KeepsText

variable {g : Token → Token} (hg : KeepsText g)

include hg

theorem withoutLine_eq (t : Token) : (g t).withoutLine = t.withoutLine := congrFun hg t

theorem meaning : KeepsMeaning g where
  kind t := show (g t).withoutLine.kind = t.withoutLine.kind by rw [hg.withoutLine_eq]
  lexeme t := show (g t).withoutLine.lexeme = t.withoutLine.lexeme by rw [hg.withoutLine_eq]

theorem syntactic : KeepsSyntax g where
  kind := hg.meaning.kind
  literal t _ := show (g t).withoutLine.literal = t.withoutLine.literal by rw [hg.withoutLine_eq]

end KeepsText

namespace Token

theorem moved_eq_self {line : Token → Nat} {t : Token} : moved line t = t ↔ line t = t.line := by
  constructor
  · intro hmoved
    exact congrArg Token.line hmoved
  · intro hline
    rw [moved, hline]

/-- The tokens of a source on lines of their own, behind all lines up to a bound. -/
def marked (bound : Nat) (tokens : List Token) : List Token :=
  tokens.mapIdx fun i t => { t with line := bound + 1 + i }

/-- Put a marked token on the line that its position has in a layout. -/
def relocate (bound : Nat) (layout : List Token) : Token → Token :=
  moved fun t =>
    if bound < t.line then (layout[t.line - (bound + 1)]?.map Token.line).getD t.line else t.line

theorem keepsText_relocate (bound : Nat) (layout : List Token) :
    KeepsText (relocate bound layout) := rfl

theorem relocate_of_le {bound : Nat} {t : Token} (ht : t.line ≤ bound) (layout : List Token) :
    relocate bound layout t = t :=
  moved_eq_self.mpr (if_neg (Nat.not_lt.mpr ht))

section

variable {bound : Nat} {tokens layout : List Token}

theorem map_relocate_marked
    (hsame : layout.map withoutLine = tokens.map withoutLine) :
    (marked bound tokens).map (relocate bound layout) = layout := by
  have hlength : layout.length = tokens.length := by simpa using congrArg List.length hsame
  refine List.ext_getElem (by simp [marked, hlength]) fun i hi hi' => ?_
  have htoken : layout[i].withoutLine = tokens[i].withoutLine := by
    have hget := congrArg (fun ts : List Token => ts[i]?) hsame
    simpa [hi', ← hlength] using hget
  have hline : bound < bound + 1 + i := by omega
  simp only [withoutLine, moved, Token.mk.injEq] at htoken
  simp [marked, relocate, moved, hline, hi', ← htoken.1, ← htoken.2.1, ← htoken.2.2.1]

theorem lt_line_of_marked {t : Token} (ht : t ∈ marked bound tokens) : bound < t.line := by
  obtain ⟨i, _, rfl⟩ := List.mem_mapIdx.mp ht
  show bound < bound + 1 + i
  omega

theorem getElem?_of_marked (hsame : layout.map withoutLine = tokens.map withoutLine)
    {t : Token} (ht : t ∈ marked bound tokens) :
    layout[t.line - (bound + 1)]? = some (relocate bound layout t) := by
  obtain ⟨i, hi, rfl⟩ := List.mem_mapIdx.mp ht
  have hposition : bound + 1 + i - (bound + 1) = i := by omega
  have hlayout : ((marked bound tokens).map (relocate bound layout))[i]? = layout[i]? := by
    rw [map_relocate_marked hsame]
  dsimp only
  rw [hposition, ← hlayout, List.getElem?_map, marked, List.getElem?_mapIdx,
    List.getElem?_eq_getElem hi]
  rfl

end

def stay (kept : List Token) : Token → Token :=
  moved fun t => if t ∈ kept then t.line else t.line + 1

theorem keepsText_stay (kept : List Token) : KeepsText (stay kept) := rfl

theorem stay_eq_self {kept : List Token} {t : Token} : stay kept t = t ↔ t ∈ kept := by
  rw [stay, moved_eq_self]
  split
  · next hmem => exact ⟨fun _ => hmem, fun _ => rfl⟩
  · next hmem => exact ⟨fun h => absurd h (by omega), fun h => absurd h hmem⟩

end Token

/-!
# Machines and endings
-/

/-- A native function does not look at the lines of tokens. -/
def Native.IgnoresLines (native : Native) : Prop :=
  ∀ g : Token → Token, KeepsText g → native.Ignores g

/-- A machine is not changed by a relabelling that keeps the tokens it holds. -/
theorem Machine.renumbered_self {g : Token → Token} (hg : KeepsText g) {m : Machine}
    (hnatives : ∀ native ∈ m.natives, native.IgnoresLines) (hlabels : ∀ t ∈ m.labels, g t = t) :
    m.Renumbered g m := by
  refine ⟨⟨m.functions, m.locals, rfl, ⟨rfl, fun f => ?_⟩, fun _ => rfl,
    fun native hnative => hnatives native hnative g hg⟩, fun _ => id, fun _ => rfl⟩
  cases hclosure : m.functions[f]? with
  | none => exact .none
  | some closure =>
      have hmem : closure ∈ m.functions.toList :=
        Array.mem_toList_iff.mpr (Array.mem_of_getElem? hclosure)
      have hkeeps : ∀ t ∈ closure.labels, g t = t := fun t ht =>
        hlabels t (List.mem_flatMap.mpr ⟨closure, hmem, ht⟩)
      rw [Closure.labels, List.forall_mem_append] at hkeeps
      have hfunction : closure.function.relabel g = closure.function :=
        closure.function.relabel_eq_self (fun _ => rfl) hkeeps.1
      rcases closure with ⟨⟨name, params, body⟩, env, isInitialiser, flaw⟩
      rw [Function.relabel, Function.mk.injEq] at hfunction
      refine .some ⟨⟨hfunction.1.symm, rfl, hfunction.2.2.symm⟩, rfl, rfl, ?_⟩
      cases flaw with
      | none => rfl
      | some d =>
          have hdefect : d.relabel g = d := d.relabel_eq_self (fun _ => rfl) hkeeps.2
          exact congrArg some hdefect.symm

namespace Eval

variable {g : Relabelling} {alike : Machine → Machine → Prop}
variable {result result' : EStateM.Result Stop Machine Completion}

theorem Relabelled.error? (hends : Relabelled g alike Eq result result') :
    Eval.error? result' = (Eval.error? result).map fun e => ⟨g e.token, e.cause⟩ := by
  cases hends with
  | ok _ hm => rfl
  | @error stop _ _ hm => cases stop <;> rfl

theorem Relabelled.halt? (hends : Relabelled g alike Eq result result') :
    Eval.halt? result' = (Eval.halt? result).map (Stop.relabel g) := by
  cases hends with
  | ok _ hm => rfl
  | @error stop _ _ hm => cases stop <;> rfl

end Eval

namespace Outline

theorem ending_relabel {g : Token → Token} (hg : KeepsMeaning g) {m : Machine}
    (hm : m.Renumbered g m) (o : Outline) (n : Nat) :
    Option.Rel (Eval.Relabelled g (Machine.Renumbered g) Eq) (o.ending n m)
      ((o.relabel g).ending n m) := by
  unfold ending relabel
  cases o.program with
  | none => exact .none
  | some program =>
      have hends := (hm.load hg program).interpret hg n (m.numbered program)
      rw [← hm.numbered program] at hends
      exact .some hends

section

variable {g : Token → Token} {ending ending' : Option (EStateM.Result Stop Machine Completion)}
variable (hending : Option.Rel (Eval.Relabelled g (Machine.Renumbered g) Eq) ending ending')

include hending

theorem error?_relabelled : ending'.bind Eval.error? =
    (ending.bind Eval.error?).map fun e => ⟨g e.token, e.cause⟩ := by
  cases hending with
  | none => rfl
  | some hends => exact hends.error?

theorem halt?_relabelled :
    ending'.bind Eval.halt? = (ending.bind Eval.halt?).map (Stop.relabel g) := by
  cases hending with
  | none => rfl
  | some hends => exact hends.halt?

theorem output_relabelled :
    (ending'.map fun result => (Eval.state result).output.toList) =
      ending.map fun result => (Eval.state result).output.toList := by
  cases hending with
  | none => rfl
  | some hends => simp [hends.state.machine.output_eq]

end

end Outline

/-!
# The course of marked tokens

The marks tell the positions.  A token that is found or reported is marked or was
there before: otherwise it could be moved without moving any token of the source
or of the machine.
-/

namespace Token

def position (bound : Nat) (t : Token) : Nat := t.line - (bound + 1)

def origin (bound : Nat) (t : Token) : Origin :=
  if bound < t.line then .here (t.position bound) else .before t

end Token

def Course.ofMarked (bound : Nat) (s : Session) (o : Outline)
    (ending : Option (EStateM.Result Stop Machine Completion)) : Course where
  diagnostics := o.violations.map fun (token, rule) => (token.position bound, rule)
  table := o.table.map (Option.map fun d => (d.kind, d.name.position bound, d.depth))
  printed := (ending.map fun result => (Eval.state result).output.toList).getD []
  errors := (ending.bind Eval.error?).toList.map fun e => (e.token.origin bound, e.cause)
  halts := (o.defects.map Stop.defect ++ (ending.bind Eval.halt?).toList).map
    (Stop.relabel Token.withoutLine)
  globals := (ending.map fun result => (Eval.state result).shownGlobals).getD
    s.machine.shownGlobals
  flags := ⟨s.flags.error || !o.violations.isEmpty,
    s.flags.runtimeError || (ending.bind Eval.error?).isSome⟩

section

variable {failed : Bool} {tokens : List Token} {eof : Token}

theorem relabel_stay_outline {kept : List Token} (hkept : ∀ t ∈ tokens ++ [eof], t ∈ kept) :
    (outline failed tokens eof).relabel (Token.stay kept) = outline failed tokens eof := by
  have htokens : tokens.map (Token.stay kept) = tokens := by
    refine (List.map_congr_left fun t ht => ?_).trans (List.map_id tokens)
    exact Token.stay_eq_self.mpr (hkept t (List.mem_append_left _ ht))
  have heof : Token.stay kept eof = eof := Token.stay_eq_self.mpr (hkept eof (by simp))
  have hkeeps := Token.keepsText_stay kept
  have hmap := outline_map hkeeps.syntactic hkeeps.meaning.lexeme failed tokens eof
  rw [htokens, heof] at hmap
  exact hmap.symm

/-- What is found out before the execution belongs to tokens of the source. -/
theorem mem_tokens_of_outline :
    (∀ entry ∈ (outline failed tokens eof).violations, entry.1 ∈ tokens ++ [eof]) ∧
      ∀ d, some d ∈ (outline failed tokens eof).table → d.name ∈ tokens ++ [eof] := by
  have hstay : (outline failed tokens eof).relabel (Token.stay (tokens ++ [eof])) =
      outline failed tokens eof := relabel_stay_outline fun _ ht => ht
  generalize outline failed tokens eof = o at hstay ⊢
  have hviolations := List.map_inj_left.mp
    ((congrArg Outline.violations hstay).trans (List.map_id _).symm)
  have htable := List.map_inj_left.mp
    ((congrArg Outline.table hstay).trans (List.map_id _).symm)
  constructor
  · intro entry hentry
    exact Token.stay_eq_self.mp (congrArg Prod.fst (hviolations entry hentry))
  · intro d hd
    have hsame := Option.some_inj.mp (htable (some d) hd)
    exact Token.stay_eq_self.mp (congrArg Distance.name hsame)

/-- An error belongs to a token of the source or to one that the machine held before. -/
theorem mem_tokens_of_error {n : Nat} {m : Machine} {e : RuntimeError}
    (hnatives : ∀ native ∈ m.natives, native.IgnoresLines)
    (herror : ((outline failed tokens eof).ending n m).bind Eval.error? = some e) :
    e.token ∈ tokens ++ [eof] ∨ e.token ∈ m.labels := by
  let kept := tokens ++ [eof] ++ m.labels
  have hstay : (outline failed tokens eof).relabel (Token.stay kept) = outline failed tokens eof :=
    relabel_stay_outline fun _ ht => List.mem_append_left _ ht
  have hmachine : m.Renumbered (Token.stay kept) m :=
    Machine.renumbered_self (Token.keepsText_stay kept) hnatives fun t ht =>
      Token.stay_eq_self.mpr (List.mem_append_right _ ht)
  have hending := Outline.ending_relabel (Token.keepsText_stay kept).meaning hmachine
    (outline failed tokens eof) n
  rw [hstay] at hending
  have hsame := Outline.error?_relabelled hending
  rw [herror] at hsame
  injection hsame with hsame
  exact List.mem_append.mp (Token.stay_eq_self.mp (congrArg RuntimeError.token hsame).symm)

end

theorem Stop.relabel_withoutLine {g : Token → Token} (hg : KeepsText g) :
    Stop.relabel Token.withoutLine ∘ Stop.relabel g = Stop.relabel Token.withoutLine :=
  funext fun stop => (stop.relabel_relabel g _).trans
    (congrArg (fun h : Token → Token => stop.relabel h) hg)

/-!
# Layouts
-/

namespace Session

theorem taken_of_marked {s : Session}
    (hnatives : ∀ native ∈ s.machine.natives, native.IgnoresLines) {bound : Nat}
    (hbound : ∀ t ∈ s.machine.labels, t.line ≤ bound) {tokens : List Token} {eof : Token}
    (n : Nat) {layout : String} (hscan : (scan layout).diagnostics = [])
    (htokens : (scan layout).tokens = tokens.map (Token.relocate bound (scan layout).allTokens))
    (heof : (scan layout).eof = Token.relocate bound (scan layout).allTokens eof)
    (hmarked : ∀ t ∈ tokens ++ [eof], (scan layout).allTokens[t.position bound]? =
      some (Token.relocate bound (scan layout).allTokens t) ∧ bound < t.line) :
    let o := outline s.flags.error tokens eof
    (Course.ofMarked bound s o (o.ending n s.machine)).Taken (scan layout).allTokens s
      (s.run n layout) := by
  intro o
  let g := Token.relocate bound (scan layout).allTokens
  have hg : KeepsText g := Token.keepsText_relocate _ _
  have hfollows := follows_run hscan s n
  have houtline : outline s.flags.error (scan layout).tokens (scan layout).eof = o.relabel g := by
    rw [htokens, heof]
    exact outline_map hg.syntactic hg.meaning.lexeme _ _ _
  have hmachine : s.machine.Renumbered g s.machine :=
    Machine.renumbered_self hg hnatives fun t ht => Token.relocate_of_le (hbound t ht) _
  have hending := Outline.ending_relabel hg.meaning hmachine o n
  dsimp only at hfollows
  rw [houtline] at hfollows
  obtain ⟨hviolations, htable⟩ : (∀ entry ∈ o.violations, entry.1 ∈ tokens ++ [eof]) ∧
    ∀ d, some d ∈ o.table → d.name ∈ tokens ++ [eof] := mem_tokens_of_outline
  have herrors : ∀ e, (o.ending n s.machine).bind Eval.error? = some e →
      (e.token.origin bound).token? (scan layout).allTokens = some (g e.token) := by
    intro e herror
    unfold Token.origin
    rcases mem_tokens_of_error hnatives herror with hnew | hold
    · rw [if_pos (hmarked _ hnew).2]
      exact (hmarked _ hnew).1
    · rw [if_neg (Nat.not_lt.mpr (hbound _ hold))]
      exact congrArg some (Token.relocate_of_le (hbound _ hold) _).symm
  generalize o.ending n s.machine = ending, (o.relabel g).ending n s.machine = ending'
    at hending hfollows herrors
  have herror? := Outline.error?_relabelled hending
  constructor
  · rw [hfollows.diagnostics, Outline.relabel, Course.ofMarked, List.map_map, List.map_map,
      List.map_map]
    refine List.map_congr_left fun entry hentry => ?_
    simp only [Function.comp_apply]
    rw [(hmarked _ (hviolations entry hentry)).1]
    rfl
  · rw [hfollows.table, Outline.relabel, Course.ofMarked, List.map_map, List.map_map]
    refine List.map_congr_left fun entry hentry => ?_
    cases entry with
    | none => rfl
    | some d =>
        simp only [Function.comp_apply, Option.map_some, Option.elim_some]
        rw [(hmarked _ (htable d hentry)).1]
        rfl
  · rw [hfollows.printed, Outline.output_relabelled hending, Course.ofMarked]
  · rw [hfollows.errors, herror?, Course.ofMarked]
    cases herror : ending.bind Eval.error? with
    | none => rfl
    | some e =>
        simp [herrors e herror]
  · rw [hfollows.halts, Outline.halt?_relabelled hending, Outline.relabel, Course.ofMarked,
      List.map_append, List.map_append, List.map_map, List.map_map, List.map_map,
      Option.toList_map, List.map_map]
    rw [Stop.relabel_withoutLine hg]
    refine congrArg (· ++ _) (List.map_congr_left fun d _ => ?_)
    exact congrFun (Stop.relabel_withoutLine hg) (.defect d)
  · obtain ⟨locals, hbehind⟩ := hfollows.machine
    rw [hbehind]
    cases hending with
    | none => rfl
    | some hends =>
        exact hends.state.machine.shownGlobals_eq hg.meaning
  · rw [hfollows.flags, herror?, Outline.relabel, Course.ofMarked, List.isEmpty_map,
      Option.isSome_map]

/--
Every layout of the same tokens takes the same course.  An error that is not at a
position of the source is at a token that the machine held before.
-/
theorem run_layout {s : Session} (hnatives : ∀ native ∈ s.machine.natives, native.IgnoresLines)
    (n : Nat) (source : String) :
    ∃ course : Course,
      (∀ token cause, (.before token, cause) ∈ course.errors → token ∈ s.machine.labels) ∧
      ∀ layout : String, (scan layout).diagnostics = [] →
        (scan layout).allTokens.map Token.withoutLine =
          (scan source).allTokens.map Token.withoutLine →
        course.Taken (scan layout).allTokens s (s.run n layout) := by
  obtain ⟨bound, _, hbound⟩ := exists_line_bound 0 s.machine.labels
  obtain ⟨tokens, eof, hmarked⟩ : ∃ tokens eof,
      Token.marked bound (scan source).allTokens = tokens ++ [eof] :=
    ⟨_, _, List.mapIdx_append⟩
  let o := outline s.flags.error tokens eof
  refine ⟨.ofMarked bound s o (o.ending n s.machine), ?_, ?_⟩
  · intro token cause hmem
    obtain ⟨e, he, horigin⟩ := List.mem_map.mp hmem
    rcases mem_tokens_of_error hnatives (Option.mem_toList.mp he) with hnew | hold
    · rw [← hmarked] at hnew
      rw [Token.origin, if_pos (Token.lt_line_of_marked hnew)] at horigin
      cases horigin
    · rw [Token.origin, if_neg (Nat.not_lt.mpr (hbound _ hold))] at horigin
      cases horigin
      exact hold
  · intro layout hscan hsame
    have hlayout : (Token.marked bound (scan source).allTokens).map
        (Token.relocate bound (scan layout).allTokens) = (scan layout).allTokens :=
      Token.map_relocate_marked hsame
    rw [hmarked, List.map_append] at hlayout
    obtain ⟨htokens, heof⟩ := List.append_inj' hlayout rfl
    refine taken_of_marked hnatives hbound n hscan htokens.symm (List.singleton_inj.mp heof).symm ?_
    intro t ht
    rw [← hmarked] at ht
    exact ⟨Token.getElem?_of_marked hsame ht, Token.lt_line_of_marked ht⟩

/-- An error moves with the line of its operator. -/
theorem run_layout_negation :
    let s := start (steadyClock 0)
    let source := "fun f(x) { return -x; }\nprint true;\nf(nil);"
    let layout := "fun f(x) \x7b\n  return\n    -x;\n\x7d\nprint true; f(nil);"
    ∃ course : Course,
      course.Taken (scan source).allTokens s (s.run 20 source) ∧
      course.Taken (scan layout).allTokens s (s.run 20 layout) ∧
      (s.run 20 source).runtimeErrors.map RuntimeError.line = [1] ∧
      (s.run 20 layout).runtimeErrors.map RuntimeError.line = [3] := by
  intro s source layout
  have hnatives : ∀ native ∈ s.machine.natives, native.IgnoresLines := by
    intro native hnative
    rw [List.mem_singleton.mp (Array.mem_toList_iff.mpr hnative)]
    exact fun g _ => Native.ignores_clock g
  obtain ⟨course, _, htaken⟩ := run_layout hnatives 20 source
  have hsource := htaken source (by decide +kernel) rfl
  have hlayout := htaken layout (by decide +kernel) (by decide +kernel)
  exact ⟨course, hsource, hlayout, by decide +kernel, by decide +kernel⟩

end Session

end Lox
