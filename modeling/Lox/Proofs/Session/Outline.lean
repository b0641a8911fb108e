import Lox.Proofs.Parse.Natural
import Lox.Proofs.Session.Gate
import Lox.Proofs.Session.Renumbered

/-!
# What is known of a source before it is executed

The tokens of a source determine which rules it breaks, at which distances its
names are bound, node by node, and whether there is a program to execute.  What a run shows
follows from this and from how the execution ends.  Relabelled tokens give the
same outline with relabelled tokens.
-/

namespace Lox

namespace Finding

def defect? : Finding → Option Defect
  | .defect d => some d
  | _ => none

end Finding

structure Outline where
  /-- The broken rules, with the tokens at which they are broken. -/
  violations : List (Token × Violation)
  /-- What the resolver found out about the nodes, in the order of their numbers. -/
  table : List (Option Distance) := []
  defects : List Defect := []
  /-- The program, if it is to be executed. -/
  program : Option (List Stmt) := none

/-- The outline of a source, given whether an error is remembered and the token at the end. -/
def outline (failed : Bool) (tokens : List Token) (eof : Token) : Outline :=
  let parsed := parse tokens
  let broken := parsed.reports.map fun r => (r.token.getD eof, r.violation)
  if failed || !broken.isEmpty then
    { violations := broken }
  else
    let program := parsed.result.getD []
    let findings := (resolve (Stmt.allNumbered 0 program)).findings
    let violations := findings.filterMap Finding.violation?
    { violations
      table := (Locals.ofProgram program).cells.toList
      defects := findings.filterMap Finding.defect?
      program := if violations.isEmpty then some program else none }

namespace Outline

def ending (o : Outline) (n : Nat) (m : Machine) :
    Option (EStateM.Result Stop Machine Completion) :=
  o.program.map fun program => Eval.interpret n (m.numbered program) (m.load program)

end Outline

namespace Eval

/-- Why a computation was given up, if not because of a runtime error. -/
def halt? : EStateM.Result Stop Machine α → Option Stop
  | .ok _ _ => none
  | .error (.error _) _ => none
  | .error stop _ => some stop

end Eval

/-!
# What a run shows
-/

namespace Session

/-- What a later state of a session knows of the nodes that an earlier one did not have. -/
def entriesSince (before behind : Session) : List (Option Distance) :=
  behind.machine.locals.cells.toList.drop before.machine.locals.size

/-- What can be seen of a run with this outline, whose execution ends in this way. -/
structure Follows (o : Outline) (ending : Option (EStateM.Result Stop Machine Completion))
    (before behind : Session) : Prop where
  diagnostics : (before.since behind).filterMap Event.diagnostic? =
    o.violations.map fun (token, rule) => .atToken token rule
  table : before.entriesSince behind = o.table
  printed : (before.since behind).filterMap Event.printed? =
    (ending.map fun result => (Eval.state result).output.toList).getD []
  errors : (before.since behind).filterMap Event.runtimeError? = (ending.bind Eval.error?).toList
  halts : (before.since behind).filterMap Event.halted? =
    o.defects.map Stop.defect ++ (ending.bind Eval.halt?).toList
  machine : ∃ locals, behind.machine =
    { (ending.map fun result => { Eval.state result with output := #[] }).getD before.machine with
      locals }
  flags : behind.flags =
    ⟨before.flags.error || !o.violations.isEmpty,
      before.flags.runtimeError || (ending.bind Eval.error?).isSome⟩

end Session

/-!
# Events before the execution
-/

/-- What static events say: diagnostics and defects, and nothing else. -/
structure Says (events : List Event) (diagnostics : List Diagnostic) (defects : List Defect) :
    Prop where
  diagnostics : events.filterMap Event.diagnostic? = diagnostics
  halts : events.filterMap Event.halted? = defects.map Stop.defect
  printed : events.filterMap Event.printed? = []
  errors : events.filterMap Event.runtimeError? = []

namespace Says

theorem append {events events' : List Event} {ds ds' : List Diagnostic} {fs fs' : List Defect}
    (hfirst : Says events ds fs) (hsecond : Says events' ds' fs') :
    Says (events ++ events') (ds ++ ds') (fs ++ fs') where
  diagnostics := by rw [List.filterMap_append, hfirst.diagnostics, hsecond.diagnostics]
  halts := by rw [List.filterMap_append, hfirst.halts, hsecond.halts, List.map_append]
  printed := by rw [List.filterMap_append, hfirst.printed, hsecond.printed, List.append_nil]
  errors := by rw [List.filterMap_append, hfirst.errors, hsecond.errors, List.append_nil]

theorem note (note : Note) : Says [.note note] [] [] := ⟨rfl, rfl, rfl, rfl⟩

theorem reported (ds : List Diagnostic) : Says (ds.map Event.diagnostic) ds [] := by
  constructor <;>
    simp [List.filterMap_map, Function.comp_def, Event.diagnostic?, Event.halted?, Event.printed?,
      Event.runtimeError?]

theorem found (findings : List Finding) :
    Says (findings.filterMap Finding.event?) (findings.filterMap Finding.diagnostic?)
      (findings.filterMap Finding.defect?) := by
  induction findings with
  | nil => exact ⟨rfl, rfl, rfl, rfl⟩
  | cons finding findings ih =>
      cases finding with
      | violation token rule => exact (reported [.atToken token rule]).append ih
      | «local» node distance => exact ih
      | «global» node name => exact (note (.leftGlobal name)).append ih
      | defect d =>
          have hdefect : Says [.halted (.defect d)] [] [d] := ⟨rfl, rfl, rfl, rfl⟩
          exact hdefect.append ih

end Says

theorem map_atToken_violation? (findings : List Finding) :
    ((findings.filterMap Finding.violation?).map fun (token, rule) =>
      Diagnostic.atToken token rule) = findings.filterMap Finding.diagnostic? := by
  rw [List.map_filterMap, funext Finding.diagnostic?_eq_map]

namespace Session

/-- A later state of a session, in which this has been found and nothing was executed. -/
structure Screened (s s' : Session) (ds : List Diagnostic) (table : List (Option Distance))
    (defects : List Defect) : Prop where
  events : ∃ events, s'.trace.toList = s.trace.toList ++ events ∧ Says events ds defects
  machine : s'.machine = { s.machine with locals := s.machine.locals.append ⟨table.toArray⟩ }
  flags : s'.flags = { s.flags with error := s.flags.error || !ds.isEmpty }

theorem Screened.trans {s s₁ s₂ : Session} {ds ds' : List Diagnostic}
    {table table' : List (Option Distance)} {defects defects' : List Defect}
    (hfirst : Screened s s₁ ds table defects) (hsecond : Screened s₁ s₂ ds' table' defects') :
    Screened s s₂ (ds ++ ds') (table ++ table') (defects ++ defects') where
  events := by
    obtain ⟨events, htrace, hsays⟩ := hfirst.events
    obtain ⟨events', htrace', hsays'⟩ := hsecond.events
    exact ⟨events ++ events', by rw [htrace', htrace, List.append_assoc], hsays.append hsays'⟩
  machine := by
    rw [hsecond.machine, hfirst.machine]
    simp [Locals.append]
  flags := by
    rw [hsecond.flags, hfirst.flags]
    cases ds <;> simp

theorem screened_recordNote (s : Session) (note : Note) :
    Screened s (s.recordNote note) [] [] [] where
  events := ⟨[.note note], Array.toList_push, .note note⟩
  machine := by simp [recordNote, record, Locals.append]
  flags := by simp [recordNote, record]

theorem screened_reportAll (s : Session) (ds : List Diagnostic) :
    Screened s (s.reportAll ds) ds [] [] := by
  rw [reportAll_eq]
  exact ⟨⟨_, by simp, .reported ds⟩, by simp [Locals.append], rfl⟩

theorem defects_numbered (k : Nat) (program : List Stmt) :
    (resolve (Stmt.allNumbered k program)).findings.filterMap Finding.defect? =
      (resolve (Stmt.allNumbered 0 program)).findings.filterMap Finding.defect? := by
  rw [findings_resolve_numbered, List.filterMap_map]
  refine List.filterMap_congr fun finding _ => ?_
  cases finding with
  | defect d => exact congrArg some d.relabel_id
  | _ => rfl

theorem screened_resolved (s : Session) (program : List Stmt) :
    Screened s (s.resolved program).2 (resolve (Stmt.allNumbered 0 program)).diagnostics
      (Locals.ofProgram program).cells.toList
      ((resolve (Stmt.allNumbered 0 program)).findings.filterMap Finding.defect?) := by
  rw [resolved_eq, Machine.numbered, foldl_find_eq,
    ← diagnostics_resolve_numbered s.machine.locals.size,
    ← defects_numbered s.machine.locals.size]
  exact ⟨⟨_, by simp, .found _⟩, s.machine.load_eq_append program, rfl⟩

theorem screened_parsed {source : String} (hscan : (scan source).diagnostics = []) (s : Session) :
    Screened s ((s.scanned source).2.parsed (scan source)).2
      ((parse (scan source).tokens).reports.map (Report.diagnostic (scan source).eof)) [] [] := by
  have hscanned : Screened s (s.scanned source).2 _ _ _ :=
    (screened_reportAll s (scan source).diagnostics).trans (screened_recordNote _ _)
  have hparsed : Screened (s.scanned source).2 ((s.scanned source).2.parsed (scan source)).2
      _ _ _ :=
    (screened_reportAll _
      ((parse (scan source).tokens).reports.map (Report.diagnostic (scan source).eof))).trans
      (screened_recordNote _ _)
  have hboth := hscanned.trans hparsed
  rw [hscan] at hboth
  simpa only [List.nil_append, List.append_nil] using hboth

theorem screened_checked {source : String} (hscan : (scan source).diagnostics = []) (s : Session) :
    let o := outline s.flags.error (scan source).tokens (scan source).eof
    Screened s (s.checked source).2 (o.violations.map fun (token, rule) => .atToken token rule)
        o.table o.defects ∧
      if (s.checked source).2.flags.error then o.program = none
      else ∃ program, o.program = some program ∧
        s.checked source = (s.machine.numbered program, (s.checked source).2) ∧
        (s.checked source).2.machine = s.machine.load program := by
  let parsed := parse (scan source).tokens
  let broken := parsed.reports.map fun r => (r.token.getD (scan source).eof, r.violation)
  have hreports : parsed.reports.map (Report.diagnostic (scan source).eof) =
      broken.map fun (token, rule) => .atToken token rule := by
    rw [List.map_map]
    rfl
  let ready := (s.scanned source).2.parsed (scan source)
  have hready : Screened s ready.2 (broken.map fun (token, rule) => .atToken token rule) [] [] :=
    hreports ▸ screened_parsed hscan s
  have hmachine : ready.2.machine = s.machine := by
    rw [hready.machine]
    simp [Locals.append]
  have hflag : ready.2.flags.error = (s.flags.error || !broken.isEmpty) := by
    rw [hready.flags]
    simp
  have hchecked : s.checked source =
      if ready.2.flags.error then ready else ready.2.resolved (parsed.result.getD []) := rfl
  intro o
  cases hfailed : s.flags.error || !broken.isEmpty with
  | true =>
      have ho : o = { violations := broken } := if_pos hfailed
      rw [hchecked, if_pos (hflag.trans hfailed), ho, if_pos (hflag.trans hfailed)]
      exact ⟨hready, rfl⟩
  | false =>
      let program := parsed.result.getD []
      let resolution := resolve (Stmt.allNumbered 0 program)
      let violations := resolution.findings.filterMap Finding.violation?
      have ho : o =
          ⟨violations, (Locals.ofProgram program).cells.toList,
            resolution.findings.filterMap Finding.defect?,
            if violations.isEmpty then some program else none⟩ :=
        if_neg (by rw [hfailed]; exact Bool.false_ne_true)
      have hclear : s.flags.error = false ∧ broken = [] := by simpa using hfailed
      have hviolations : violations.map (fun (token, rule) => Diagnostic.atToken token rule) =
          resolution.diagnostics := map_atToken_violation? _
      have hresolved := hready.trans (screened_resolved ready.2 program)
      rw [hclear.2, List.map_nil, List.nil_append, List.nil_append, List.nil_append] at hresolved
      rw [hchecked, if_neg (by rw [hflag, hfailed]; exact Bool.false_ne_true), ho]
      refine ⟨by rw [hviolations]; exact hresolved, ?_⟩
      have herror : (ready.2.resolved program).2.flags.error = !violations.isEmpty := by
        rw [hresolved.flags, hclear.1, ← hviolations]
        cases violations <;> rfl
      rw [herror]
      cases hnone : violations.isEmpty with
      | false => rfl
      | true =>
          refine ⟨program, rfl, ?_, ?_⟩
          · rw [resolved_eq, hmachine]
          · rw [hresolved.machine, Machine.load_eq_append]

theorem filterMap_execution (result : EStateM.Result Stop Machine Completion) :
    let events := (Eval.state result).output.toList.map Event.printed ++
      Eval.lastEvents result ++ (Eval.error? result).toList.map Event.runtimeError
    events.filterMap Event.diagnostic? = [] ∧
      events.filterMap Event.printed? = (Eval.state result).output.toList ∧
      events.filterMap Event.runtimeError? = (Eval.error? result).toList ∧
      events.filterMap Event.halted? = (Eval.halt? result).toList := by
  have hprinted : ∀ lines : List String,
      (lines.map Event.printed).filterMap Event.diagnostic? = [] ∧
        (lines.map Event.printed).filterMap Event.printed? = lines ∧
        (lines.map Event.printed).filterMap Event.runtimeError? = [] ∧
        (lines.map Event.printed).filterMap Event.halted? = [] := by
    intro lines
    simp [List.filterMap_map, Function.comp_def, Event.diagnostic?, Event.printed?,
      Event.runtimeError?, Event.halted?]
  obtain ⟨hdiagnostics, hlines, herrors, hhalts⟩ := hprinted (Eval.state result).output.toList
  simp only [List.filterMap_append, hdiagnostics, hlines, herrors, hhalts]
  rcases result with ⟨completion, m⟩ | ⟨_ | _ | _, m⟩ <;>
    simp [Eval.lastEvents, Eval.error?, Eval.halt?, Event.diagnostic?, Event.printed?,
      Event.runtimeError?, Event.halted?]

theorem follows_of_screened {o : Outline} {s behind : Session}
    (hscreened : Screened s behind (o.violations.map fun (token, rule) => .atToken token rule)
      o.table o.defects) :
    Follows o none s behind := by
  obtain ⟨events, htrace, hsays⟩ := hscreened.events
  have hsince := since_of_trace htrace
  refine ⟨?_, ?_, ?_, ?_, ?_, ⟨_, hscreened.machine⟩, ?_⟩
  · rw [hsince, hsays.diagnostics]
  · rw [entriesSince, hscreened.machine]
    simp [Locals.append, Locals.size]
  · rw [hsince, hsays.printed]
    rfl
  · rw [hsince, hsays.errors]
    rfl
  · rw [hsince, hsays.halts]
    simp
  · simp [hscreened.flags]

theorem follows_execute {o : Outline} {s ready : Session}
    (hscreened : Screened s ready (o.violations.map fun (token, rule) => .atToken token rule)
      o.table o.defects) (n : Nat) (program : List Stmt) :
    Follows o (some (Eval.interpret n program ready.machine)) s (ready.execute n program) := by
  have hready := follows_of_screened hscreened
  obtain ⟨events, htrace, hsays⟩ := hscreened.events
  have hexecuted := executed_perform ready (Eval.interpret n program)
  have hstill := (Eval.still_interpret n program ready.machine).2
  have hperform := trace_perform ready (Eval.interpret n program)
  rw [htrace, List.append_assoc] at hperform
  have hsince := since_of_trace hperform
  rw [← since_of_trace htrace] at hsince
  obtain ⟨hdiagnostics, hprinted, herrors, hhalts⟩ :=
    filterMap_execution (Eval.interpret n program ready.machine)
  rw [execute]
  constructor
  · rw [hsince, List.filterMap_append, hready.diagnostics, hdiagnostics, List.append_nil]
  · rw [← hready.table, entriesSince, entriesSince, hexecuted.machine, hstill]
  · rw [hsince, List.filterMap_append, hready.printed, hprinted]
    rfl
  · rw [hsince, List.filterMap_append, hready.errors, herrors]
    rfl
  · rw [hsince, List.filterMap_append, hready.halts, hhalts]
    simp
  · exact ⟨_, hexecuted.machine⟩
  · rw [hexecuted.flags, hready.flags]
    simp

theorem follows_run {source : String} (hscan : (scan source).diagnostics = []) (s : Session)
    (n : Nat) :
    let o := outline s.flags.error (scan source).tokens (scan source).eof
    Follows o (o.ending n s.machine) s (s.run n source) := by
  obtain ⟨hscreened, hprogram⟩ := screened_checked hscan s
  intro o
  cases herror : (s.checked source).2.flags.error with
  | true =>
      rw [if_pos herror] at hprogram
      have hending : o.ending n s.machine = none := by
        rw [Outline.ending, hprogram, Option.map_none]
      obtain ⟨note, hrun⟩ := (run_eq s n source).1 herror
      rw [hending, hrun]
      refine follows_of_screened ?_
      simpa using hscreened.trans (screened_recordNote _ note)
  | false =>
      rw [if_neg (by rw [herror]; exact Bool.false_ne_true)] at hprogram
      obtain ⟨program, hprogram, hchecked, hmachine⟩ := hprogram
      have hending : o.ending n s.machine =
          some (Eval.interpret n (s.checked source).1 (s.checked source).2.machine) := by
        rw [Outline.ending, hprogram, hmachine, congrArg Prod.fst hchecked]
        rfl
      rw [hending, (run_eq s n source).2 herror]
      exact follows_execute hscreened n _

end Session

/-!
# Relabelled tokens
-/

namespace Outline

def relabel (g : Token → Token) (o : Outline) : Outline where
  violations := o.violations.map fun (token, rule) => (g token, rule)
  table := o.table.map (Option.map (Distance.relabel g))
  defects := o.defects.map (Defect.relabel g)
  program := o.program.map (Stmt.relabels g)

end Outline

theorem filterMap_relabel {g : Token → Token} {pick : Finding → Option α} {f : α → α}
    (hpick : ∀ finding : Finding, pick (finding.relabel g 0) = (pick finding).map f)
    (findings : List Finding) :
    (findings.map (Finding.relabel g 0)).filterMap pick = (findings.filterMap pick).map f := by
  rw [List.filterMap_map, List.map_filterMap]
  exact List.filterMap_congr fun finding _ => hpick finding

section

variable {g : Token → Token} (hreads : KeepsSyntax g) (hlexeme : ∀ t, (g t).lexeme = t.lexeme)

include hreads hlexeme

theorem outline_map (failed : Bool) (tokens : List Token) (eof : Token) :
    outline failed (tokens.map g) (g eof) = (outline failed tokens eof).relabel g := by
  have hparsed := parse_map hreads tokens
  have hbroken : (parse (tokens.map g)).reports.map (fun r => (r.token.getD (g eof), r.violation)) =
      ((parse tokens).reports.map fun r => (r.token.getD eof, r.violation)).map
        fun (token, rule) => (g token, rule) := by
    rw [hparsed, Parser.relabelled, List.map_map, List.map_map]
    refine List.map_congr_left fun r _ => ?_
    cases hr : r.token <;> simp [hr]
  have hprogram : (parse (tokens.map g)).result.getD [] =
      Stmt.relabels g ((parse tokens).result.getD []) := by
    rw [hparsed, Parser.relabelled]
    cases (parse tokens).result with
    | none => rw [Option.map_none, Option.getD_none, Stmt.relabels]
    | some program => exact (Stmt.relabels_eq_map g program).symm
  have hfindings := findings_resolve_relabels hlexeme 0 0 ((parse tokens).result.getD [])
  rw [Nat.add_zero] at hfindings
  have hviolations : ∀ finding : Finding, (finding.relabel g 0).violation? =
      finding.violation?.map fun (token, rule) => (g token, rule) := by
    rintro (_ | _ | _ | _) <;> rfl
  have hdefects : ∀ finding : Finding,
      (finding.relabel g 0).defect? = finding.defect?.map (Defect.relabel g) := by
    rintro (_ | _ | _ | _) <;> rfl
  unfold outline
  simp only [hbroken, hprogram, hfindings, Locals.ofProgram_relabels hlexeme,
    filterMap_relabel hviolations, filterMap_relabel hdefects, List.isEmpty_map]
  split
  · rfl
  · simp only [Outline.relabel, Locals.relabel, Array.toList_map]
    split <;> rfl

end

end Lox
