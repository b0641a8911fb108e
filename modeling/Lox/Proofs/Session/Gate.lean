import Lox.Proofs.Session.Steps

/-!
# Errors and executions

The error flag is set exactly if something was reported since it was cleared, and
it decides whether a source is executed.  Several sessions can share the flag:
then an error in one of them keeps all of them from executing anything.
-/

namespace Lox

inductive Event.Static : Event → Prop where
  | diagnostic (d : Diagnostic) : Static (.diagnostic d)
  | note (note : Note) : Static (.note note)
  | defect (d : Defect) : Static (.halted (.defect d))

/-- What is wrong with a source; names are looked at only if it can be parsed. -/
def diagnose (source : String) : List Diagnostic :=
  let scanned := scan source
  let parsed := parse scanned.tokens
  let broken := scanned.diagnostics ++ parsed.reports.map (Report.diagnostic scanned.eof)
  if broken.isEmpty then (resolve (Stmt.allNumbered 0 (parsed.result.getD []))).diagnostics
  else broken

namespace Session

/-!
# What the stages record
-/

/-- What a session records on the way to a later state, and the error flag behind it. -/
structure Adds (s s' : Session) (events : List Event) : Prop where
  trace : s'.trace.toList = s.trace.toList ++ events
  error : s'.flags.error =
    (s.flags.error || !(events.filterMap Event.diagnostic?).isEmpty)

theorem Adds.since_eq {s s' : Session} {events : List Event} (hadds : Adds s s' events) :
    s.since s' = events :=
  since_of_trace hadds.trace

theorem Adds.trans {s s₁ s₂ : Session} {events events' : List Event}
    (hfirst : Adds s s₁ events) (hsecond : Adds s₁ s₂ events') :
    Adds s s₂ (events ++ events') := by
  constructor
  · rw [hsecond.trace, hfirst.trace, List.append_assoc]
  · rw [hsecond.error, hfirst.error, List.filterMap_append]
    cases events.filterMap Event.diagnostic? <;> simp

/-- A later state of a session in which nothing was executed yet; distances may be known. -/
structure Checks (s s' : Session) (events : List Event) : Prop extends Adds s s' events where
  static : ∀ event ∈ events, event.Static
  machine : ∃ locals, s'.machine = { s.machine with locals }
  runtimeError : s'.flags.runtimeError = s.flags.runtimeError

theorem Checks.trans {s s₁ s₂ : Session} {events events' : List Event}
    (hfirst : Checks s s₁ events) (hsecond : Checks s₁ s₂ events') :
    Checks s s₂ (events ++ events') where
  toAdds := hfirst.toAdds.trans hsecond.toAdds
  static := by
    intro event hevent
    rcases List.mem_append.mp hevent with hevent | hevent
    · exact hfirst.static event hevent
    · exact hsecond.static event hevent
  machine := by
    obtain ⟨locals, hmachine⟩ := hfirst.machine
    obtain ⟨locals', hmachine'⟩ := hsecond.machine
    rw [hmachine', hmachine]
    exact ⟨locals', rfl⟩
  runtimeError := hsecond.runtimeError.trans hfirst.runtimeError

theorem filterMap_diagnostic_map (ds : List Diagnostic) :
    (ds.map Event.diagnostic).filterMap Event.diagnostic? = ds := by
  rw [List.filterMap_map]
  exact List.filterMap_some

theorem filterMap_diagnostic_findings (findings : List Finding) :
    (findings.filterMap Finding.event?).filterMap Event.diagnostic? =
      findings.filterMap Finding.diagnostic? := by
  rw [List.filterMap_filterMap]
  congr 1
  funext finding
  cases finding <;> rfl

theorem checks_recordNote (s : Session) (note : Note) :
    Checks s (s.recordNote note) [.note note] where
  trace := Array.toList_push
  error := by simp [recordNote, record, Event.diagnostic?]
  static := by simpa using Event.Static.note note
  machine := ⟨s.machine.locals, rfl⟩
  runtimeError := rfl

theorem checks_reportAll (s : Session) (ds : List Diagnostic) :
    Checks s (s.reportAll ds) (ds.map Event.diagnostic) where
  trace := by simp [reportAll_eq]
  error := by rw [reportAll_eq, filterMap_diagnostic_map]
  static := by
    intro event hevent
    rcases List.mem_map.mp hevent with ⟨d, _, rfl⟩
    exact .diagnostic d
  machine := ⟨s.machine.locals, by rw [reportAll_eq]⟩
  runtimeError := by rw [reportAll_eq]

theorem checks_resolved (s : Session) (program : List Stmt) :
    Checks s (s.resolved program).2
      ((resolve (s.machine.numbered program)).findings.filterMap Finding.event?) where
  trace := by simp [resolved_eq, foldl_find_eq]
  error := by rw [resolved_eq, foldl_find_eq, filterMap_diagnostic_findings]
  static := by
    intro event hevent
    rcases List.mem_filterMap.mp hevent with ⟨finding, _, hevent⟩
    cases finding <;> cases hevent
    · exact .diagnostic _
    · exact .note _
    · exact .defect _
  machine := ⟨(s.machine.load program).locals, by rw [resolved_eq, foldl_find_eq]; rfl⟩
  runtimeError := by rw [resolved_eq, foldl_find_eq]

/-- The program of a source, and the session when names are resolved or this is left out. -/
def checked (s : Session) (source : String) : List Stmt × Session :=
  let (tokens, s) := s.scanned source
  let (program, s) := s.parsed tokens
  if s.flags.error then (program, s) else s.resolved program

theorem checks_parsed (s : Session) (source : String) :
    ∃ events, Checks s ((s.scanned source).2.parsed (scan source)).2 events ∧
      events.filterMap Event.diagnostic? =
        (scan source).diagnostics ++
          (parse (scan source).tokens).reports.map (Report.diagnostic (scan source).eof) ∧
      ((s.scanned source).2.parsed (scan source)).2.machine = s.machine := by
  refine ⟨_, ((checks_reportAll s _).trans (checks_recordNote _ _)).trans
    ((checks_reportAll _ _).trans (checks_recordNote _ _)), ?_, ?_⟩
  · simp only [List.filterMap_append, filterMap_diagnostic_map, List.filterMap_cons,
      Event.diagnostic?, List.filterMap_nil, List.append_nil]
  · simp [scanned, parsed, reportAll_eq, recordNote, record]

theorem checks_checked (s : Session) (source : String) :
    ∃ events, Checks s (s.checked source).2 events ∧
      (s.flags.error = false → events.filterMap Event.diagnostic? = diagnose source) ∧
      (s.flags.error = true → (s.checked source).2.machine = s.machine) := by
  rcases checks_parsed s source with ⟨events, hparsed, hbroken, hmachine⟩
  have hflag := hparsed.error
  rw [hbroken] at hflag
  have hchecked : s.checked source =
      if ((s.scanned source).2.parsed (scan source)).2.flags.error then
        ((s.scanned source).2.parsed (scan source))
      else ((s.scanned source).2.parsed (scan source)).2.resolved
        ((parse (scan source).tokens).result.getD []) := rfl
  rw [hchecked]
  split
  · next herror =>
      refine ⟨events, hparsed, ?_, fun _ => hmachine⟩
      intro hclear
      rw [hbroken, diagnose, if_neg]
      simpa [hclear, herror] using hflag
  · next herror =>
      refine ⟨_, hparsed.trans (checks_resolved _ _), ?_, ?_⟩
      · intro hclear
        rw [List.filterMap_append, hbroken, filterMap_diagnostic_findings, diagnose,
          ← diagnostics_resolve_numbered]
        have hempty := (Bool.not_eq_true _).mp herror
        rw [hflag, hclear, Bool.false_or, Bool.not_eq_false'] at hempty
        rw [if_pos hempty, List.isEmpty_iff.mp hempty]
        rfl
      · intro hset
        rw [hflag, hset, Bool.true_or] at herror
        exact absurd rfl herror

/-- A source is executed if the error flag is not set when it is checked. -/
theorem run_eq (s : Session) (n : Nat) (source : String) :
    ((s.checked source).2.flags.error = true →
      ∃ note, s.run n source = (s.checked source).2.recordNote note) ∧
    ((s.checked source).2.flags.error = false →
      s.run n source = (s.checked source).2.execute n (s.checked source).1) := by
  simp only [run, checked]
  split
  · next herror =>
      refine ⟨fun _ => ⟨_, rfl⟩, ?_⟩
      intro hclear
      rw [herror] at hclear
      cases hclear
  · next hparsed =>
      constructor
      · intro herror
        exact ⟨_, if_pos herror⟩
      · intro hclear
        exact if_neg (by simp [hclear])

/-!
# What an execution records
-/

end Session

/-- What is recorded about the end of a computation, apart from a runtime error itself. -/
def Eval.lastEvents : EStateM.Result Stop Machine α → List Event
  | .ok _ _ => []
  | .error (.error e) _ => [.note (.runtimeError e)]
  | .error stop _ => [.halted stop]

namespace Session

theorem trace_perform (s : Session) (action : Eval Completion) :
    (s.perform action).trace.toList =
      s.trace.toList ++ ((Eval.state (action s.machine)).output.toList.map Event.printed ++
        Eval.lastEvents (action s.machine) ++
        (Eval.error? (action s.machine)).toList.map Event.runtimeError) := by
  unfold perform
  cases action s.machine with
  | ok completion m => simp [trace_flush, Eval.state, Eval.lastEvents, Eval.error?]
  | error stop m =>
      cases stop <;>
        simp [trace_flush, stopped, recordNote, record, Eval.state, Eval.lastEvents,
          Eval.error?]

/-- A runtime error is recorded behind everything else, and there are no diagnostics. -/
theorem adds_perform (s : Session) (action : Eval Completion) :
    ∃ quiet, Adds s (s.perform action)
        (quiet ++ (Eval.error? (action s.machine)).toList.map Event.runtimeError) ∧
      ∀ event ∈ quiet, event.diagnostic? = none ∧ event.runtimeError? = none := by
  have hquiet : ∀ event ∈ (Eval.state (action s.machine)).output.toList.map Event.printed ++
      Eval.lastEvents (action s.machine),
      event.diagnostic? = none ∧ event.runtimeError? = none := by
    intro event hevent
    rcases List.mem_append.mp hevent with hprinted | hlast
    · rcases List.mem_map.mp hprinted with ⟨line, _, rfl⟩
      exact ⟨rfl, rfl⟩
    · generalize action s.machine = result at hlast
      rcases result with ⟨completion, m⟩ | ⟨_ | _ | _, m⟩
      · cases hlast
      all_goals
        rw [List.mem_singleton.mp hlast]
        exact ⟨rfl, rfl⟩
  refine ⟨_, ⟨trace_perform s action, ?_⟩, hquiet⟩
  rw [(executed_perform s action).flags, List.filterMap_append,
    List.filterMap_eq_nil_iff.mpr fun event hevent => (hquiet event hevent).1]
  cases Eval.error? (action s.machine) <;> simp [Event.diagnostic?]

/-!
# What a run records
-/

/-- If the error flag is set when a source is checked, the run is over. -/
theorem checks_run {s : Session} {source : String}
    (herror : (s.checked source).2.flags.error = true) (n : Nat) :
    ∃ events, Checks s (s.run n source) events ∧
      (s.flags.error = false → events.filterMap Event.diagnostic? = diagnose source) ∧
      (s.flags.error = true → (s.run n source).machine = s.machine) := by
  rcases (run_eq s n source).1 herror with ⟨note, hrun⟩
  rcases checks_checked s source with ⟨events, hchecks, hdiagnose, hmachine⟩
  rw [hrun]
  refine ⟨_, hchecks.trans (checks_recordNote _ note), ?_, hmachine⟩
  intro hclear
  rw [List.filterMap_append, hdiagnose hclear]
  exact List.append_nil _

/-- If it is not set, a runtime error is recorded behind everything else. -/
theorem adds_run {s : Session} {source : String}
    (hclear : (s.checked source).2.flags.error = false) (n : Nat) :
    ∃ (quiet : List Event) (error : Option RuntimeError),
      Adds s (s.run n source) (quiet ++ error.toList.map Event.runtimeError) ∧
      (∀ event ∈ quiet, event.diagnostic? = none ∧ event.runtimeError? = none) ∧
      (s.run n source).flags.runtimeError = (s.flags.runtimeError || error.isSome) := by
  rcases checks_checked s source with ⟨events, hchecks, _⟩
  rcases adds_perform (s.checked source).2 (Eval.interpret n (s.checked source).1) with
    ⟨quiet, hadds, hquiet⟩
  have hsilent : events.filterMap Event.diagnostic? = [] := by
    have herror := hchecks.error
    rw [hclear, eq_comm, Bool.or_eq_false_iff, Bool.not_eq_false'] at herror
    exact List.isEmpty_iff.mp herror.2
  rw [(run_eq s n source).2 hclear]
  refine ⟨events ++ quiet, _, List.append_assoc _ _ _ ▸ hchecks.toAdds.trans hadds, ?_, ?_⟩
  · intro event hevent
    rcases List.mem_append.mp hevent with hevent | hevent
    · refine ⟨List.filterMap_eq_nil_iff.mp hsilent event hevent, ?_⟩
      cases hchecks.static event hevent <;> rfl
    · exact hquiet event hevent
  · rw [execute, (executed_perform _ _).flags, hchecks.runtimeError]

section

variable {quiet : List Event} (hquiet : ∀ event ∈ quiet, event.runtimeError? = none)
variable (error : Option RuntimeError)

include hquiet

theorem filterMap_runtimeError_quiet :
    (quiet ++ error.toList.map Event.runtimeError).filterMap Event.runtimeError? =
      error.toList := by
  rw [List.filterMap_append, List.filterMap_eq_nil_iff.mpr hquiet, List.nil_append]
  cases error <;> rfl

theorem eq_nil_of_quiet {earlier later : List Event} {e : RuntimeError}
    (hevents : quiet ++ error.toList.map Event.runtimeError =
      earlier ++ .runtimeError e :: later) : later = [] := by
  rcases List.eq_nil_or_concat later with hnil | ⟨front, last, rfl⟩
  · exact hnil
  · -- otherwise the error is not the last event, so it is among the quiet ones
    exfalso
    have hmem : Event.runtimeError e ∈ quiet := by
      cases error with
      | none =>
          rw [Option.toList_none, List.map_nil, List.append_nil] at hevents
          simp [hevents]
      | some e' =>
          rw [List.concat_eq_append, ← List.cons_append, ← List.append_assoc] at hevents
          rw [(List.append_inj' hevents rfl).1]
          simp
    cases hquiet _ hmem

end

theorem flags_run (s : Session) (n : Nat) (source : String) :
    ∃ events, s.since (s.run n source) = events ∧
      (s.run n source).trace.toList = s.trace.toList ++ events ∧
      (events.filterMap Event.runtimeError?).length ≤ 1 ∧
      (s.run n source).flags =
        ⟨s.flags.error || !(events.filterMap Event.diagnostic?).isEmpty,
          s.flags.runtimeError || !(events.filterMap Event.runtimeError?).isEmpty⟩ := by
  cases herror : (s.checked source).2.flags.error with
  | true =>
      rcases checks_run herror n with ⟨events, hchecks, _⟩
      have hnone : events.filterMap Event.runtimeError? = [] := by
        refine List.filterMap_eq_nil_iff.mpr fun event hevent => ?_
        cases hchecks.static event hevent <;> rfl
      refine ⟨events, hchecks.since_eq, hchecks.trace, by simp [hnone], ?_⟩
      rw [← hchecks.error, hnone, List.isEmpty_nil, Bool.not_true, Bool.or_false,
        ← hchecks.runtimeError]
  | false =>
      rcases adds_run herror n with ⟨quiet, error, hadds, hquiet, hruntime⟩
      have herrors := filterMap_runtimeError_quiet (fun event hevent => (hquiet event hevent).2)
        error
      refine ⟨_, hadds.since_eq, hadds.trace, ?_, ?_⟩
      · rw [herrors]
        cases error <;> simp
      · have hsome : (!error.toList.isEmpty) = error.isSome := by cases error <;> rfl
        rw [← hadds.error, herrors, hsome, ← hruntime]

theorem run_refused {s : Session} {source : String}
    (herror : (s.checked source).2.flags.error = true) (n : Nat) :
    let events := s.since (s.run n source)
    (∃ locals, (s.run n source).machine = { s.machine with locals }) ∧
      events.filterMap Event.printed? = [] ∧ events.filterMap Event.runtimeError? = [] := by
  intro events
  rcases checks_run herror n with ⟨checks, hchecks, _⟩
  have hevents : events = checks := hchecks.since_eq
  rw [hevents]
  constructor
  · exact hchecks.machine
  · constructor
    · apply List.filterMap_eq_nil_iff.mpr
      intro event hevent
      cases hchecks.static event hevent <;> rfl
    · apply List.filterMap_eq_nil_iff.mpr
      intro event hevent
      cases hchecks.static event hevent <;> rfl

theorem machine_run_of_error {s : Session} (hset : s.flags.error = true) (n : Nat)
    (source : String) : (s.run n source).machine = s.machine := by
  rcases checks_checked s source with ⟨checks, hchecks, _⟩
  have herror : (s.checked source).2.flags.error = true := by
    rw [hchecks.error, hset, Bool.true_or]
  rcases checks_run herror n with ⟨_, _, _, hmachine⟩
  exact hmachine hset

theorem runtimeError_last {s : Session} {source : String}
    (hclear : (s.checked source).2.flags.error = false) (n : Nat) {earlier later : List Event}
    {e : RuntimeError} (hsplit : s.since (s.run n source) = earlier ++ .runtimeError e :: later) :
    later = [] := by
  rcases adds_run hclear n with ⟨quiet, error, hadds, hquiet, _⟩
  rw [hadds.since_eq] at hsplit
  exact eq_nil_of_quiet (fun event hevent => (hquiet event hevent).2) error hsplit

end Session

/-- The exit code tells which errors there were, if there is at most one runtime error. -/
theorem Flags.exitCode_iff (ds : List Diagnostic) {es : List RuntimeError} (hes : es.length ≤ 1) :
    let code := Flags.exitCode ⟨!ds.isEmpty, !es.isEmpty⟩
    (code = 65 ↔ ds ≠ []) ∧ (code = 70 ↔ es.length = 1 ∧ ds = []) ∧
      (code = 0 ↔ es = [] ∧ ds = []) := by
  cases ds <;> cases es <;> simp [Flags.exitCode] at hes ⊢
  exact hes

/-!
# Sessions that share the error flag
-/

/-- Sessions with one error flag for all. -/
structure Group (ι : Type) where
  members : ι → Session
  error : Bool

namespace Group

variable {ι : Type} [DecidableEq ι]

/-- Sessions that begin to share the flag; it is not set. -/
def share (members : ι → Session) : Group ι := ⟨members, false⟩

def session (g : Group ι) (i : ι) : Session :=
  { g.members i with flags := { (g.members i).flags with error := g.error } }

def act (g : Group ι) (i : ι) (action : Action) : Group ι :=
  let s := (g.session i).act action
  ⟨fun j => if j = i then s else g.members j, s.flags.error⟩

def actAll (g : Group ι) (steps : List (ι × Action)) : Group ι :=
  steps.foldl (fun g step => g.act step.1 step.2) g

/-- What was reported since the flag was cleared, if `ds` was reported before the steps. -/
def reported (g : Group ι) (ds : List Diagnostic) : List (ι × Action) → List Diagnostic
  | [] => ds
  | (i, action) :: steps =>
      let behind := g.act i action
      let new := ((g.session i).since (behind.session i)).filterMap Event.diagnostic?
      behind.reported (if action = .clearError then [] else ds ++ new) steps

theorem session_act (g : Group ι) (i : ι) (action : Action) :
    (g.act i action).session i = (g.session i).act action := by
  simp [session, act]

end Group

namespace Session

theorem adds_record (s : Session) {event : Event} (hevent : event.diagnostic? = none) :
    Adds s (s.record event) [event] := by
  constructor
  · exact Array.toList_push
  · simp [record, hevent]

theorem adds_listTokens (s : Session) (source : String) :
    ∃ events, Adds s (s.listTokens source) events := by
  have hrecords : ∀ (tokens : List Token) (s : Session), ∃ events,
      Adds s (tokens.foldl (fun s t => s.record (.printed t.listing)) s) events := by
    intro tokens
    induction tokens with
    | nil => exact fun s => ⟨[], by simp, by simp⟩
    | cons t tokens ih =>
        intro s
        rcases ih (s.record (.printed t.listing)) with ⟨events, hadds⟩
        exact ⟨_, (adds_record s rfl).trans hadds⟩
  have hscanned := (checks_reportAll s (scan source).diagnostics).trans (checks_recordNote _
    (.scanned ((scan source).tokens.length + 1) (scan source).line))
  rcases hrecords (scan source).allTokens (s.scanned source).2 with ⟨events, hadds⟩
  exact ⟨_, hscanned.toAdds.trans hadds⟩

theorem adds_showTree (s : Session) (source : String) :
    ∃ events, Adds s (s.showTree source) events := by
  have hchecks := ((checks_reportAll s (scan source).diagnostics).trans (checks_recordNote _
    (.scanned ((scan source).tokens.length + 1) (scan source).line))).trans
    (checks_reportAll _ ((parseExpression (scan source).tokens).reports.map
      (Report.diagnostic (scan source).eof)))
  have hcases : ∀ (error : Bool) {s₁ s₂ : Session}, (∃ events, Adds s s₁ events) →
      (∃ events, Adds s s₂ events) → ∃ events, Adds s (if error then s₁ else s₂) events := by
    intro error s₁ s₂ hfirst hsecond
    cases error
    · exact hsecond
    · exact hfirst
  simp only [showTree, scanned]
  cases (parseExpression (scan source).tokens).result with
  | none => exact ⟨_, hchecks.toAdds⟩
  | some e =>
      exact hcases _ ⟨_, hchecks.toAdds⟩ ⟨_, hchecks.toAdds.trans (adds_record _ rfl)⟩

/-- The error flag is only cleared by the action that is there for it. -/
theorem adds_act (s : Session) {action : Action} (haction : action ≠ .clearError) :
    ∃ events, Adds s (s.act action) events := by
  cases action with
  | run n source =>
      cases herror : (s.checked source).2.flags.error with
      | true =>
          rcases checks_run herror n with ⟨events, hchecks, _⟩
          exact ⟨events, hchecks.toAdds⟩
      | false =>
          rcases adds_run herror n with ⟨quiet, error, hadds, _⟩
          exact ⟨_, hadds⟩
  | listTokens source => exact adds_listTokens s source
  | showTree source => exact adds_showTree s source
  | clearError => exact absurd rfl haction
  | clearRuntimeError =>
      exact ⟨[], by simp [act, clearRuntimeError], by simp [act, clearRuntimeError]⟩

end Session

namespace Group

variable {ι : Type} [DecidableEq ι]

theorem error_eq_reported (g : Group ι) (ds : List Diagnostic) (hds : g.error = !ds.isEmpty)
    (steps : List (ι × Action)) : (g.actAll steps).error = !(g.reported ds steps).isEmpty := by
  induction steps generalizing g ds with
  | nil => exact hds
  | cons step steps ih =>
      rcases step with ⟨i, action⟩
      apply ih
      by_cases haction : action = .clearError
      · subst haction
        rw [if_pos rfl]
        rfl
      · rcases (g.session i).adds_act haction with ⟨events, hadds⟩
        rw [if_neg haction, session_act, hadds.since_eq]
        show ((g.session i).act action).flags.error = _
        rw [hadds.error]
        show (g.error || _) = _
        rw [hds]
        cases ds <;> simp

/--
Errors keep sources from being executed.  Let sessions share the error flag, and
let them do anything in any order.  The flag is set exactly if something was
reported since it was cleared.  If it is set when a run has checked its source,
the run executes nothing and changes at most what is known of nodes; if it was set
before, it changes nothing on the machine at all.
Any other run ends with a runtime error or has none.  So behind a run from clear
flags the exit code tells which errors there were.
-/
theorem reports_gate_runs (members : ι → Session) (steps : List (ι × Action)) :
    let now := (share members).actAll steps
    (now.error = true ↔ (share members).reported [] steps ≠ []) ∧
    ∀ i n source,
      let before := now.session i
      let checked := (before.checked source).2
      let behind := (now.act i (.run n source)).session i
      let events := before.since behind
      behind.trace.toList = before.trace.toList ++ events ∧
      (checked.flags.error = true →
        (∃ locals, behind.machine = { before.machine with locals }) ∧
        events.filterMap Event.printed? = [] ∧ events.filterMap Event.runtimeError? = []) ∧
      (before.flags.error = true → behind.machine = before.machine) ∧
      (checked.flags.error = false → (events.filterMap Event.runtimeError?).length ≤ 1 ∧
        ∀ earlier e later, events = earlier ++ .runtimeError e :: later → later = []) ∧
      (before.flags = {} →
        (behind.exitCode = 65 ↔ events.filterMap Event.diagnostic? ≠ []) ∧
        (behind.exitCode = 70 ↔ (events.filterMap Event.runtimeError?).length = 1 ∧
          events.filterMap Event.diagnostic? = []) ∧
        (behind.exitCode = 0 ↔ events.filterMap Event.runtimeError? = [] ∧
          events.filterMap Event.diagnostic? = [])) := by
  intro now
  constructor
  · rw [error_eq_reported (share members) [] rfl]
    simp
  · intro i n source before checked behind events
    have hbehind : behind = before.run n source := session_act now i (.run n source)
    rcases before.flags_run n source with ⟨recorded, hsince, htrace, hcount, hflags⟩
    have hevents : events = before.since (before.run n source) := congrArg before.since hbehind
    rw [hevents, hbehind]
    constructor
    · rw [hsince]
      exact htrace
    · constructor
      · exact fun herror => Session.run_refused herror n
      · constructor
        · exact fun hset => Session.machine_run_of_error hset n source
        · constructor
          · intro hclear
            constructor
            · rw [hsince]
              exact hcount
            · intro earlier e later hsplit
              exact Session.runtimeError_last hclear n hsplit
          · intro hclear
            rw [Session.exitCode, hflags, hclear, hsince]
            exact Flags.exitCode_iff _ hcount

/-- An error in one session keeps another one from printing. -/
theorem reports_gate_runs_shared :
    let group := share fun _ : Bool => Session.start (steadyClock 0)
    let now := group.actAll [(true, .run 9 "print;")]
    let before := now.session false
    let behind := (now.act false (.run 9 "print true;")).session false
    now.error = true ∧ (before.since behind).filterMap Event.printed? = [] := by
  intro group now before behind
  rcases reports_gate_runs (fun _ : Bool => Session.start (steadyClock 0))
    [(true, .run 9 "print;")] with ⟨hflag, hruns⟩
  have hreported : group.reported [] [(true, .run 9 "print;")] ≠ [] := by decide +kernel
  have hchecked : (before.checked "print true;").2.flags.error = true := by decide +kernel
  exact ⟨hflag.mpr hreported, ((hruns false 9 "print true;").2.1 hchecked).2.1⟩

end Group
end Lox
