import Lox.Proofs.Grammar.WellFormed
import Lox.Proofs.Machine
import Lox.Proofs.Parse.CompleteStatement
import Lox.Proofs.Resolve.Relabel
import Lox.Session

/-!
# What a run does

A source is executed if nothing is wrong with it and no earlier error is
remembered.  What can be seen of a run is said here in terms of how the execution
of the compiled program ends.
-/

namespace Lox

/-!
# Compiling
-/

/-- The program of a source, if no stage finds anything wrong. -/
def compile (source : String) : Option (List Stmt) :=
  let scanned := scan source
  let parsed := parse scanned.tokens
  let program := parsed.result.getD []
  let resolution := resolve (Stmt.allNumbered 0 program)
  if scanned.diagnostics = [] ∧ parsed.reports.isEmpty = true ∧ resolution.diagnostics = [] then
    some program
  else none

theorem compile_eq_some {source : String} {program : List Stmt} :
    compile source = some program ↔
      (scan source).diagnostics = [] ∧ Grammar.Program true program (scan source).tokens ∧
        (resolve (Stmt.allNumbered 0 program)).diagnostics = [] := by
  simp only [compile]
  constructor
  · intro hcompile
    split at hcompile
    · next hsilent =>
        rcases hsilent with ⟨hscan, hparse, hresolve⟩
        cases hcompile
        rcases program_of_silent (List.isEmpty_iff.mp hparse) with ⟨trees, hparsed, htrees⟩
        rw [hparsed] at hresolve ⊢
        exact ⟨hscan, htrees, hresolve⟩
    · cases hcompile
  · rintro ⟨hscan, hprogram, hresolve⟩
    rw [parse_of_program hprogram, if_pos ⟨hscan, rfl, hresolve⟩]
    rfl

theorem Finding.diagnostic?_shift (shift : Nat) (finding : Finding) :
    (finding.relabel id shift).diagnostic? = finding.diagnostic? := by
  cases finding <;> rfl

/-- What the resolver reports does not depend on the numbers of the nodes. -/
theorem diagnostics_resolve_numbered (k : Nat) (program : List Stmt) :
    (resolve (Stmt.allNumbered k program)).diagnostics =
      (resolve (Stmt.allNumbered 0 program)).diagnostics := by
  rw [Resolution.diagnostics, findings_resolve_numbered, List.filterMap_map,
    Resolution.diagnostics]
  simp only [Function.comp_def, Finding.diagnostic?_shift]

theorem resolve_append_silent {first second : List Stmt}
    (hfirst : (resolve (Stmt.allNumbered 0 first)).diagnostics = [])
    (hsecond : (resolve (Stmt.allNumbered 0 second)).diagnostics = []) :
    (resolve (Stmt.allNumbered 0 (first ++ second))).diagnostics = [] := by
  rw [← diagnostics_resolve_numbered (0 + Stmt.allPlaces first)] at hsecond
  rw [← Resolve.silent_iff_diagnostics] at hfirst hsecond ⊢
  rw [Stmt.allNumbered_append, findings_resolve_append]
  exact Resolve.silent_append.mpr ⟨hfirst, hsecond⟩

namespace Machine

def numbered (m : Machine) (program : List Stmt) : List Stmt :=
  Stmt.allNumbered m.locals.size program

/-- The machine that knows what the resolver found out about a program. -/
def load (m : Machine) (program : List Stmt) : Machine :=
  { m with
    locals := m.locals.learn (Stmt.allPlaces program) (resolve (m.numbered program)).findings }

end Machine

/-!
# What can be seen of a session
-/

/-- The globals in the order of their names, with the kinds and the texts of their values. -/
def Machine.shownGlobals (m : Machine) : List (String × ValueKind × String) :=
  m.globalBindings.map fun (name, value) => (name, value.kind, m.print value)

def Event.isTimeout : Event → Bool
  | .halted .outOfFuel => true
  | _ => false

namespace Session

def printedLines (s : Session) : List String := s.trace.toList.filterMap Event.printed?

def runtimeErrors (s : Session) : List RuntimeError := s.trace.toList.filterMap Event.runtimeError?

/-- How many executions were given up at the bound on the depth of evaluation. -/
def timeouts (s : Session) : Nat := s.trace.toList.countP Event.isTimeout

/-!
# Stages before the execution
-/

theorem reportAll_eq (s : Session) (ds : List Diagnostic) :
    s.reportAll ds =
      { s with
        flags := { s.flags with error := s.flags.error || !ds.isEmpty }
        trace := s.trace ++ (ds.map Event.diagnostic).toArray } := by
  unfold reportAll
  induction ds generalizing s with
  | nil => simp
  | cons d ds ih => simp [ih, report]

end Session

def Finding.event? : Finding → Option Event
  | .violation token rule => some (.diagnostic (.atToken token rule))
  | .local _ _ => none
  | .global _ name => some (.note (.leftGlobal name))
  | .defect fault => some (.halted (.defect fault))

namespace Session

theorem foldl_find_eq (s : Session) (findings : List Finding) :
    findings.foldl find s =
      { s with
        flags :=
          { s.flags with
            error := s.flags.error || !(findings.filterMap Finding.diagnostic?).isEmpty }
        trace := s.trace ++ (findings.filterMap Finding.event?).toArray } := by
  induction findings generalizing s with
  | nil => simp
  | cons finding findings ih =>
      rw [List.foldl_cons, ih]
      cases finding <;>
        simp [find, report, recordNote, record, List.filterMap_cons, Finding.diagnostic?,
          Finding.event?]

/-- The stages before the execution look at the number of nodes known, and add to the table. -/
theorem resolved_eq (s : Session) (program : List Stmt) :
    s.resolved program =
      (s.machine.numbered program,
        (resolve (s.machine.numbered program)).findings.foldl find
          { s with machine := s.machine.load program }) := rfl

structure LooksLike (s s' : Session) : Prop where
  machine : s'.machine = s.machine
  flags : s'.flags = s.flags
  printedLines : s'.printedLines = s.printedLines
  runtimeErrors : s'.runtimeErrors = s.runtimeErrors
  timeouts : s'.timeouts = s.timeouts

/-- Events of the stages before the execution are not among what is seen of it. -/
theorem looksLike_of_quiet {s s' : Session} {events : List Event}
    (hmachine : s'.machine = s.machine) (hflags : s'.flags = s.flags)
    (htrace : s'.trace = s.trace ++ events.toArray)
    (hquiet : ∀ e ∈ events, e.printed? = none ∧ e.runtimeError? = none ∧ e.isTimeout = false) :
    LooksLike s s' := by
  have hprinted : events.filterMap Event.printed? = [] :=
    List.filterMap_eq_nil_iff.mpr fun e he => (hquiet e he).1
  have herrors : events.filterMap Event.runtimeError? = [] :=
    List.filterMap_eq_nil_iff.mpr fun e he => (hquiet e he).2.1
  have htimeouts : events.countP Event.isTimeout = 0 :=
    List.countP_eq_zero.mpr fun e he => by simp [(hquiet e he).2.2]
  refine ⟨hmachine, hflags, ?_, ?_, ?_⟩
  · simp [printedLines, htrace, hprinted]
  · simp [runtimeErrors, htrace, herrors]
  · simp [timeouts, htrace, htimeouts]

end Session

/-!
# Executions
-/

namespace Eval

def error? : EStateM.Result Stop Machine α → Option RuntimeError
  | .error (.error e) _ => some e
  | _ => none

def isTimeout : EStateM.Result Stop Machine α → Bool
  | .error .outOfFuel _ => true
  | _ => false

end Eval

namespace Session

/-- What a session shows behind an execution, compared with what it showed before. -/
structure Executed (before behind : Session) (result : EStateM.Result Stop Machine α) :
    Prop where
  machine : behind.machine = { Eval.state result with output := #[] }
  flags : behind.flags = { before.flags with
    runtimeError := before.flags.runtimeError || (Eval.error? result).isSome }
  printedLines : behind.printedLines =
    before.printedLines ++ (Eval.state result).output.toList
  runtimeErrors : behind.runtimeErrors = before.runtimeErrors ++ (Eval.error? result).toList
  timeouts : behind.timeouts = before.timeouts + (Eval.isTimeout result).toNat

theorem trace_flush (s : Session) (m : Machine) :
    (s.flush m).trace = s.trace ++ m.output.map Event.printed :=
  Array.foldl_push_eq_append rfl

theorem executed_perform (s : Session) (action : Eval Completion) :
    Executed s (s.perform action) (action s.machine) := by
  have hprinted : ∀ lines : List String,
      (lines.map Event.printed).filterMap Event.printed? = lines := by
    intro lines
    rw [List.filterMap_map]
    exact List.filterMap_some
  have herrors : ∀ lines : List String,
      (lines.map Event.printed).filterMap Event.runtimeError? = [] := by
    intro lines
    simp [List.filterMap_map, Function.comp_def, Event.runtimeError?]
  have htimeouts : ∀ lines : List String,
      (lines.map Event.printed).countP Event.isTimeout = 0 := by
    intro lines
    simp [List.countP_map, Function.comp_def, Event.isTimeout]
  unfold perform
  cases action s.machine with
  | ok completion m =>
      constructor
      · rfl
      · simp [flush, Eval.error?]
      · simp [printedLines, trace_flush, hprinted, Eval.state]
      · simp [runtimeErrors, trace_flush, herrors, Eval.error?]
      · simp [timeouts, trace_flush, htimeouts, Eval.isTimeout]
  | error stop m =>
      cases stop with
      | error e =>
          constructor
          · rfl
          · simp [stopped, flush, recordNote, record, Eval.error?]
          · simp [printedLines, stopped, recordNote, record, trace_flush, hprinted, Eval.state,
              Event.printed?]
          · simp [runtimeErrors, stopped, recordNote, record, trace_flush, herrors, Eval.error?,
              List.filterMap_cons, Event.runtimeError?]
          · simp [timeouts, stopped, recordNote, record, trace_flush, htimeouts, Eval.isTimeout,
              Event.isTimeout]
      | defect d =>
          constructor
          · rfl
          · simp [stopped, flush, record, Eval.error?]
          · simp [printedLines, stopped, record, trace_flush, hprinted, Eval.state,
              Event.printed?]
          · simp [runtimeErrors, stopped, record, trace_flush, herrors, Eval.error?,
              Event.runtimeError?]
          · simp [timeouts, stopped, record, trace_flush, htimeouts, Eval.isTimeout,
              Event.isTimeout]
      | outOfFuel =>
          constructor
          · rfl
          · simp [stopped, flush, record, Eval.error?]
          · simp [printedLines, stopped, record, trace_flush, hprinted, Eval.state,
              Event.printed?]
          · simp [runtimeErrors, stopped, record, trace_flush, herrors, Eval.error?,
              Event.runtimeError?]
          · simp [timeouts, stopped, record, trace_flush, htimeouts, Eval.isTimeout,
              Event.isTimeout]

theorem executed_run {s : Session} (hflags : s.flags.error = false) {source : String}
    {program : List Stmt} (hcompile : compile source = some program) (n : Nat) :
    Executed s (s.run n source)
      (Eval.interpret n (s.machine.numbered program) (s.machine.load program)) := by
  rcases compile_eq_some.mp hcompile with ⟨hscan, hprogram, hresolve⟩
  have hparsed := parse_of_program hprogram
  have hsilent : (resolve (s.machine.numbered program)).findings.filterMap Finding.diagnostic? =
      [] := (diagnostics_resolve_numbered _ program).trans hresolve
  let events := [.note (.scanned ((scan source).tokens.length + 1) (scan source).line),
    .note (.parsed program.length)] ++
    (resolve (s.machine.numbered program)).findings.filterMap Finding.event?
  let loaded : Session := { s with machine := s.machine.load program }
  let ready : Session :=
    { loaded with
      flags := { s.flags with error := false }
      trace := s.trace ++ events.toArray }
  have hrun : s.run n source =
      ready.perform (Eval.interpret n (s.machine.numbered program)) := by
    simp [run, scanned, parsed, resolved_eq, execute, reportAll_eq, foldl_find_eq, recordNote,
      record, hscan, hparsed, hflags, hsilent, ready, events, loaded]
  have hlooks : LooksLike loaded ready := by
    have hready : ready.flags = s.flags := by
      show Flags.mk false s.flags.runtimeError = s.flags
      rw [← hflags]
    refine looksLike_of_quiet rfl hready rfl ?_
    intro e he
    simp only [events, List.mem_append, List.mem_cons, List.not_mem_nil, or_false,
      List.mem_filterMap] at he
    rcases he with (rfl | rfl) | ⟨finding, hfinding, hevent⟩
    · exact ⟨rfl, rfl, rfl⟩
    · exact ⟨rfl, rfl, rfl⟩
    · cases finding <;> cases hevent <;> exact ⟨rfl, rfl, rfl⟩
  rw [hrun]
  have hexecuted := executed_perform ready (Eval.interpret n (s.machine.numbered program))
  rw [hlooks.machine] at hexecuted
  constructor
  · exact hexecuted.machine
  · rw [hexecuted.flags, hlooks.flags]
  · rw [hexecuted.printedLines, hlooks.printedLines]
    rfl
  · rw [hexecuted.runtimeErrors, hlooks.runtimeErrors]
    rfl
  · rw [hexecuted.timeouts, hlooks.timeouts]
    rfl

/-- A source with something wrong in it is not executed, nor is any source behind an error. -/
theorem machine_run_eq {s : Session} {source : String}
    (hstop : s.flags.error = true ∨ compile source = none) (n : Nat) :
    (s.run n source).machine = s.machine ∨
      ∃ program, (s.run n source).machine = s.machine.load program := by
  simp only [run, scanned, parsed, resolved_eq, reportAll_eq, foldl_find_eq, recordNote, record]
  split
  · exact Or.inl rfl
  · next hparsed =>
      split
      · exact Or.inr ⟨_, rfl⟩
      · next hresolved =>
          -- nothing was found wrong, so the source compiles
          exfalso
          simp only [Bool.or_eq_true, Bool.not_eq_true', List.isEmpty_eq_false_iff, not_or,
            Bool.not_eq_true, Decidable.not_not, ne_eq, List.map_eq_nil_iff] at hresolved
          rcases hresolved with ⟨⟨⟨hflags, hscan⟩, hparse⟩, hresolve⟩
          rcases hstop with herror | hnone
          · rw [hflags] at herror
            cases herror
          · have hsilent := (diagnostics_resolve_numbered s.machine.locals.size _).symm.trans
              hresolve
            have hsome : compile source ≠ none := by
              simp [compile, hscan, hparse, hsilent]
            exact hsome hnone

/-- While an error is remembered, a run shows nothing of what is seen of executions. -/
theorem looksLike_run {s : Session} (herror : s.flags.error = true) (n : Nat) (source : String) :
    LooksLike s (s.run n source) := by
  let parsed := parse (scan source).tokens
  let events := (scan source).diagnostics.map Event.diagnostic ++
    .note (.scanned ((scan source).tokens.length + 1) (scan source).line) ::
    (parsed.reports.map (Report.diagnostic (scan source).eof)).map Event.diagnostic ++
    [.note (.parsed (parsed.result.getD []).length), .note .notResolving]
  have hrun : s.run n source =
      { s with flags := { s.flags with error := true }, trace := s.trace ++ events.toArray } := by
    simp [run, scanned, Session.parsed, reportAll_eq, recordNote, record, herror, events, parsed]
  have hflags : (⟨true, s.flags.runtimeError⟩ : Flags) = s.flags := by rw [← herror]
  rw [hrun]
  refine looksLike_of_quiet rfl hflags rfl ?_
  intro e he
  simp only [events, List.mem_append, List.mem_map, List.mem_cons, List.not_mem_nil,
    or_false] at he
  rcases he with (⟨d, _, rfl⟩ | rfl | ⟨d, _, rfl⟩) | rfl | rfl
  · exact ⟨rfl, rfl, rfl⟩
  · exact ⟨rfl, rfl, rfl⟩
  · exact ⟨rfl, rfl, rfl⟩
  · exact ⟨rfl, rfl, rfl⟩
  · exact ⟨rfl, rfl, rfl⟩

end Session
end Lox
