import Lox.Console
import Lox.Proofs.Session.Gate
import Lox.Proofs.Session.Renumbered

/-!
# Sources that do not compile

A run of such a source reports what is wrong and does not execute anything, but
the table of distances may have learnt of its nodes for good.  No later node has
the number of one of them.  So when the error is cleared, the session goes on as
if the source had not been there.  In a dialogue only the prompt of that line and
its diagnostics are left.
-/

namespace Lox

/-!
# Transcripts
-/

namespace Console

def shown (event : Event) : String := event.outputText ++ event.errorText false

theorem transcript_eq (trace : Array Event) :
    transcript trace = String.join (trace.toList.map shown) := by
  have hfoldl : ∀ (events : List Event) (start : String),
      events.foldl (fun text event => text ++ event.outputText ++ event.errorText false) start =
        start ++ String.join (events.map shown) := by
    intro events
    induction events with
    | nil => simp
    | cons event events ih =>
        intro start
        rw [List.foldl_cons, ih, List.map_cons, String.join_cons, shown]
        simp only [String.append_assoc]
  rw [transcript, ← Array.foldl_toList, hfoldl, String.empty_append]

theorem transcript_of_toList {trace : Array Event} {old events : List Event}
    (htrace : trace.toList = old ++ events) :
    transcript trace = String.join (old.map shown) ++ String.join (events.map shown) := by
  rw [transcript_eq, htrace, List.map_append, String.join_append]

theorem map_shown_unnumbered {events events' : List Event}
    (hevents : events'.map Event.unnumbered = events.map Event.unnumbered) :
    events'.map shown = events.map shown := by
  have hshown : shown ∘ Event.unnumbered = shown := by
    funext event
    cases event <;> rfl
  rw [← hshown, ← List.map_map, hevents, List.map_map]

/-- Of what is recorded before an execution, a transcript has the diagnostics. -/
theorem join_shown_static {events : List Event} (hstatic : ∀ event ∈ events, event.Static) :
    String.join (events.map shown) =
      String.join ((events.filterMap Event.diagnostic?).map fun d => d.text ++ "\n") := by
  induction events with
  | nil => rfl
  | cons event events ih =>
      have hrest := ih fun event hevent => hstatic event (List.mem_cons_of_mem _ hevent)
      rw [List.map_cons, String.join_cons, hrest]
      cases hstatic event List.mem_cons_self with
      | diagnostic d =>
          rw [List.filterMap_cons_some (f := Event.diagnostic?) rfl, List.map_cons,
            String.join_cons]
          exact congrArg (· ++ _) (String.empty_append)
      | note note => exact String.empty_append
      | defect d => exact String.empty_append

end Console

namespace Session

/-!
# One source
-/

/-- From a clear flag, a source with something wrong in it is not executed. -/
theorem checks_run_failed {s : Session} (hclear : s.flags.error = false) {bad : String}
    (hbad : diagnose bad ≠ []) (n : Nat) :
    ∃ events, Checks s (s.run n bad) events ∧
      events.filterMap Event.diagnostic? = diagnose bad := by
  have herror : (s.checked bad).2.flags.error = true := by
    rcases checks_checked s bad with ⟨events, hchecks, hdiagnose, _⟩
    rw [hchecks.error, hdiagnose hclear]
    simp [hbad]
  rcases checks_run herror n with ⟨events, hchecks, hdiagnose, _⟩
  exact ⟨events, hchecks, hdiagnose hclear⟩

/-- What a run reports does not depend on the session, as long as the flag is clear. -/
theorem diagnose_of_reports {s : Session} (hclear : s.flags.error = false) {n : Nat}
    {bad : String} (hbad : (s.since (s.run n bad)).filterMap Event.diagnostic? ≠ []) :
    diagnose bad = (s.since (s.run n bad)).filterMap Event.diagnostic? := by
  cases herror : (s.checked bad).2.flags.error with
  | true =>
      rcases checks_run herror n with ⟨events, hchecks, hdiagnose, _⟩
      rw [hchecks.since_eq, hdiagnose hclear]
  | false =>
      rcases adds_run herror n with ⟨quiet, error, hadds, hquiet, _⟩
      have hnone : quiet.filterMap Event.diagnostic? = [] :=
        List.filterMap_eq_nil_iff.mpr fun event hevent => (hquiet event hevent).1
      rw [hadds.since_eq, List.filterMap_append, hnone] at hbad
      cases error <;> exact absurd rfl hbad

theorem compile_eq_none_of_diagnose {bad : String} (hbad : diagnose bad ≠ []) :
    compile bad = none := by
  cases hcompile : compile bad with
  | none => rfl
  | some program =>
      rcases compile_eq_some.mp hcompile with ⟨hscan, hprogram, hresolve⟩
      refine absurd ?_ hbad
      simp [diagnose, hscan, parse_of_program hprogram, hresolve]

/-- Behind a source that does not compile the machine is the same but for numbers of nodes. -/
theorem renumbered_machine_failed {s : Session} (hs : s.machine.OldNodes) {bad : String}
    (hbad : diagnose bad ≠ []) (n : Nat) :
    ∃ ν, (∀ k, ν k < s.machine.locals.size ∨ (s.run n bad).machine.locals.size ≤ ν k) ∧
      s.machine.Renumbered { node := ν } (s.run n bad).machine := by
  have hnone := compile_eq_none_of_diagnose hbad
  rcases machine_run_eq (.inr hnone) n with hmachine | ⟨program, hmachine⟩
  · rw [hmachine]
    exact ⟨id, fun k => Nat.lt_or_ge k _, hs.renumbered_self⟩
  · rw [hmachine]
    exact hs.renumbered_load program

/-!
# Dialogues
-/

theorem error_promptLines {s : Session} (hclear : s.flags.error = false) (n : Nat)
    (lines : List String) :
    (lines.foldl (fun s line => (s.record .prompt).promptLine n line) s).flags.error = false := by
  induction lines generalizing s with
  | nil => exact hclear
  | cons line lines ih => exact ih rfl

theorem dialogue_append (s : Session) (n : Nat) (first second : List String) :
    s.dialogue n (first ++ second) =
      (first.foldl (fun s line => (s.record .prompt).promptLine n line) s).dialogue n second := by
  rw [dialogue, List.foldl_append]
  rfl

theorem oldNodes_promptLines {s : Session} (hs : s.machine.OldNodes) (n : Nat)
    (lines : List String) :
    (lines.foldl (fun s line => (s.record .prompt).promptLine n line) s).machine.OldNodes := by
  induction lines generalizing s with
  | nil => exact hs
  | cons line lines ih =>
      have hasked : (s.record .prompt).machine.OldNodes := hs
      exact ih (oldNodes_run hasked n line)

/-- What a line that does not compile adds to the transcript of the dialogue that starts with it. -/
theorem transcript_dialogue_failed {s : Session} (hs : s.machine.OldNodes)
    (hclear : s.flags.error = false) {bad : String} (hbad : diagnose bad ≠ []) (n : Nat)
    (after : List String) :
    ∃ last,
      Console.transcript (s.dialogue n (bad :: after)).trace =
        Console.transcript s.trace ++
          ("> " ++ String.join ((diagnose bad).map fun d => d.text ++ "\n")) ++ last ∧
      Console.transcript (s.dialogue n after).trace = Console.transcript s.trace ++ last := by
  let asked := s.record .prompt
  let behind := asked.promptLine n bad
  have hasked : asked.flags.error = false := hclear
  rcases checks_run_failed hasked hbad n with ⟨events, hchecks, hevents⟩
  have htrace : behind.trace.toList = s.trace.toList ++ (.prompt :: events) := by
    show (asked.run n bad).trace.toList = _
    rw [hchecks.trace]
    simp [asked, record]
  have hshown : String.join ((.prompt :: events).map Console.shown) =
      "> " ++ String.join ((diagnose bad).map fun d => d.text ++ "\n") := by
    rw [← hevents, ← Console.join_shown_static hchecks.static]
    simp [Console.shown, Event.outputText, Event.errorText]
  -- the flag of runtime errors may be set before the line, but not behind it
  have hsame : ∃ ν, Renumbered False ν s.trace.toList behind.trace.toList s behind := by
    rcases renumbered_machine_failed (s := asked) hs hbad n with ⟨ν, _, hmachine⟩
    exact ⟨ν, hmachine, hclear.symm, False.elim, [], [], by simp, by simp, rfl⟩
  rcases hsame with ⟨ν, hsame⟩
  obtain ⟨later, later', hlater, hlater', hmap⟩ := (hsame.dialogue n after).trace
  refine ⟨String.join (later.map Console.shown), ?_, ?_⟩
  · show Console.transcript (behind.dialogue n after).trace = _
    rw [Console.transcript_of_toList hlater', htrace, List.map_append, String.join_append, hshown,
      Console.map_shown_unnumbered hmap, Console.transcript_eq]
  · rw [Console.transcript_of_toList hlater, Console.transcript_eq]

/--
A run that fails to compile leaves nothing behind.  Let a source be run from a
clear error flag, and let something be reported.  When the flag is cleared again,
whatever is done next records the same events, up to the numbers of nodes in
defects, and leaves the same globals and flags as without that run.  The machines
are the same but for numbers of nodes, and none of these is one that the source
was given.  So a line that does not compile can be removed from a dialogue: the
transcript loses the prompt of the line and its diagnostics.
-/
theorem run_failed_forgotten (flags : Flags) (clock : Nat → Number) (steps : List Step)
    (hnatives : ∀ native, .native native ∈ steps → native.IgnoresNumbers) :
    let s := (startWith flags clock).takeAll steps
    s.flags.error = false → ∀ (n : Nat) (bad : String),
    let reports := (s.since (s.run n bad)).filterMap Event.diagnostic?
    let behind := (s.run n bad).clearError
    reports ≠ [] →
    (∀ later : List Step, (∀ native, .native native ∈ later → native.IgnoresNumbers) →
      (behind.since (behind.takeAll later)).map Event.unnumbered =
        (s.since (s.takeAll later)).map Event.unnumbered ∧
      (behind.takeAll later).machine.shownGlobals = (s.takeAll later).machine.shownGlobals ∧
      (behind.takeAll later).flags = (s.takeAll later).flags ∧
      ∃ ν, (∀ k, ν k < s.machine.locals.size ∨ behind.machine.locals.size ≤ ν k) ∧
        (s.takeAll later).machine.Relabelled { node := ν } (behind.takeAll later).machine) ∧
    ∀ before after : List String, ∃ first last,
      Console.transcript (s.dialogue n (before ++ bad :: after)).trace =
        first ++ ("> " ++ String.join (reports.map fun d => d.text ++ "\n")) ++ last ∧
      Console.transcript (s.dialogue n (before ++ after)).trace = first ++ last := by
  intro s hclear n bad reports behind hreports
  have hold : s.machine.OldNodes := oldNodes_takeAll flags clock steps hnatives
  have hdiagnose : diagnose bad = reports := diagnose_of_reports hclear hreports
  have hfails : diagnose bad ≠ [] := by rwa [hdiagnose]
  constructor
  · intro later hlater
    rcases renumbered_machine_failed hold hfails n with ⟨ν, hskips, hmachine⟩
    rcases checks_run_failed hclear hfails n with ⟨_, hchecks, _⟩
    have hsame : Renumbered True ν s.trace.toList behind.trace.toList s behind :=
      ⟨hmachine, hclear.symm, fun _ => hchecks.runtimeError, [], [], by simp, by simp, rfl⟩
    have hlast := hsame.takeAll hlater
    obtain ⟨events, events', htrace, htrace', hevents⟩ := hlast.trace
    refine ⟨?_, ?_, ?_, ν, hskips, hlast.machine.machine⟩
    · rw [since_of_trace htrace, since_of_trace htrace', hevents]
    · exact hlast.machine.machine.shownGlobals_eq (keepsMeaning_node ν)
    · exact congrArg₂ Flags.mk hlast.error (hlast.runtimeError trivial)
  · intro before after
    rw [dialogue_append, dialogue_append, ← hdiagnose]
    rcases transcript_dialogue_failed (oldNodes_promptLines hold n before)
      (error_promptLines hclear n before) hfails n after with ⟨last, hwith, hwithout⟩
    exact ⟨_, last, hwith, hwithout⟩

/-- What was learnt of a block before it broke a rule stays in the table, and does not matter. -/
theorem run_failed_forgotten_prompt :
    let s := (startWith {} (steadyClock 0)).takeAll
      [.native .clock, .act (.run 9 "fun f(x) { return x; }")]
    let bad := "{ var a = nil; print a; var a = true; }"
    let good := "{ var b = true; print f(b); }"
    let behind := (s.run 9 bad).clearError
    s.flags.error = false ∧ s.distances.length < behind.distances.length ∧
      (behind.since (behind.run 9 good)).map Event.unnumbered =
        (s.since (s.run 9 good)).map Event.unnumbered ∧
      ∃ first last,
        Console.transcript (s.dialogue 9 [bad, good]).trace =
          first ++ ("> " ++
            "[line 1] Error at 'a': Already a variable with this name in this scope.\n") ++ last ∧
        Console.transcript (s.dialogue 9 [good]).trace = first ++ last := by
  intro s bad good behind
  have hnatives : ∀ native, .native native ∈ [Step.native .clock,
      .act (.run 9 "fun f(x) { return x; }")] → native.IgnoresNumbers := by
    intro native hmem
    simp only [List.mem_cons, Step.native.injEq, reduceCtorEq, List.not_mem_nil, or_false] at hmem
    rw [hmem]
    exact fun ν => Native.ignores_clock _
  have hclear : s.flags.error = false := by decide +kernel
  have hreports : (s.since (s.run 9 bad)).filterMap Event.diagnostic? =
      [⟨1, .atLexeme "a", .alreadyDeclared⟩] := by decide +kernel
  have hforgotten := run_failed_forgotten {} (steadyClock 0) _ hnatives hclear 9 bad
    (by rw [hreports]; simp)
  rw [hreports] at hforgotten
  obtain ⟨hlater, hdialogue⟩ := hforgotten
  exact ⟨hclear, by decide +kernel, (hlater [.act (.run 9 good)] (by simp)).1,
    hdialogue [] [good]⟩

end Session
end Lox
