import Lox.Proofs.Heap.Evaluate
import Lox.Proofs.Session.Run

/-!
# Steps of a session

What can be done with a session, one action after the other, and what it records
meanwhile.  Between its actions a session can be given native functions by the
program around it.  What a step does to the machine is said here once: it loads a
program and executes it if it compiles, it adds a native function, or it leaves
the machine alone.
-/

namespace Lox

inductive Action where
  | run (n : Nat) (source : String)
  | listTokens (source : String)
  | showTree (source : String)
  | clearError
  | clearRuntimeError
deriving DecidableEq, Repr

namespace Session

def act (s : Session) : Action → Session
  | .run n source => s.run n source
  | .listTokens source => s.listTokens source
  | .showTree source => s.showTree source
  | .clearError => s.clearError
  | .clearRuntimeError => s.clearRuntimeError

/-- The events that a later state of a session has recorded behind those of an earlier one. -/
def since (before behind : Session) : List Event := behind.trace.toList.drop before.trace.size

theorem since_of_trace {s behind : Session} {events : List Event}
    (htrace : behind.trace.toList = s.trace.toList ++ events) : s.since behind = events := by
  rw [since, htrace, ← Array.length_toList, List.drop_left]

end Session

inductive Step where
  | act (action : Action)
  | native (native : Native)

namespace Session

def take (s : Session) : Step → Session
  | .act action => s.act action
  | .native native => { s with machine := s.machine.addNative native }

def takeAll (s : Session) (steps : List Step) : Session := steps.foldl take s

def program? (s : Session) : Step → Option (List Stmt)
  | .act (.run _ source) => if s.flags.error then none else compile source
  | _ => none

def declaredNames (program : List Stmt) : List String :=
  program.filterMap fun s => s.declared?.map Token.lexeme

def grantedBy (s : Session) : Step → List String
  | .native native => [native.name]
  | .act action => ((s.program? (.act action)).map declaredNames).getD []

def granted (s : Session) : List Step → List String
  | [] => []
  | step :: steps => s.grantedBy step ++ (s.take step).granted steps

/-- The machine behind the execution of a program; the printed lines go to the session. -/
def machineAfter (m : Machine) (n : Nat) (program : List Stmt) : Machine :=
  { Eval.state (Eval.interpret n (m.numbered program) (m.load program)) with output := #[] }

theorem still_machineAfter (m : Machine) (n : Nat) (program : List Stmt) :
    (machineAfter m n program).natives = m.natives ∧
      (machineAfter m n program).locals = (m.load program).locals :=
  Eval.still_interpret n (m.numbered program) (m.load program)

/-- What a step does to the machine of a session. -/
inductive Taken (s : Session) : Step → Machine → Prop where
  | native (native : Native) : Taken s (.native native) (s.machine.addNative native)
  | run (n : Nat) {source : String} {program : List Stmt} :
      s.flags.error = false → compile source = some program →
      Taken s (.act (.run n source)) (machineAfter s.machine n program)
  | failed {action : Action} (program : List Stmt) :
      s.program? (.act action) = none → Taken s (.act action) (s.machine.load program)
  | idle {action : Action} :
      s.program? (.act action) = none → Taken s (.act action) s.machine

theorem program?_run {s : Session} {source : String} {program : List Stmt}
    (hflags : s.flags.error = false) (hcompile : compile source = some program) (n : Nat) :
    s.program? (.act (.run n source)) = some program := by
  show (if s.flags.error then none else compile source) = some program
  rw [hflags]
  exact hcompile

theorem grantedBy_run {s : Session} {source : String} {program : List Stmt}
    (hflags : s.flags.error = false) (hcompile : compile source = some program) (n : Nat) :
    s.grantedBy (.act (.run n source)) = declaredNames program := by
  show ((s.program? (.act (.run n source))).map declaredNames).getD [] = _
  rw [program?_run hflags hcompile]
  rfl

theorem machine_listTokens (s : Session) (source : String) :
    (s.listTokens source).machine = s.machine := by
  have hrecord : ∀ (tokens : List Token) (s : Session),
      (tokens.foldl (fun s t => s.record (.printed t.listing)) s).machine = s.machine := by
    intro tokens
    induction tokens with
    | nil => exact fun _ => rfl
    | cons t tokens ih =>
        intro s
        rw [List.foldl_cons, ih]
        rfl
  unfold listTokens
  simp only
  rw [hrecord]
  simp [scanned, recordNote, record, reportAll_eq]

theorem machine_showTree (s : Session) (source : String) :
    (s.showTree source).machine = s.machine := by
  unfold showTree
  simp only
  split
  · simp [scanned, recordNote, record, reportAll_eq]
  · split
    · simp [scanned, recordNote, record, reportAll_eq]
    · simp [scanned, recordNote, record, reportAll_eq]

theorem taken_take (s : Session) (step : Step) : Taken s step (s.take step).machine := by
  cases step with
  | native native => exact .native native
  | act action =>
      cases action with
      | run n source =>
          by_cases hstop : s.flags.error = true ∨ compile source = none
          · have hidle : s.program? (.act (.run n source)) = none := by
              show (if s.flags.error then none else compile source) = none
              split
              · rfl
              · next hflags => exact hstop.resolve_left hflags
            show Taken s (.act (.run n source)) (s.run n source).machine
            rcases machine_run_eq hstop n with hmachine | ⟨program, hmachine⟩
            · rw [hmachine]
              exact .idle hidle
            · rw [hmachine]
              exact .failed program hidle
          · rw [not_or, Bool.not_eq_true] at hstop
            rcases Option.ne_none_iff_exists'.mp hstop.2 with ⟨program, hcompile⟩
            have hmachine : (s.take (.act (.run n source))).machine =
                machineAfter s.machine n program := (executed_run hstop.1 hcompile n).machine
            rw [hmachine]
            exact .run n hstop.1 hcompile
      | listTokens source =>
          have hmachine : (s.take (.act (.listTokens source))).machine = s.machine :=
            machine_listTokens s source
          rw [hmachine]
          exact .idle rfl
      | showTree source =>
          have hmachine : (s.take (.act (.showTree source))).machine = s.machine :=
            machine_showTree s source
          rw [hmachine]
          exact .idle rfl
      | clearError => exact .idle rfl
      | clearRuntimeError => exact .idle rfl

/-- What native functions, loaded programs and their executions keep, a step keeps. -/
theorem holds_take {holds : Machine → Prop}
    (hload : ∀ m program, holds m → holds (m.load program))
    (hrun : ∀ m n source program, compile source = some program → holds m →
      holds (machineAfter m n program)) {s : Session} {step : Step}
    (hnative : ∀ native, step = .native native → holds s.machine →
      holds (s.machine.addNative native))
    (hs : holds s.machine) : holds (s.take step).machine := by
  have htaken := taken_take s step
  generalize (s.take step).machine = m at htaken
  cases htaken with
  | native native => exact hnative native rfl hs
  | run n _ hcompile => exact hrun _ _ _ _ hcompile hs
  | failed program _ => exact hload _ _ hs
  | idle _ => exact hs

theorem holds_takeAll (holds : Machine → Prop) (hinitial : ∀ clock, holds (.initial clock))
    (hload : ∀ m program, holds m → holds (m.load program))
    (hrun : ∀ m n source program, compile source = some program → holds m →
      holds (machineAfter m n program))
    (flags : Flags) (clock : Nat → Number) (steps : List Step)
    (hnative : ∀ m native, .native native ∈ steps → holds m → holds (m.addNative native)) :
    holds ((startWith flags clock).takeAll steps).machine := by
  have htake : ∀ (s : Session), ∀ step ∈ steps, holds s.machine → holds (s.take step).machine := by
    intro s step hstep
    refine holds_take hload hrun ?_
    rintro native rfl
    exact hnative _ _ hstep
  clear hnative
  have hall : ∀ (s : Session), holds s.machine → holds (s.takeAll steps).machine := by
    induction steps with
    | nil => exact fun _ hs => hs
    | cons step steps ih =>
        intro s hs
        have hrest := ih fun s other hother => htake s other (List.mem_cons_of_mem _ hother)
        exact hrest (s.take step) (htake s step List.mem_cons_self hs)
  exact hall _ (hinitial clock)

end Session
end Lox
