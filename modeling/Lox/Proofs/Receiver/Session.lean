import Lox.Proofs.Receiver.Call
import Lox.Proofs.Session.Steps

/-!
# Sessions under the monitor

The record of the functions of a session is kept from run to run.  The main result
is that in every run of a source that compiles, whatever was run before, the monitor
finds no fault.
-/

namespace Lox

namespace Monitor

def final : EStateM.Result Halt Monitored α → Monitored
  | .ok _ σ => σ
  | .error _ σ => σ

/-- The result of plain evaluation, with a record of the functions. -/
def carry (origins : Array Provenance) :
    EStateM.Result Stop Machine α → EStateM.Result Halt Monitored α
  | .ok value m => .ok value ⟨m, origins⟩
  | .error stop m => .error (.stop stop) ⟨m, origins⟩

theorem origins_final_carry (origins : Array Provenance) (result : EStateM.Result Stop Machine α) :
    (final (carry origins result)).origins = origins := by
  cases result <;> rfl

end Monitor

namespace Session

/-- The record behind a step; a program is executed under the monitor. -/
def originsAfter (s : Session) (origins : Array Provenance) : Step → Array Provenance
  | .act (.run n source) =>
      match s.program? (.act (.run n source)) with
      | some program =>
          (Monitor.final (Monitor.interpret n (s.machine.numbered program)
            ⟨s.machine.load program, origins⟩)).origins
      | none => origins
  | _ => origins

def originsAll (s : Session) (origins : Array Provenance) : List Step → Array Provenance
  | [] => origins
  | step :: steps => (s.take step).originsAll (s.originsAfter origins step) steps

end Session

namespace Lexical

variable {l : Locals} {allowed : String → Prop} {sc : Scene}

/-!
# Machines between two runs
-/

def Composed (allowed : String → Prop) (m : Machine) (origins : Array Provenance) : Prop :=
  ∃ kinds, Fits m.locals allowed ⟨kinds, m, origins⟩ ∧ Here (Stage.twice kinds m) []

theorem composed_initial (clock : Nat → Number) :
    Composed (· = "clock") (.initial clock) #[] := by
  rcases (settled_initial clock).related (fun _ _ => True) (fun _ => True)
    (fun _ _ => trivial) with ⟨kinds, hrelated, hhere⟩
  have hnone : ∀ {α : Type} {a : α} {i : Nat}, (#[] : Array α)[i]? = some a → False := by
    intro α a i hsome
    simp at hsome
  refine ⟨kinds, ?_, hhere⟩
  constructor
  · exact hrelated
  · rfl
  · intro name hname
    change Bindings.binds [("clock", .native 0)] name = true at hname
    unfold Bindings.binds at hname
    rw [Bindings.get?_cons] at hname
    by_cases hclock : name = "clock"
    · exact hclock
    · rw [if_neg hclock] at hname
      cases hname
  · rfl
  · exact fun f closure hclosure => (hnone hclosure).elim
  · exact fun f closure hclosure => (hnone hclosure).elim
  · exact fun f closure hclosure => (hnone hclosure).elim
  · exact fun c cls hcls => (hnone hcls).elim

theorem Composed.imp {allowed' : String → Prop} {m : Machine} {origins : Array Provenance}
    (hcomposed : Composed allowed m origins) (himp : ∀ name, allowed name → allowed' name) :
    Composed allowed' m origins := by
  rcases hcomposed with ⟨kinds, hfits, hhere⟩
  exact ⟨kinds, { hfits with named := fun name hname => himp name (hfits.named name hname) }, hhere⟩

/-!
# Native functions
-/

theorem Related.withNatives {sides : Sides} {st : Stage} (hrelated : Related sides st)
    {natives : Array Native} (hplain : ∀ native ∈ natives, native.Plain sides.stops) :
    Related sides { st with
      left := { st.left with natives }
      right := { st.right with natives } } := by
  have hextends : Extends st { st with
      left := { st.left with natives }
      right := { st.right with natives } } := { Extends.refl st with }
  exact { hrelated with
    environments := hrelated.environments_mono hextends rfl rfl rfl
    methods := hrelated.methods_mono hextends rfl
    fields := hrelated.fields_mono hextends rfl
    natives := rfl
    plain := hplain }

theorem Composed.addNative {m : Machine} {origins : Array Provenance}
    (hcomposed : Composed allowed m origins) {native : Native}
    (hplain : native.Plain fun _ => True) (hname : allowed native.name) :
    Composed allowed (m.addNative native) origins := by
  rcases hcomposed with ⟨kinds, hfits, hhere⟩
  let value : Value := .native m.natives.size
  let st := Stage.twice kinds m
  have hkind : st.kinds Machine.globals = .names .same := hfits.related.globals
  have hsound : Sound (anyTokens m.locals)
      (st.define Machine.globals native.name native.name value) value :=
    sound_of_not_function fun _ => Value.noConfusion
  have hnatives : ∀ other ∈ m.natives.push native, other.Plain fun _ => True := by
    intro other hother
    rcases Array.mem_push.mp hother with hold | rfl
    · exact hfits.related.plain other hold
    · exact hplain
  have hrelated : Related (anyTokens m.locals) (Stage.twice kinds (m.addNative native)) :=
    (hfits.related.define hkind rfl hsound).withNatives hnatives
  have hgrows : Grows st (Stage.twice kinds (m.addNative native)) :=
    { grows_define hkind native.name native.name value with }
  let sc₁ : Scene := ⟨kinds, m.addNative native, origins⟩
  have hlater : Later ⟨kinds, m, origins⟩ sc₁ := ⟨hgrows, Nat.le_refl _, fun _ _ => rfl⟩
  refine ⟨kinds, ?_, hhere.mono hgrows⟩
  apply hfits.later hlater hrelated
  · exact named_define value hfits.named fun _ => hname
  · rfl
  · rfl
  · rfl

/-!
# Runs
-/

theorem Fits.withOutput (hfits : Fits l allowed sc) (output : Array String) :
    Fits l allowed { sc with machine := { sc.machine with output } } := by
  let sc₁ : Scene := { sc with machine := { sc.machine with output } }
  have hgrows : Grows sc.stage sc₁.stage := { Grows.refl sc.stage with }
  have hlater : Later sc sc₁ := ⟨hgrows, Nat.le_refl _, fun _ _ => rfl⟩
  have houtput : output = #[] ++ output := by simp
  exact hfits.later hlater (hfits.related.withOutput houtput) hfits.named rfl rfl rfl

theorem composed_of_fits {m : Machine} {origins : Array Provenance} {kinds : EnvId → EnvKind}
    (hhere : Here (Stage.twice kinds m) []) (hlater : Later ⟨kinds, m, origins⟩ sc)
    (hfits : Fits sc.machine.locals allowed sc) :
    Composed allowed { sc.machine with output := #[] } sc.origins :=
  ⟨sc.kinds, hfits.withOutput #[], (hhere.mono hlater.grows : Here sc.stage [])⟩

theorem Composed.load {m : Machine} {origins : Array Provenance}
    (hcomposed : Composed allowed m origins) (program : List Stmt) :
    Composed allowed (m.load program) origins := by
  rcases hcomposed with ⟨kinds, hfits, hhere⟩
  let sc₁ : Scene := ⟨kinds, m.load program, origins⟩
  have hgrows : Grows (Stage.twice kinds m) sc₁.stage := { Grows.refl (Stage.twice kinds m) with }
  have hlater : Later ⟨kinds, m, origins⟩ sc₁ := ⟨hgrows, Nat.le_refl _, fun _ _ => rfl⟩
  have hrelated := hfits.related.load program program
  exact ⟨kinds, hfits.later hlater hrelated hfits.named rfl rfl rfl, hhere.mono hgrows⟩

theorem declaredNames_allNumbered (k : NodeId) (program : List Stmt) :
    Session.declaredNames (Stmt.allNumbered k program) = Session.declaredNames program := by
  induction program generalizing k with
  | nil => rfl
  | cons s program ih =>
      have hrest := ih (k + s.places)
      unfold Session.declaredNames at hrest ⊢
      rw [Stmt.allNumbered, List.filterMap_cons, List.filterMap_cons, hrest,
        Binding.declared?_numbered]

theorem Composed.interpret {m : Machine} {origins : Array Provenance}
    (hcomposed : Composed allowed m origins) {source : String} {program : List Stmt}
    (hcompile : compile source = some program)
    (hallowed : ∀ name ∈ Session.declaredNames program, allowed name) (n : Nat) :
    let result := Eval.interpret n (m.numbered program) (m.load program)
    ∃ origins', Monitor.interpret n (m.numbered program) ⟨m.load program, origins⟩ =
        Monitor.carry origins' result ∧
      Composed allowed (Session.machineAfter m n program) origins' ∧
      ∀ completion m', result = .ok completion m' → completion = .normal := by
  rcases hcomposed.load program with ⟨kinds, hfits, hhere⟩
  have halike : AlikeStmts (anyTokens (m.load program).locals) false [] (m.numbered program)
      (m.numbered program) := alike_self hcompile (fun _ _ => trivial) m m
  have hpermits : Permits allowed [] (m.numbered program) := by
    intro _ s hs name hname
    apply hallowed
    rw [← declaredNames_allNumbered m.locals.size]
    apply List.mem_filterMap.mpr
    exact ⟨s, hs, by rw [hname]; rfl⟩
  let sc : Scene := ⟨kinds, m.load program, origins⟩
  have hstart : Here sc.stage [] := hhere
  have hends := follows_interpret n hstart halike hpermits hfits
  have hlocals := (Eval.still_interpret n (m.numbered program) (m.load program)).2
  change Concludes _ _ _ _ (Eval.interpret n (m.numbered program) (m.load program))
    (Monitor.interpret n (m.numbered program) ⟨m.load program, origins⟩) at hends
  rw [← hlocals] at hends
  unfold Session.machineAfter
  generalize Eval.interpret n (m.numbered program) (m.load program) = result at hends ⊢
  generalize Monitor.interpret n (m.numbered program) ⟨m.load program, origins⟩ = result'
    at hends ⊢
  cases hends with
  | @ok sc₁ _ hlater hfits₁ hnormal =>
      refine ⟨sc₁.origins, rfl, composed_of_fits hhere hlater hfits₁, ?_⟩
      intro completion m' hresult
      injection hresult with hcompletion
      exact hcompletion ▸ hnormal
  | @error sc₁ _ hlater hfits₁ =>
      refine ⟨sc₁.origins, rfl, composed_of_fits hhere hlater hfits₁, ?_⟩
      intro completion m' hresult
      cases hresult

theorem Composed.take {s : Session} {origins : Array Provenance}
    (hcomposed : Composed allowed s.machine origins) {step : Step}
    (hplain : ∀ native, step = .native native → native.Plain fun _ => True)
    (hallowed : ∀ name ∈ s.grantedBy step, allowed name) :
    Composed allowed (s.take step).machine (s.originsAfter origins step) := by
  have htaken := Session.taken_take s step
  -- a step that executes nothing leaves the record as it is
  have hsame : ∀ action, s.program? (.act action) = none →
      s.originsAfter origins (.act action) = origins := by
    intro action hidle
    unfold Session.originsAfter
    cases action with
    | run n source => simp only [hidle]
    | _ => rfl
  generalize (s.take step).machine = m at htaken ⊢
  cases htaken with
  | native native =>
      exact hcomposed.addNative (hplain native rfl) (hallowed native.name List.mem_cons_self)
  | @run n source program hflags hcompile =>
      have hprogram := Session.program?_run hflags hcompile n
      rw [Session.grantedBy_run hflags hcompile] at hallowed
      rcases hcomposed.interpret hcompile hallowed n with ⟨origins', hsame, hcomposed', _⟩
      have horigins : s.originsAfter origins (.act (.run n source)) = origins' := by
        unfold Session.originsAfter
        simp only [hprogram, hsame]
        exact Monitor.origins_final_carry _ _
      rw [horigins]
      exact hcomposed'
  | failed program hidle =>
      rw [hsame _ hidle]
      exact hcomposed.load program
  | idle hidle =>
      rw [hsame _ hidle]
      exact hcomposed

theorem Composed.takeAll {s : Session} {origins : Array Provenance}
    (hcomposed : Composed allowed s.machine origins) {steps : List Step}
    (hplain : ∀ native, .native native ∈ steps → native.Plain fun _ => True)
    (hallowed : ∀ name ∈ s.granted steps, allowed name) :
    Composed allowed (s.takeAll steps).machine (s.originsAll origins steps) := by
  induction steps generalizing s origins with
  | nil => exact hcomposed
  | cons step steps ih =>
      unfold Session.granted at hallowed
      have hstep := hcomposed.take
        (fun native hnative => hplain native (hnative ▸ List.mem_cons_self))
        fun name hname => hallowed name (List.mem_append_left _ hname)
      exact ih hstep (fun native hnative => hplain native (List.mem_cons_of_mem _ hnative))
        fun name hname => hallowed name (List.mem_append_right _ hname)

end Lexical

/--
The meaning of `this`, `super` and `init`.  After any steps of a session, a source that
compiles is executed under the monitor exactly as it is without: with the same machine
at the end, and without a violation.

So whenever `this` is evaluated its value is the instance to which the method around it
was bound, also in functions inside the method that are called later.  Whenever a method
of `super` is evaluated it is looked up from the class that the superclass clause around
it denoted when the class was declared, and bound to the same instance.  Every call of a
bound initialiser that ends gives its receiver, and every call of a class the instance
that it made.
-/
theorem Session.bonds_respected (flags : Flags) (clock : Nat → Number) (steps : List Step)
    (hnatives : ∀ native, .native native ∈ steps → native.Plain fun _ => True)
    {source : String} {program : List Stmt} (hcompile : compile source = some program) (n : Nat) :
    let start := startWith flags clock
    let m := (start.takeAll steps).machine
    ∃ origins, Monitor.interpret n (m.numbered program)
        ⟨m.load program, start.originsAll #[] steps⟩ =
      Monitor.carry origins (Eval.interpret n (m.numbered program) (m.load program)) := by
  have hinitial : Lexical.Composed (fun _ => True) (startWith flags clock).machine #[] :=
    (Lexical.composed_initial clock).imp fun _ _ => trivial
  have hcomposed := hinitial.takeAll hnatives fun _ _ => trivial
  rcases hcomposed.interpret hcompile (fun _ _ => trivial) n with ⟨origins, hsame, _⟩
  exact ⟨origins, hsame⟩

/-- A function inside a method is called after the name of the superclass was bound anew. -/
theorem Session.bonds_respected_rebound :
    let steps : List Step := [
      .native .clock,
      .act (.run 40 "class A { m() { return this; } }"),
      .act (.run 40 "class B < A { init(x) { this.x = x; return; } m() { return super.m(); } }"),
      .act (.run 40 "class C < B { m() { fun f() { return super.m(); } return f; } }"),
      .act (.run 40 "var f = C(1).m(); A = nil; B = nil;")]
    let start := startWith {} (steadyClock 0)
    let m := (start.takeAll steps).machine
    ∃ program, compile "print f().x; print C(2).init(3).x;" = some program ∧
      ∃ origins, Monitor.interpret 40 (m.numbered program)
          ⟨m.load program, start.originsAll #[] steps⟩ =
        Monitor.carry origins (Eval.interpret 40 (m.numbered program) (m.load program)) := by
  intro steps start m
  have hcompiles : (compile "print f().x; print C(2).init(3).x;").isSome = true := by
    decide +kernel
  rcases Option.isSome_iff_exists.mp hcompiles with ⟨program, hcompile⟩
  have hnatives : ∀ native, .native native ∈ steps → native.Plain fun _ => True := by
    intro native hnative
    have hclock : native = .clock := by simpa [steps] using hnative
    rw [hclock]
    exact Native.plain_clock _
  exact ⟨program, hcompile, bonds_respected {} (steadyClock 0) steps hnatives hcompile 40⟩

/-- The monitor does look: without the entry for the method `m` the run does not get to its end. -/
example :
    let s := (Session.startWith {} (steadyClock 0)).run 20 "class A { m() { return this; } }"
    let ends (origins : Array Provenance) : Option Bool :=
      (compile "A().m();").map fun program =>
        (EStateM.run' (Monitor.interpret 20 (s.machine.numbered program))
          ⟨s.machine.load program, origins⟩).isSome
    ends #[{ isMethod := true }] = some true ∧ ends #[] = some false := by
  decide +kernel

end Lox
