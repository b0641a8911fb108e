import Lox.Proofs.Heap.Chains
import Lox.Proofs.Receiver.Session

/-!
# The names of the globals

Which names are bound among the globals of a session can be read off the texts of
its runs: they are those of the native functions and of the declarations outside of
all blocks, functions and classes.  No binding goes away, and an assignment never
makes one.
-/

namespace Lox

/-!
# Names stay bound
-/

def Environments.HoldsGlobals (names : String → Prop) (s : Environments) : Prop :=
  Machine.globals < s.size ∧ ∀ name, names name → (s.values Machine.globals).binds name = true

namespace Environments

variable {names : String → Prop} {s : Environments}

theorem HoldsGlobals.create (hs : s.HoldsGlobals names) (e : EnvId) (values : Bindings) :
    (s.create (some e) values).HoldsGlobals names := by
  rcases hs with ⟨hglobals, hbinds⟩
  constructor
  · rw [size_create]
    exact Nat.lt_succ_of_lt hglobals
  · intro name hname
    rw [values_create, if_neg (Nat.ne_of_lt hglobals)]
    exact hbinds name hname

theorem HoldsGlobals.define (hs : s.HoldsGlobals names) (e : EnvId) (name : String)
    (value : Value) : (s.define e name value).HoldsGlobals names := by
  rcases hs with ⟨hglobals, hbinds⟩
  constructor
  · rw [size_define]
    exact hglobals
  · exact fun other hother => binds_define s e Machine.globals (hbinds other hother)

end Environments

namespace Machine

def Plain (m : Machine) : Prop := ∀ native ∈ m.natives, native.Plain fun _ => True

/-- The discipline that keeps some names bound; all cells are known. -/
def holding (names : String → Prop) : Discipline where
  fits m := m.environments.HoldsGlobals names ∧ m.Plain
  knows _ _ := True

theorem holding_kept (names : String → Prop) : (holding names).Kept := by
  have hadvances : ∀ {m m' : Machine}, (holding names).fits m →
      m'.environments.HoldsGlobals names → m'.natives = m.natives →
      (holding names).Advances m m' := by
    intro m m' hm hholds hnatives
    refine ⟨⟨hholds, ?_⟩, fun _ _ => trivial⟩
    unfold Plain
    rw [hnatives]
    exact hm.2
  constructor
  · exact fun _ => trivial
  · exact fun _ _ _ _ _ => trivial
  · exact fun hm hsame hnatives _ => hadvances hm (hsame.environments ▸ hm.1) hnatives
  · intro m native arguments hm hnative _
    obtain ⟨readings, hsame⟩ := (hm.2 native hnative).leaves arguments m.toHeap
    have hholds : (Eval.state (native.action arguments m.toHeap)).environments.HoldsGlobals
        names := by
      rw [hsame]
      exact hm.1
    cases haction : native.action arguments m.toHeap with
    | ok value heap =>
        rw [haction] at hholds
        exact ⟨hadvances hm hholds rfl, fun _ _ => trivial⟩
    | error stop heap =>
        rw [haction] at hholds
        exact hadvances hm hholds rfl
  · exact fun hm _ _ => ⟨hadvances hm (hm.1.create _ _) rfl, trivial⟩
  · exact fun hm _ _ => hadvances hm (hm.1.define _ _ _) rfl
  · exact fun hm _ => ⟨hadvances hm hm.1 rfl, trivial⟩
  · exact fun hm _ _ => ⟨hadvances hm hm.1 rfl, trivial⟩
  · exact fun hm _ => ⟨hadvances hm hm.1 rfl, trivial⟩
  · exact fun hm _ _ => hadvances hm hm.1 rfl

variable {m : Machine}

theorem ready_holding (hplain : m.Plain) {name : String} (hname : m.bindsGlobal name = true) :
    (holding (· = name)).Ready m := by
  refine ⟨⟨⟨Environments.lt_size_of_binds hname, ?_⟩, hplain⟩, trivial⟩
  rintro _ rfl
  exact hname

theorem bindsGlobal_interpret (hplain : m.Plain) (n : Nat) (program : List Stmt) {name : String}
    (hname : m.bindsGlobal name = true) :
    (Eval.state (Eval.interpret n program m)).bindsGlobal name = true :=
  (Eval.ready_interpret (holding_kept _) n program (ready_holding hplain hname)).fits.1.2 name rfl

end Machine

namespace Session

theorem bindsGlobal_takeAll {s : Session} (hplain : s.machine.Plain) {name : String}
    (hname : s.machine.bindsGlobal name = true) {steps : List Step}
    (hnatives : ∀ native, .native native ∈ steps → native.Plain fun _ => True) :
    (s.takeAll steps).machine.bindsGlobal name = true := by
  induction steps generalizing s with
  | nil => exact hname
  | cons step steps ih =>
      have hplain₁ : (s.take step).machine.Plain := by
        intro native hnative
        rcases natives_take s step hnative with hold | rfl
        · exact hplain native hold
        · exact hnatives native List.mem_cons_self
      refine ih hplain₁ ?_ fun native hnative => hnatives native (List.mem_cons_of_mem _ hnative)
      have htaken := taken_take s step
      generalize (s.take step).machine = m at htaken ⊢
      cases htaken with
      | native native => exact Environments.binds_define _ _ _ hname
      | @run n _ program _ _ =>
          have hload : (s.machine.load program).Plain := hplain
          exact Machine.bindsGlobal_interpret hload n _ hname
      | failed _ _ => exact hname
      | idle _ => exact hname

end Session

/-!
# Declarations bind their names
-/

namespace Eval

abbrev rooted : Discipline := Machine.holding fun _ => False

theorem rooted_kept : rooted.Kept := Machine.holding_kept _

variable {m : Machine}

theorem bindsGlobal_of_defineHere {name : String} {value : Value} {done : Unit} {m' : Machine}
    (hdefine : defineHere name value m = .ok done m')
    (hglobals : Machine.globals < m.environments.size)
    (hcurrent : m.current = Machine.globals) : m'.bindsGlobal name = true := by
  cases hdefine
  show (Environments.values (m.environments.define m.current name value) _).binds name = true
  rw [hcurrent]
  exact Environments.binds_define_self _ _ value hglobals

theorem bindsGlobal_of_assignFrom {name : Token} {value : Value} {done : Unit} {m' : Machine}
    (hassign : assignFrom Machine.globals name value m = .ok done m') :
    m'.bindsGlobal name.lexeme = true := by
  unfold assignFrom Environments.assign Environments.assign? at hassign
  rw [Environments.holder?_globals] at hassign
  cases hbinds : (m.environments.values Machine.globals).binds name.lexeme with
  | false =>
      rw [hbinds] at hassign
      cases hassign
  | true =>
      rw [hbinds] at hassign
      cases hassign
      exact Environments.binds_define _ _ _ hbinds

/-- The last step of a class declaration is an assignment in the environment around it. -/
theorem bindsGlobal_of_declareClass {n : Nat} {name : Token} {parent : Option Reference}
    {methods : List Function} {done : Unit} {m' : Machine}
    (hcurrent : m.current = Machine.globals)
    (hclass : declareClass (evaluate n) name parent methods m = .ok done m') :
    m'.bindsGlobal name.lexeme = true := by
  have hback : m'.current = m.current :=
    current_of_ok (restores_declareClass (restores_evaluate n) name parent methods) hclass
  rw [declareClass_eq] at hclass
  obtain ⟨_, m₁, _, hclass⟩ := exists_of_bind_ok hclass
  obtain ⟨_, m₂, _, hclass⟩ := exists_of_bind_ok hclass
  obtain ⟨_, m₃, _, hclass⟩ := exists_of_bind_ok hclass
  obtain ⟨_, m₄, _, hclass⟩ := exists_of_bind_ok hclass
  obtain ⟨c, m₅, _, hassign⟩ := exists_of_bind_ok hclass
  change assignFrom m₅.current name (.cls c) m₅ = .ok done m' at hassign
  have hplace : m'.current = m₅.current := current_of_ok (restores_assignFrom _ _ _) hassign
  rw [← hplace, hback, hcurrent] at hassign
  exact bindsGlobal_of_assignFrom hassign

theorem bindsGlobal_of_execute {n : Nat} {s : Stmt} {name : Token} {completion : Completion}
    {m' : Machine} (hname : s.declared? = some name) (hm : rooted.fits m)
    (hcurrent : m.current = Machine.globals) (hrun : execute n s m = .ok completion m') :
    m'.bindsGlobal name.lexeme = true := by
  cases n with
  | zero => cases hrun
  | succ n =>
      rw [execute] at hrun
      cases s with
      | varDecl name' initial =>
          cases hname
          have hevaluate : EvaluateTracks rooted (evaluate n) (evaluate n) :=
            fun m e hm => ((keeps_evaluation rooted_kept n).1 m e hm).tracks
          obtain ⟨value, m₁, hvalue, hrest⟩ := exists_of_bind_ok hrun
          obtain ⟨_, m₂, hdefine, hrest⟩ := exists_of_bind_ok hrest
          cases hrest
          have hlater := (tracks_optional hevaluate ⟨hm, trivial⟩ initial).keeps.later
          rw [hvalue] at hlater
          have hplace : m₁.current = m.current :=
            current_of_ok (restores_optional (restores_evaluate n) initial) hvalue
          exact bindsGlobal_of_defineHere hdefine hlater.fits.1.1 (hplace.trans hcurrent)
      | funDecl f =>
          cases hname
          obtain ⟨_, _, hget, hrest⟩ := exists_of_bind_ok hrun
          obtain ⟨id, m₁, hnew, hrest⟩ := exists_of_bind_ok hrest
          obtain ⟨_, m₂, hdefine, hrest⟩ := exists_of_bind_ok hrest
          cases hrest
          cases hnew
          cases hget
          exact bindsGlobal_of_defineHere hdefine hm.1.1 hcurrent
      | classDecl name' parent methods =>
          cases hname
          obtain ⟨_, m₁, hclass, hrest⟩ := exists_of_bind_ok hrun
          cases hrest
          exact bindsGlobal_of_declareClass hcurrent hclass
      | _ => cases hname

/-- What is declared by the statements of a program is bound when all of them have ended. -/
theorem bindsGlobal_of_interpret {n : Nat} {program : List Stmt} {m' : Machine}
    (hm : rooted.fits m) (hcurrent : m.current = Machine.globals)
    (hrun : interpret n program m = .ok .normal m') {name : String}
    (hname : name ∈ Session.declaredNames program) : m'.bindsGlobal name = true := by
  induction program generalizing m with
  | nil => cases hname
  | cons s ss ih =>
      have hready : rooted.Ready m := ⟨hm, trivial⟩
      have hends : Ends rooted m _ (execute n s m) :=
        (keeps_evaluation rooted_kept n).2.1 m s hready
      change EStateM.bind (execute n s) _ m = _ at hrun
      unfold EStateM.bind at hrun
      cases hfirst : execute n s m with
      | error stop m₁ =>
          rw [hfirst] at hrun
          cases hrun
      | ok completion m₁ =>
          rw [hfirst] at hrun hends
          cases completion with
          | returned value => cases hrun
          | normal =>
              change interpret n ss m₁ = .ok .normal m' at hrun
              rcases List.mem_filterMap.mp hname with ⟨t, ht, hdeclared⟩
              rcases List.mem_cons.mp ht with rfl | ht
              · rcases Option.map_eq_some_iff.mp hdeclared with ⟨token, htoken, rfl⟩
                have hbound := bindsGlobal_of_execute htoken hm hcurrent hfirst
                have hkept := Machine.bindsGlobal_interpret hends.1.fits.2 n ss hbound
                rw [hrun] at hkept
                exact hkept
              · exact ih hends.1.fits ((current_execute_of_ok hfirst).trans hcurrent) hrun
                  (List.mem_filterMap.mpr ⟨t, ht, hdeclared⟩)

/-!
# Assignments
-/

theorem assign_undefined {n : Nat} {target : Reference} {value : Expr} {v : Value} {m' : Machine}
    (hvalue : evaluate n value m = .ok v m') (hglobal : m.locals.depth? target.node = none)
    (hname : m'.bindsGlobal target.name.lexeme = false) :
    evaluate (n + 1) (.assign target value) m =
      .error (.error ⟨target.name, .undefinedVariable target.name.lexeme⟩) m' := by
  have hstill := ((keeps_evaluation (Discipline.still_kept m.natives m.locals) n).1 m value
    ⟨⟨rfl, rfl⟩, trivial⟩).later.fits
  rw [hvalue] at hstill
  have hdepth : m'.locals.depth? target.node = none := by
    rw [show m'.locals = m.locals from hstill.2]
    exact hglobal
  have hassign : assign target v m' =
      .error (.error ⟨target.name, .undefinedVariable target.name.lexeme⟩) m' := by
    unfold Machine.bindsGlobal at hname
    rw [assign, get_bind, hdepth]
    show assignFrom Machine.globals target.name v m' = _
    unfold assignFrom Environments.assign Environments.assign?
    rw [Environments.holder?_globals, hname]
    rfl
  rw [evaluate]
  show (evaluate n value >>= _) m = _
  rw [bind_of_ok hvalue]
  show EStateM.bind (assign target v) _ m' = _
  rw [EStateM.bind, hassign]

end Eval

/-!
# The globals of a session
-/

namespace Lexical

variable {allowed : String → Prop} {m : Machine} {origins : Array Provenance}

theorem Composed.bindsGlobal (hcomposed : Composed allowed m origins) {name : String}
    (hname : m.bindsGlobal name = true) : allowed name := by
  rcases hcomposed with ⟨kinds, hfits, _⟩
  exact hfits.named name hname

theorem Composed.plain (hcomposed : Composed allowed m origins) : m.Plain := by
  rcases hcomposed with ⟨kinds, hfits, _⟩
  exact hfits.related.plain

/-- The names that are allowed can be taken to be those that are bound. -/
theorem Composed.exact (hcomposed : Composed allowed m origins) :
    Composed (fun name => m.bindsGlobal name = true) m origins := by
  rcases hcomposed with ⟨kinds, hfits, hhere⟩
  exact ⟨kinds, { hfits with named := fun _ hname => hname }, hhere⟩

/-- A program that ends binds what was bound before and what it declares. -/
theorem Composed.bindsGlobal_interpret (hcomposed : Composed allowed m origins) {source : String}
    {program : List Stmt} (hcompile : compile source = some program) {n : Nat}
    {completion : Completion} {m' : Machine}
    (hrun : Eval.interpret n (m.numbered program) (m.load program) = .ok completion m')
    (name : String) :
    m'.bindsGlobal name = true ↔
      m.bindsGlobal name = true ∨ name ∈ Session.declaredNames program := by
  have hstart : Composed
      (fun name => m.bindsGlobal name = true ∨ name ∈ Session.declaredNames program) m origins :=
    hcomposed.exact.imp fun _ => Or.inl
  rcases hstart.interpret hcompile (fun _ => Or.inr) n with ⟨_, _, hafter, hnormal⟩
  constructor
  · intro hname
    apply hafter.bindsGlobal
    unfold Session.machineAfter
    rw [hrun]
    exact hname
  · intro hname
    rcases hname with hold | hnew
    · have hload : (m.load program).Plain := hcomposed.plain
      have hkept := Machine.bindsGlobal_interpret hload n (m.numbered program) hold
      rw [hrun] at hkept
      exact hkept
    · have hplain := hcomposed.plain
      rcases hcomposed with ⟨kinds, hfits, hhere⟩
      have hrooted : Eval.rooted.fits (m.load program) :=
        ⟨⟨hfits.related.globals_lt, fun _ hname => hname.elim⟩, hplain⟩
      rw [← declaredNames_allNumbered m.locals.size] at hnew
      rw [hnormal completion m' hrun] at hrun
      exact Eval.bindsGlobal_of_interpret hrooted hhere.1 hrun hnew

end Lexical

namespace Session

theorem composed_takeAll (flags : Flags) (clock : Nat → Number) {steps : List Step}
    (hnatives : ∀ native, .native native ∈ steps → native.Plain fun _ => True) :
    Lexical.Composed (fun name => name = "clock" ∨ name ∈ (startWith flags clock).granted steps)
      ((startWith flags clock).takeAll steps).machine
      ((startWith flags clock).originsAll #[] steps) := by
  refine Lexical.Composed.takeAll ?_ hnatives fun _ => Or.inr
  exact (Lexical.composed_initial clock).imp fun _ => Or.inl

/--
Locals never get among the globals.  After any steps of a session, each bound global is
`clock`, a native function that was added, or declared at the top level of a source that was
executed.  It stays bound, during a run, whatever is known of the nodes of its program, and
behind any further steps.  A source that compiles and ends without an error binds in addition
exactly the names that it declares at the top level.  An assignment to a name that is neither
that of a local nor bound among the globals is an error and changes nothing.
-/
theorem globals_declared (flags : Flags) (clock : Nat → Number) (steps : List Step)
    (hnatives : ∀ native, .native native ∈ steps → native.Plain fun _ => True) :
    let start := startWith flags clock
    let s := start.takeAll steps
    (∀ name, s.machine.bindsGlobal name = true →
      (name = "clock" ∨ name ∈ start.granted steps) ∧
        (∀ n program locals, Eval.Throughout (fun m => m.bindsGlobal name = true) n program
          { s.machine with locals }) ∧
        ∀ more, (∀ native, .native native ∈ more → native.Plain fun _ => True) →
          (s.takeAll more).machine.bindsGlobal name = true) ∧
      (∀ n source program completion m', s.flags.error = false → compile source = some program →
        Eval.interpret n (s.machine.numbered program) (s.machine.load program) =
          .ok completion m' →
        ∀ name, (s.take (.act (.run n source))).machine.bindsGlobal name = true ↔
          s.machine.bindsGlobal name = true ∨ name ∈ declaredNames program) ∧
      ∀ n (target : Reference) value m v m', Eval.evaluate n value m = .ok v m' →
        m.locals.depth? target.node = none → m'.bindsGlobal target.name.lexeme = false →
        Eval.evaluate (n + 1) (.assign target value) m =
            .error (.error ⟨target.name, .undefinedVariable target.name.lexeme⟩) m' ∧
          (RuntimeCause.undefinedVariable target.name.lexeme).message =
            "Undefined variable '" ++ target.name.lexeme ++ "'." := by
  intro start s
  have hcomposed := composed_takeAll flags clock hnatives
  refine ⟨?_, ?_, ?_⟩
  · intro name hname
    refine ⟨hcomposed.bindsGlobal hname, ?_, fun more => bindsGlobal_takeAll hcomposed.plain hname⟩
    intro n program locals
    have hplain : Machine.Plain { s.machine with locals } := hcomposed.plain
    exact Eval.throughout_of_kept (Machine.holding_kept (· = name))
      (fun m hm => hm.fits.1.2 name rfl) n program (Machine.ready_holding hplain hname)
  · intro n source program completion m' hflags hcompile hrun name
    have hmachine : (s.take (.act (.run n source))).machine = machineAfter s.machine n program :=
      (executed_run hflags hcompile n).machine
    rw [hmachine, machineAfter, hrun]
    exact hcomposed.bindsGlobal_interpret hcompile hrun name
  · intro n target value m v m' hvalue hglobal hname
    exact ⟨Eval.assign_undefined hvalue hglobal hname, rfl⟩

/-- The names of a block, of a parameter and of a loop are not among the globals. -/
theorem globals_declared_block :
    let start := startWith {} (steadyClock 0)
    let steps : List Step := [.native .twice, .act (.run 20 "var a = true;")]
    let source := "{ var b = a; } fun f(c) { var d; } for (var i = a; i; i = nil) {}"
    let s := start.takeAll steps
    let b : Reference := ⟨⟨.identifier, "b", .nil, 1⟩, s.machine.locals.size⟩
    (∀ more, (∀ native, .native native ∈ more → native.Plain fun _ => True) →
        (s.takeAll more).machine.bindsGlobal "twice" = true) ∧
      (∃ program completion m', compile source = some program ∧
        Eval.interpret 20 (s.machine.numbered program) (s.machine.load program) =
          .ok completion m' ∧
        ∀ name, (s.take (.act (.run 20 source))).machine.bindsGlobal name = true ↔
          s.machine.bindsGlobal name = true ∨ name ∈ declaredNames program) ∧
      Eval.evaluate 2 (.assign b (.literal .nil)) s.machine =
        .error (.error ⟨b.name, .undefinedVariable "b"⟩) s.machine := by
  intro start steps source s b
  have hnatives : ∀ native, .native native ∈ steps → native.Plain fun _ => True := by
    intro native hnative
    have htwice : native = .twice := by simpa [steps] using hnative
    rw [htwice]
    exact Native.plain_twice
  have hdeclared := globals_declared {} (steadyClock 0) steps hnatives
  have htwice : s.machine.bindsGlobal "twice" = true := by decide +kernel
  have hflags : s.flags.error = false := by decide +kernel
  have hunbound : s.machine.bindsGlobal "b" = false := by decide +kernel
  have hglobal : s.machine.locals.depth? b.node = none := by decide +kernel
  have hends : ((compile source).map fun program =>
      (EStateM.run' (Eval.interpret 20 (s.machine.numbered program))
        (s.machine.load program)).isSome) = some true := by decide +kernel
  refine ⟨(hdeclared.1 "twice" htwice).2.2, ?_, (hdeclared.2.2 1 b _ _ _ _ rfl hglobal hunbound).1⟩
  rcases Option.map_eq_some_iff.mp hends with ⟨program, hcompile, hsome⟩
  cases hrun : Eval.interpret 20 (s.machine.numbered program) (s.machine.load program) with
  | ok completion m' =>
      exact ⟨program, completion, m', hcompile, hrun, hdeclared.2.1 20 source program completion m'
        hflags hcompile hrun⟩
  | error stop m' =>
      unfold EStateM.run' EStateM.run at hsome
      rw [hrun] at hsome
      cases hsome

end Session
end Lox
