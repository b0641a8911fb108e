import Lox.Proofs.Heap.Store
import Lox.Proofs.Receiver.Scene

/-!
# Single steps of plain and monitored evaluation

What one step does to a scene.  Most steps are the same in plain and in monitored
evaluation; those that make functions record their origins in addition.
-/

namespace Lox
namespace Lexical

variable {l : Locals} {allowed : String → Prop} {sc sc₁ : Scene} {bond : Bond} {Γ : List Frame}

structure At (sc : Scene) (bond : Bond) (Γ : List Frame) : Prop where
  here : Here sc.stage Γ
  tied : Tied sc bond sc.machine.current

theorem At.later (hat : At sc bond Γ) (hlater : Later sc sc₁) : At sc₁ bond Γ := by
  have hcurrent : sc₁.machine.current = sc.machine.current := hlater.grows.current
  constructor
  · exact hat.here.mono hlater.grows
  · rw [hcurrent]
    exact hat.tied.mono hlater.grows.toExtends

/-!
# Steps that leave environments, functions and classes alone
-/

/-- The environments, the functions and the classes of the machine. -/
def fabric (m : Machine) : Environments × Array Closure × Array Class :=
  (m.environments, m.functions, m.classes)

/-- No environment, function or class is changed or made. -/
def Quiet (p : Eval α) : Prop := ∀ m, fabric (Eval.state (p m)) = fabric m

namespace Quiet

theorem pure (value : α) : Quiet (Pure.pure value) := fun _ => rfl

theorem throw (stop : Stop) : Quiet (MonadExcept.throw stop : Eval α) := fun _ => rfl

theorem bind {p : Eval α} {next : α → Eval β} (hp : Quiet p) (hnext : ∀ value, Quiet (next value)) :
    Quiet (p >>= next) := by
  intro m
  have hfirst := hp m
  show fabric (Eval.state (EStateM.bind p next m)) = _
  unfold EStateM.bind
  cases hresult : p m with
  | error stop m' =>
      rw [hresult] at hfirst
      exact hfirst
  | ok value m' =>
      rw [hresult] at hfirst
      exact (hnext value m').trans hfirst

theorem get {next : Machine → Eval α} (hnext : ∀ m, Quiet (next m)) :
    Quiet (MonadState.get >>= next) := fun m => hnext m m

theorem ofLookup (found : Except LookupFault α) : Quiet (Eval.ofLookup found) := by
  cases found with
  | ok value => exact pure value
  | error fault => exact throw _

theorem ofRuntimeError (found : Except RuntimeError α) : Quiet (Eval.ofRuntimeError found) := by
  cases found with
  | ok value => exact pure value
  | error e => exact throw _

theorem ofExcept (found : Except Stop α) : Quiet (Eval.ofExcept found) := by
  cases found with
  | ok value => exact pure value
  | error stop => exact throw stop

end Quiet

theorem quiet_lookup (r : Reference) : Quiet (Eval.lookup r) := by
  apply Quiet.get
  intro m
  split
  · exact .ofLookup _
  · exact .ofRuntimeError _

theorem quiet_superParts (keyword : Reference) : Quiet (Eval.superParts keyword) := by
  apply Quiet.get
  intro m
  split
  · exact .throw _
  · apply (Quiet.ofLookup _).bind
    intro parent
    apply (Quiet.ofLookup _).bind
    intro receiver
    exact .pure _

theorem quiet_callResult (closure : Closure) (completion : Completion) :
    Quiet (Eval.callResult closure completion) := by
  unfold Eval.callResult
  split
  · apply Quiet.get
    exact fun m => .ofLookup _
  · cases completion with
    | returned value => exact .pure value
    | normal => exact .pure Value.nil

theorem quiet_action {stops : Stop → Prop} {native : Native} (hplain : native.Plain stops)
    (arguments : List Value) : Quiet (Eval.onHeap (native.action arguments)) := by
  intro m
  obtain ⟨readings, hstate⟩ := hplain.leaves arguments m.toHeap
  have hafter : Eval.state (Eval.onHeap (native.action arguments) m) =
      { m with toHeap := Eval.state (native.action arguments m.toHeap) } := by
    unfold Eval.onHeap
    cases native.action arguments m.toHeap <;> rfl
  rw [hafter, hstate]
  rfl

theorem fabric_callNative {stops : Stop → Prop} {m : Machine}
    (hplain : ∀ native ∈ m.natives, native.Plain stops) (id : NativeId) (arguments : List Value) :
    fabric (Eval.state (Eval.callNative id arguments m)) = fabric m := by
  unfold Eval.callNative
  rw [Eval.get_bind]
  cases hid : m.natives[id]? with
  | none => rfl
  | some native => exact quiet_action (hplain native (Array.mem_of_getElem? hid)) arguments m

theorem Follows.quiet {p : Eval α} {post : Stage → α → Prop}
    (hagree : Agree (anyTokens l) sc.stage p p post)
    (hquiet : fabric (Eval.state (p sc.machine)) = fabric sc.machine) :
    Follows l allowed sc p (Monitor.lift p) fun sc₁ value => post sc₁.stage value := by
  injection hquiet with henvironments hrest
  injection hrest with hfunctions hclasses
  apply Follows.lift hagree hfunctions hclasses
  intro hnamed
  unfold Named Machine.bindsGlobal
  rw [henvironments]
  exact hnamed

theorem Follows.congr {p p' : Eval α} {post : Scene → α → Prop}
    (hsame : p sc.machine = p' sc.machine) (hp : Follows l allowed sc p' (Monitor.lift p') post) :
    Follows l allowed sc p (Monitor.lift p) post := by
  intro hfits
  have hends := hp hfits
  have hlift : Monitor.lift p sc.monitored = Monitor.lift p' sc.monitored := by
    unfold Monitor.lift
    rw [show p sc.monitored.machine = p' sc.monitored.machine from hsame]
  rw [hsame, hlift]
  exact hends

/-!
# Variables
-/

theorem ne_globals_of_enclosing (hfits : Fits l allowed sc) {e outer : EnvId}
    (houter : sc.machine.environments.enclosing e = some outer) : e ≠ Machine.globals := by
  intro hglobals
  rw [hglobals, hfits.root] at houter
  cases houter

/-- What is at a distance within the frames is not the environment of the globals. -/
theorem place_ne_globals (hfits : Fits l allowed sc) {e target : EnvId} {depth : Nat}
    {frame : Frame} (hchain : Chain sc.stage e Γ) (hframe : Γ[depth]? = some frame)
    (htarget : sc.machine.environments.place e depth = .ok target) :
    target ≠ Machine.globals := by
  induction depth generalizing e Γ with
  | zero =>
      cases Γ with
      | nil => cases hframe
      | cons first Γ =>
          rcases hchain with ⟨_, _, outer, houter, _⟩
          injection htarget with htarget
          exact htarget ▸ ne_globals_of_enclosing hfits houter
  | succ depth ih =>
      cases Γ with
      | nil => cases hframe
      | cons first Γ =>
          rcases hchain with ⟨_, _, outer, houter, hrest⟩
          have hplace := Environments.place_succ houter depth
          exact ih hrest hframe (hplace.symm.trans htarget)

theorem named_define {m : Machine} {e : EnvId} {name : String} (value : Value)
    (hnamed : Named allowed m) (hname : e = Machine.globals → allowed name) :
    Named allowed { m with environments := m.environments.define e name value } := by
  intro other hother
  rcases Environments.binds_of_binds_define hother with hold | ⟨he, rfl⟩
  · exact hnamed other hold
  · exact hname he

theorem follows_assignLocal {depth : Nat} {naming : Naming} {bound : String → Prop} {name : String}
    {value : Value} (hat : At sc bond Γ) (hframe : Γ[depth]? = some (.names naming bound))
    (hname : naming.pairs name name) (hvalue : Sound (anyTokens l) sc.stage value) :
    Follows l allowed sc (Eval.assignLocal depth name value)
      (Monitor.lift (Eval.assignLocal depth name value)) fun _ _ => True := by
  intro hfits
  have hagree := agree_assignLocal hat.here hframe hname hvalue
  refine Follows.lift hagree ?_ ?_ ?_ hfits
  · unfold Eval.assignLocal
    cases sc.machine.environments.assignAt sc.machine.current depth name value <;> rfl
  · unfold Eval.assignLocal
    cases sc.machine.environments.assignAt sc.machine.current depth name value <;> rfl
  · intro hnamed
    unfold Eval.assignLocal Environments.assignAt
    cases htarget : sc.machine.environments.place sc.machine.current depth with
    | error fault => exact hnamed
    | ok target =>
        apply named_define value hnamed
        exact fun hglobals => absurd hglobals (place_ne_globals hfits hat.here hframe htarget)

theorem follows_assignFrom {e : EnvId} {name : Token} {value : Value}
    (hagree : Agree (anyTokens l) sc.stage (Eval.assignFrom e name value)
      (Eval.assignFrom e name value) fun _ _ => True) :
    Follows l allowed sc (Eval.assignFrom e name value)
      (Monitor.lift (Eval.assignFrom e name value)) fun _ _ => True := by
  refine Follows.lift hagree ?_ ?_ ?_
  · unfold Eval.assignFrom
    cases sc.machine.environments.assign e name value <;> rfl
  · unfold Eval.assignFrom
    cases sc.machine.environments.assign e name value <;> rfl
  · intro hnamed
    unfold Eval.assignFrom Environments.assign Environments.assign?
    cases hholder : sc.machine.environments.holder? e name.lexeme with
    | none => exact hnamed
    | some holder =>
        apply named_define value hnamed
        rintro rfl
        obtain ⟨_, hnearest⟩ := Environments.exists_nearest_of_holder? hholder
        exact hnamed name.lexeme hnearest.binds

theorem follows_assign {target : Reference} {value : Value} (hat : At sc bond Γ)
    (hrefers : Refers (anyTokens l) Γ false target target)
    (hvalue : Sound (anyTokens l) sc.stage value) :
    Follows l allowed sc (Eval.assign target value) (Monitor.lift (Eval.assign target value))
      fun _ _ => True := by
  intro hfits
  cases hrefers with
  | global hsees _ _ _ =>
      have hdepth : sc.machine.locals.depth? target.node = none :=
        (hfits.related.sees hsees).depth?_eq
      have hsame : Eval.assign target value sc.machine =
          Eval.assignFrom Machine.globals target.name value sc.machine := by
        rw [Eval.assign, Eval.get_bind, hdepth]
      exact (follows_assignFrom (agree_assignGlobal rfl trivial hvalue)).congr hsame hfits
  | @«local» depth _ _ hsees _ hframe hname _ =>
      have hdepth : sc.machine.locals.depth? target.node = some depth :=
        (hfits.related.sees hsees).depth?_eq
      have hsame : Eval.assign target value sc.machine =
          Eval.assignLocal depth target.name.lexeme value sc.machine := by
        rw [Eval.assign, Eval.get_bind, hdepth]
      exact (follows_assignLocal hat hframe hname hvalue).congr hsame hfits

theorem follows_defineHere {name : String} {value : Value} (hat : At sc bond Γ)
    (hname : Declares name name Γ) (hallowed : Γ = [] → allowed name)
    (hvalue : Grows sc.stage (sc.stage.define sc.machine.current name name value) →
      Sound (anyTokens l) (sc.stage.define sc.machine.current name name value) value) :
    Follows l allowed sc (Eval.defineHere name value) (Monitor.lift (Eval.defineHere name value))
      fun sc₁ _ => At sc₁ bond (bind name Γ) ∧
        (sc₁.machine.environments.values sc₁.machine.current).binds name = true := by
  intro hfits
  have hagree := agree_defineHere hat.here hname hvalue
  have hglobal : sc.machine.current = Machine.globals → allowed name := by
    intro hglobals
    apply hallowed
    cases Γ with
    | nil => rfl
    | cons frame Γ =>
        rcases hat.here with ⟨_, _, outer, houter, _⟩
        exact absurd hglobals (ne_globals_of_enclosing hfits houter)
  have hlift := Follows.lift hagree rfl rfl fun hnamed => named_define value hnamed hglobal
  refine (hlift.imp ?_) hfits
  rintro sc₁ _ hlater ⟨hhere, hbinds⟩
  exact ⟨⟨hhere, (hat.later hlater).tied⟩, hbinds⟩

/-!
# Environments
-/

namespace Scene

def create (sc : Scene) (kind : EnvKind) (outer : EnvId) (values : Bindings) : Scene :=
  { sc with
    kinds := fun e => if e = sc.machine.environments.size then kind else sc.kinds e
    machine := { sc.machine with
      environments := sc.machine.environments.create (some outer) values } }

def enter (sc : Scene) (e : EnvId) : Scene :=
  { sc with machine := { sc.machine with current := e } }

end Scene

theorem later_create (sc : Scene) (kind : EnvKind) (outer : EnvId) (values : Bindings) :
    Later sc (sc.create kind outer values) :=
  ⟨grows_create sc.stage kind outer values values, Nat.le_refl _, fun _ _ => rfl⟩

theorem Fits.create (hfits : Fits l allowed sc) {kind : EnvKind} {outer : EnvId} {values : Bindings}
    (halike : AlikeEnvironment (anyTokens l) sc.stage ⟨values, some outer⟩ ⟨values, some outer⟩
      kind) :
    Fits l allowed (sc.create kind outer values) := by
  apply hfits.later (later_create sc kind outer values) (hfits.related.create halike)
  · intro name hname
    have hglobals : Machine.globals ≠ sc.machine.environments.size :=
      Nat.ne_of_lt hfits.related.globals_lt
    change ((sc.machine.environments.create (some outer) values).values Machine.globals).binds
      name = true at hname
    rw [Environments.values_create, if_neg hglobals] at hname
    exact hfits.named name hname
  · rfl
  · rfl
  · rfl

theorem follows_newEnvironment {kind : EnvKind} {outer : EnvId} {values : Bindings}
    (halike : AlikeEnvironment (anyTokens l) sc.stage ⟨values, some outer⟩ ⟨values, some outer⟩
      kind) :
    Follows l allowed sc (Eval.newEnvironment outer values)
      (Monitor.lift (Eval.newEnvironment outer values)) fun sc₁ e =>
        sc₁ = sc.create kind outer values ∧ e = sc.machine.environments.size :=
  fun hfits => .ok (later_create sc kind outer values) (hfits.create halike) ⟨rfl, rfl⟩

theorem tied_create {naming : Naming} {outer : EnvId} (values : Bindings)
    (htied : Tied sc bond outer) :
    Tied (sc.create (.names naming) outer values) bond sc.machine.environments.size := by
  have hextends := (later_create sc (.names naming) outer values).grows.toExtends
  refine .names (if_pos rfl) ?_ (htied.mono hextends)
  show (sc.machine.environments.create (some outer) values).enclosing _ = _
  rw [Environments.enclosing_create, if_pos rfl]

theorem extends_stage_enter (sc : Scene) (e : EnvId) : Extends sc.stage (sc.enter e).stage :=
  extends_enter sc.stage e

theorem Fits.enter (hfits : Fits l allowed sc) (e : EnvId) : Fits l allowed (sc.enter e) := by
  have hextends := extends_stage_enter sc e
  constructor
  · exact hfits.related.enter e
  · exact hfits.root
  · exact hfits.named
  · exact hfits.size
  · intro f closure hclosure
    exact (hfits.tied f closure hclosure).mono hextends
  · exact hfits.parent
  · exact hfits.initialises
  · exact hfits.initialisers

theorem follows_within {p : Eval α} {q : Monitor α} {e : EnvId} {post post' : Scene → α → Prop}
    (hp : Follows l allowed (sc.enter e) p q post)
    (hpost : ∀ (sc₁ : Scene) (value : α), post sc₁ value →
      post' (sc₁.enter sc.machine.current) value) :
    Follows l allowed sc (Eval.within e p) (Monitor.within e q) post' := by
  intro hfits
  have hends := hp (hfits.enter e)
  have hback : ∀ {sc₁ : Scene}, Later (sc.enter e) sc₁ →
      Later sc (sc₁.enter sc.machine.current) := by
    intro sc₁ hlater
    constructor
    · exact ⟨((extends_stage_enter sc e).trans hlater.grows.toExtends).trans
        (extends_stage_enter sc₁ _), rfl, hlater.grows.lead⟩
    · exact hlater.size
    · exact hlater.origin
  unfold Eval.within Monitor.within
  change Concludes l allowed (sc.enter e) post (p { sc.machine with current := e })
    (q { sc.monitored with machine := { sc.monitored.machine with current := e } }) at hends
  simp only
  generalize p { sc.machine with current := e } = result at hends ⊢
  generalize q { sc.monitored with machine := { sc.monitored.machine with current := e } } =
    result' at hends ⊢
  cases hends with
  | ok hlater hfits₁ hvalue => exact .ok (hback hlater) (hfits₁.enter _) (hpost _ _ hvalue)
  | error hlater hfits₁ => exact .error (hback hlater) (hfits₁.enter _)

/-!
# Functions
-/

namespace Scene

def addFunction (sc : Scene) (closure : Closure) (origin : Provenance) : Scene :=
  { sc with
    machine := { sc.machine with functions := sc.machine.functions.push closure }
    origins := sc.origins.push origin }

end Scene

theorem later_addFunction (sc : Scene) (closure : Closure) (origin : Provenance) :
    Later sc (sc.addFunction closure origin) := by
  constructor
  · exact grows_addFunction sc.stage closure closure
  · exact Nat.le_trans (Nat.le_succ _) (Nat.le_of_eq (Array.size_push _).symm)
  · intro f hf
    have hne : f ≠ sc.origins.size := Nat.ne_of_lt hf
    show (sc.origins.push origin)[f]?.getD {} = sc.origins[f]?.getD {}
    rw [Array.getElem?_push, if_neg hne]

theorem origin_addFunction (hfits : Fits l allowed sc) (closure : Closure) (origin : Provenance) :
    (sc.addFunction closure origin).monitored.origin sc.machine.functions.size = origin := by
  show (sc.origins.push origin)[sc.machine.functions.size]?.getD {} = origin
  rw [Array.getElem?_push, if_pos hfits.size.symm]
  rfl

theorem Fits.addFunction (hfits : Fits l allowed sc) {closure : Closure} {origin : Provenance}
    (htied : Tied sc origin.bond closure.env) (hparent : Clause sc origin.parent closure.env)
    (hinit : origin.initialises closure = true → closure.isInitialiser = true) :
    Fits l allowed (sc.addFunction closure origin) := by
  have hlater := later_addFunction sc closure origin
  constructor
  · exact hfits.related.addFunction closure closure
  · exact hfits.root
  · exact hfits.named
  · show (sc.origins.push origin).size = (sc.machine.functions.push closure).size
    rw [Array.size_push, Array.size_push, hfits.size]
  · intro f found hfound
    rcases getElem?_push_eq_some hfound with hold | ⟨rfl, rfl⟩
    · exact hfits.tied_later hlater hold
    · rw [origin_addFunction hfits]
      exact htied.mono hlater.grows.toExtends
  · intro f found hfound
    rcases getElem?_push_eq_some hfound with hold | ⟨rfl, rfl⟩
    · exact hfits.parent_later hlater hold
    · rw [origin_addFunction hfits]
      exact hparent.mono htied.lt_size hlater.grows.toExtends
  · intro f found hfound
    rcases getElem?_push_eq_some hfound with hold | ⟨rfl, rfl⟩
    · exact hfits.initialises_later hlater hold
    · rw [origin_addFunction hfits]
      exact hinit
  · intro c cls hcls
    exact (hfits.initialisers c cls hcls).mono hlater.grows.toExtends

theorem follows_newFunction {closure : Closure} {origin : Provenance}
    (htied : Tied sc origin.bond closure.env) (hparent : Clause sc origin.parent closure.env)
    (hinit : origin.initialises closure = true → closure.isInitialiser = true) :
    Follows l allowed sc (Eval.newFunction closure) (Monitor.newFunction closure origin)
      fun sc₁ f => sc₁ = sc.addFunction closure origin ∧ f = sc.machine.functions.size :=
  fun hfits => .ok (later_addFunction sc closure origin)
    (hfits.addFunction htied hparent hinit) ⟨rfl, rfl⟩

end Lexical
end Lox
