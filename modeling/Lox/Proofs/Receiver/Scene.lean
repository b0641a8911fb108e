import Lox.Proofs.Receiver.Monitor
import Lox.Proofs.Session.Reachable

/-!
# Plain and monitored evaluation side by side

A scene is a machine with the kinds of its environments and the origins of its
functions.  The environments around a place are tied to the bond of the place if
the nearest environment of a receiver holds what the bond says, and the environment
of a superclass next to it holds what the bond says, too.

Plain and monitored evaluation follow each other from a scene if they end in the
same way and leave the same machine, which is the machine of a later scene.  In
particular there is no violation.
-/

namespace Lox
namespace Lexical

abbrev anyTokens (l : Locals) : Sides := tables l l (fun _ _ => True) fun _ => True

structure Scene where
  kinds : EnvId → EnvKind
  machine : Machine
  origins : Array Provenance

namespace Scene

def stage (sc : Scene) : Stage := Stage.twice sc.kinds sc.machine

def monitored (sc : Scene) : Monitored := ⟨sc.machine, sc.origins⟩

end Scene

/-!
# Ties
-/

/-- If an environment is that of a superclass, it holds the class. -/
def Clause (sc : Scene) (parent : Option ClassId) (e : EnvId) : Prop :=
  sc.kinds e = .super →
    ∃ c, (sc.machine.environments.values e).get? "super" = some (.cls c) ∧ parent = some c

/-- The environments from one outwards hold what the bond says. -/
inductive Tied (sc : Scene) (bond : Bond) : EnvId → Prop where
  | globals : Machine.globals < sc.machine.environments.size → Tied sc bond Machine.globals
  | super {e : EnvId} :
      e < sc.machine.environments.size → sc.kinds e = .super → Tied sc bond e
  | names {e outer : EnvId} {naming : Naming} :
      sc.kinds e = .names naming → sc.machine.environments.enclosing e = some outer →
      Tied sc bond outer → Tied sc bond e
  | this {e outer : EnvId} {i : InstanceId} :
      sc.kinds e = .this → sc.machine.environments.enclosing e = some outer →
      outer < sc.machine.environments.size →
      (sc.machine.environments.values e).get? "this" = some (.object i) →
      bond.receiver = some i → Clause sc bond.parent outer → Tied sc bond e

def Named (allowed : String → Prop) (m : Machine) : Prop :=
  ∀ name, m.bindsGlobal name = true → allowed name

def Initialises (m : Machine) (table : List (String × FunctionId)) : Prop :=
  ∀ f, (initName, f) ∈ table →
    ∃ closure, m.functions[f]? = some closure ∧ closure.isInitialiser = true

structure Fits (l : Locals) (allowed : String → Prop) (sc : Scene) : Prop where
  related : Related (anyTokens l) sc.stage
  root : sc.machine.environments.enclosing Machine.globals = none
  named : Named allowed sc.machine
  size : sc.origins.size = sc.machine.functions.size
  tied : ∀ (f : FunctionId) (closure : Closure), sc.machine.functions[f]? = some closure →
    Tied sc (sc.monitored.origin f).bond closure.env
  parent : ∀ (f : FunctionId) (closure : Closure), sc.machine.functions[f]? = some closure →
    Clause sc (sc.monitored.origin f).parent closure.env
  initialises : ∀ (f : FunctionId) (closure : Closure), sc.machine.functions[f]? = some closure →
    (sc.monitored.origin f).initialises closure = true → closure.isInitialiser = true
  initialisers : ∀ (c : ClassId) (cls : Class), sc.machine.classes[c]? = some cls →
    Initialises sc.machine cls.methods

structure Later (sc sc₁ : Scene) : Prop where
  grows : Grows sc.stage sc₁.stage
  size : sc.origins.size ≤ sc₁.origins.size
  origin : ∀ f < sc.origins.size, sc₁.monitored.origin f = sc.monitored.origin f

theorem Later.refl (sc : Scene) : Later sc sc := ⟨.refl _, Nat.le_refl _, fun _ _ => rfl⟩

theorem Later.trans {sc sc₁ sc₂ : Scene} (hfirst : Later sc sc₁) (hsecond : Later sc₁ sc₂) :
    Later sc sc₂ := by
  constructor
  · exact hfirst.grows.trans hsecond.grows
  · exact Nat.le_trans hfirst.size hsecond.size
  · intro f hf
    rw [hsecond.origin f (Nat.lt_of_lt_of_le hf hfirst.size)]
    exact hfirst.origin f hf

section

variable {l : Locals} {allowed : String → Prop} {sc sc₁ sc₂ : Scene} {bond : Bond} {e : EnvId}

theorem Tied.lt_size (htied : Tied sc bond e) : e < sc.machine.environments.size := by
  cases htied with
  | globals hlt => exact hlt
  | super hlt _ => exact hlt
  | names _ houter _ => exact lt_size_of_enclosing houter
  | this _ houter _ _ _ _ => exact lt_size_of_enclosing houter

/-- The environments of receivers and superclasses keep what they hold. -/
theorem values_fixed (hextends : Extends sc.stage sc₁.stage)
    (hlt : e < sc.machine.environments.size) (hkind : sc.kinds e = .this ∨ sc.kinds e = .super) :
    sc₁.machine.environments.values e = sc.machine.environments.values e := by
  apply hextends.fixed e hlt
  intro naming hnames
  change sc.kinds e = .names naming at hnames
  rw [hnames] at hkind
  rcases hkind with hkind | hkind
  · cases hkind
  · cases hkind

theorem Clause.mono {parent : Option ClassId} (hclause : Clause sc parent e)
    (hlt : e < sc.machine.environments.size) (hextends : Extends sc.stage sc₁.stage) :
    Clause sc₁ parent e := by
  intro hkind
  have hold : sc.kinds e = .super := (hextends.kinds e hlt).symm.trans hkind
  rw [values_fixed hextends hlt (Or.inr hold)]
  exact hclause hold

theorem Tied.mono (htied : Tied sc bond e) (hextends : Extends sc.stage sc₁.stage) :
    Tied sc₁ bond e := by
  induction htied with
  | globals hlt => exact .globals (Nat.lt_of_lt_of_le hlt hextends.size)
  | super hlt hkind =>
      exact .super (Nat.lt_of_lt_of_le hlt hextends.size) ((hextends.kinds _ hlt).trans hkind)
  | names hkind houter _ ih =>
      have hlt := lt_size_of_enclosing houter
      exact .names ((hextends.kinds _ hlt).trans hkind) ((hextends.enclosing _ hlt).trans houter) ih
  | this hkind houter hltOuter hthis hreceiver hparent =>
      have hlt := lt_size_of_enclosing houter
      refine .this ((hextends.kinds _ hlt).trans hkind) ((hextends.enclosing _ hlt).trans houter)
        (Nat.lt_of_lt_of_le hltOuter hextends.size) ?_ hreceiver (hparent.mono hltOuter hextends)
      rw [values_fixed hextends hlt (Or.inl hkind)]
      exact hthis

theorem Initialises.mono {table : List (String × FunctionId)}
    (htable : Initialises sc.machine table) (hextends : Extends sc.stage sc₁.stage) :
    Initialises sc₁.machine table := by
  intro f hf
  rcases htable f hf with ⟨closure, hclosure, hinit⟩
  exact ⟨closure, hextends.functions f closure hclosure, hinit⟩

theorem Fits.lt_origins (hfits : Fits l allowed sc) {f : FunctionId} {closure : Closure}
    (hclosure : sc.machine.functions[f]? = some closure) : f < sc.origins.size := by
  rw [hfits.size]
  exact (Array.getElem?_eq_some_iff.mp hclosure).1

theorem Fits.tied_later (hfits : Fits l allowed sc) (hlater : Later sc sc₁) {f : FunctionId}
    {closure : Closure} (hclosure : sc.machine.functions[f]? = some closure) :
    Tied sc₁ (sc₁.monitored.origin f).bond closure.env := by
  rw [hlater.origin f (hfits.lt_origins hclosure)]
  exact (hfits.tied f closure hclosure).mono hlater.grows.toExtends

theorem Fits.parent_later (hfits : Fits l allowed sc) (hlater : Later sc sc₁) {f : FunctionId}
    {closure : Closure} (hclosure : sc.machine.functions[f]? = some closure) :
    Clause sc₁ (sc₁.monitored.origin f).parent closure.env := by
  rw [hlater.origin f (hfits.lt_origins hclosure)]
  exact (hfits.parent f closure hclosure).mono (hfits.tied f closure hclosure).lt_size
    hlater.grows.toExtends

theorem Fits.initialises_later (hfits : Fits l allowed sc) (hlater : Later sc sc₁) {f : FunctionId}
    {closure : Closure} (hclosure : sc.machine.functions[f]? = some closure)
    (hinit : (sc₁.monitored.origin f).initialises closure = true) :
    closure.isInitialiser = true := by
  rw [hlater.origin f (hfits.lt_origins hclosure)] at hinit
  exact hfits.initialises f closure hclosure hinit

theorem Fits.later (hfits : Fits l allowed sc) (hlater : Later sc sc₁) {l₁ : Locals}
    (hrelated : Related (anyTokens l₁) sc₁.stage) (hnamed : Named allowed sc₁.machine)
    (horigins : sc₁.origins = sc.origins)
    (hfunctions : sc₁.machine.functions = sc.machine.functions)
    (hclasses : sc₁.machine.classes = sc.machine.classes) : Fits l₁ allowed sc₁ where
  related := hrelated
  root := by
    have hroot := hlater.grows.enclosing Machine.globals hfits.related.globals_lt
    exact hroot.trans hfits.root
  named := hnamed
  size := by rw [horigins, hfunctions, hfits.size]
  tied f closure hclosure := hfits.tied_later hlater (hfunctions ▸ hclosure)
  parent f closure hclosure := hfits.parent_later hlater (hfunctions ▸ hclosure)
  initialises f closure hclosure := hfits.initialises_later hlater (hfunctions ▸ hclosure)
  initialisers c cls hcls :=
    (hfits.initialisers c cls (hclasses ▸ hcls)).mono hlater.grows.toExtends

end

/-!
# Computations that follow each other
-/

inductive Concludes (l : Locals) (allowed : String → Prop) (sc : Scene) (post : Scene → α → Prop) :
    EStateM.Result Stop Machine α → EStateM.Result Halt Monitored α → Prop where
  | ok {sc₁ : Scene} {value : α} :
      Later sc sc₁ → Fits l allowed sc₁ → post sc₁ value →
      Concludes l allowed sc post (.ok value sc₁.machine) (.ok value sc₁.monitored)
  | error {sc₁ : Scene} {stop : Stop} :
      Later sc sc₁ → Fits l allowed sc₁ →
      Concludes l allowed sc post (.error stop sc₁.machine) (.error (.stop stop) sc₁.monitored)

def Follows (l : Locals) (allowed : String → Prop) (sc : Scene) (p : Eval α) (q : Monitor α)
    (post : Scene → α → Prop) : Prop :=
  Fits l allowed sc → Concludes l allowed sc post (p sc.machine) (q sc.monitored)

variable {l : Locals} {allowed : String → Prop} {sc : Scene}

theorem Concludes.since {sc₁ : Scene} {post : Scene → α → Prop}
    {result : EStateM.Result Stop Machine α} {result' : EStateM.Result Halt Monitored α}
    (hlater : Later sc sc₁) (hends : Concludes l allowed sc₁ post result result') :
    Concludes l allowed sc post result result' := by
  cases hends with
  | ok hlater₁ hfits hpost => exact .ok (hlater.trans hlater₁) hfits hpost
  | error hlater₁ hfits => exact .error (hlater.trans hlater₁) hfits

namespace Follows

theorem pure {post : Scene → α → Prop} {value : α} (hpost : post sc value) :
    Follows l allowed sc (Pure.pure value) (Pure.pure value) post :=
  fun hfits => .ok (.refl sc) hfits hpost

theorem throw {post : Scene → α → Prop} (stop : Stop) :
    Follows l allowed sc (MonadExcept.throw stop) (MonadExcept.throw (Halt.stop stop)) post :=
  fun hfits => .error (.refl sc) hfits

theorem fail {post : Scene → α → Prop} (token : Token) (cause : RuntimeCause) :
    Follows l allowed sc (Eval.fail token cause) (Monitor.fail token cause) post :=
  throw (.error ⟨token, cause⟩)

theorem bind {p : Eval α} {q : Monitor α} {next : α → Eval β} {next' : α → Monitor β}
    {mid : Scene → α → Prop} {post : Scene → β → Prop} (hp : Follows l allowed sc p q mid)
    (hnext : ∀ (sc₁ : Scene) (value : α), Later sc sc₁ → mid sc₁ value →
      Follows l allowed sc₁ (next value) (next' value) post) :
    Follows l allowed sc (p >>= next) (q >>= next') post := by
  intro hfits
  have hends := hp hfits
  show Concludes l allowed sc post (EStateM.bind p next sc.machine)
    (EStateM.bind q next' sc.monitored)
  unfold EStateM.bind
  generalize p sc.machine = result at hends
  generalize q sc.monitored = result' at hends
  cases hends with
  | ok hlater hfits₁ hmid => exact (hnext _ _ hlater hmid hfits₁).since hlater
  | error hlater hfits₁ => exact .error hlater hfits₁

theorem imp {p : Eval α} {q : Monitor α} {post post' : Scene → α → Prop}
    (hp : Follows l allowed sc p q post)
    (himp : ∀ (sc₁ : Scene) (value : α), Later sc sc₁ → post sc₁ value → post' sc₁ value) :
    Follows l allowed sc p q post' := by
  intro hfits
  have hends := hp hfits
  generalize p sc.machine = result at hends ⊢
  generalize q sc.monitored = result' at hends ⊢
  cases hends with
  | ok hlater hfits₁ hpost => exact .ok hlater hfits₁ (himp _ _ hlater hpost)
  | error hlater hfits₁ => exact .error hlater hfits₁

theorem map {p : Eval α} {q : Monitor α} {f : α → β} {post : Scene → β → Prop}
    (hp : Follows l allowed sc p q fun sc₁ value => post sc₁ (f value)) :
    Follows l allowed sc (f <$> p) (f <$> q) post :=
  bind hp fun _ _ _ hpost => pure hpost

theorem get {next : Machine → Eval α} {next' : Monitored → Monitor α} {post : Scene → α → Prop}
    (hnext : Fits l allowed sc → Follows l allowed sc (next sc.machine) (next' sc.monitored) post) :
    Follows l allowed sc (MonadState.get >>= next) (MonadState.get >>= next') post :=
  fun hfits => hnext hfits hfits

theorem expect {p : Eval α} {q : Monitor α} {holds : α → Bool} {mid post : Scene → α → Prop}
    (hp : Follows l allowed sc p q mid)
    (hholds : ∀ (sc₁ : Scene) (value : α), Later sc sc₁ → mid sc₁ value →
      holds value = true ∧ post sc₁ value) :
    Follows l allowed sc p
      (do
        let value ← q
        Monitor.expect (holds value)
        Pure.pure value) post := by
  have hplain : p = p >>= Pure.pure := (bind_pure p).symm
  rw [hplain]
  apply hp.bind
  intro sc₁ value hlater hmid
  rcases hholds sc₁ value hlater hmid with ⟨htrue, hpost⟩
  rw [htrue]
  exact pure hpost

end Follows

/-!
# Steps that are the same in both
-/

theorem Follows.lift {p : Eval α} {post : Stage → α → Prop}
    (hagree : Agree (anyTokens l) sc.stage p p post)
    (hfunctions : (Eval.state (p sc.machine)).functions = sc.machine.functions)
    (hclasses : (Eval.state (p sc.machine)).classes = sc.machine.classes)
    (hnamed : Named allowed sc.machine → Named allowed (Eval.state (p sc.machine))) :
    Follows l allowed sc p (Monitor.lift p) fun sc₁ value => post sc₁.stage value := by
  intro hfits
  rcases (hagree hfits.related).twice rfl with ⟨kinds₁, hrelated, hgrows, hpost⟩
  change Grows sc.stage (Stage.twice kinds₁ (Eval.state (p sc.machine))) at hgrows
  change Related (anyTokens l) (Stage.twice kinds₁ (Eval.state (p sc.machine))) at hrelated
  change ∀ value m', p sc.machine = .ok value m' → post (Stage.twice kinds₁ m') value at hpost
  have hnamed₁ := hnamed hfits.named
  unfold Monitor.lift
  show Concludes l allowed sc _ (p sc.machine) _
  have hmachine : sc.monitored.machine = sc.machine := rfl
  rw [hmachine]
  generalize p sc.machine = result at hgrows hrelated hpost hfunctions hclasses hnamed₁ ⊢
  let sc₁ : Scene := ⟨kinds₁, Eval.state result, sc.origins⟩
  have hlater : Later sc sc₁ := ⟨hgrows, Nat.le_refl _, fun _ _ => rfl⟩
  have hfits₁ : Fits l allowed sc₁ := hfits.later hlater hrelated hnamed₁ rfl hfunctions hclasses
  cases result with
  | ok value m' => exact Concludes.ok hlater hfits₁ (hpost value m' rfl)
  | error stop m' => exact Concludes.error hlater hfits₁

end Lexical
end Lox
