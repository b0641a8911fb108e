import Lox.Proofs.Lexical.Alike
import Lox.Proofs.Native
import Lox.Proofs.Resolve.Table

/-!
# Two machines side by side

A stage is what two runs of alike programs have reached: their machines, and for
every environment the kind of frame that it was made for.  The two machines make
the same objects in the same order, so a value of one is a value of the other.
They may differ in the names of locals, in the functions they hold, which are
alike, and in the lines printed before the right one started, which are kept as
the `lead` of the stage.

A stage grows while the runs go on: environments keep their kinds, their links
and their names, and functions stay as they are.  So whatever is said of a value
or of the frames around a place remains true.
-/

namespace Lox
namespace Lexical

inductive EnvKind where
  | names (naming : Naming)
  | this
  | super

namespace Frame

def kind : Frame → EnvKind
  | names naming _ => .names naming
  | this => .this
  | super => .super

def Bound : Frame → String → Prop
  | names _ bound, name => bound name
  | _, _ => False

end Frame

structure Stage where
  kinds : EnvId → EnvKind
  left : Machine
  right : Machine
  lead : Array String

variable (sides : Sides)

/-!
# What holds at a stage
-/

/-- The environments from `e` outwards were made for these frames. -/
def Chain (st : Stage) : EnvId → List Frame → Prop
  | e, [] => e = Machine.globals ∧ e < st.left.environments.size
  | e, frame :: Γ =>
      st.kinds e = frame.kind ∧
      (∀ name, frame.Bound name → (st.left.environments.values e).binds name = true) ∧
      ∃ outer, st.left.environments.enclosing e = some outer ∧ Chain st outer Γ

/-- Closures that run alike in an environment; a method still needs one for its receiver. -/
structure AlikeClosure (st : Stage) (isMethod : Bool) (closure closure' : Closure) : Prop where
  env : closure'.env = closure.env
  isInitialiser : closure'.isInitialiser = closure.isInitialiser
  flaw : closure.flaw = none
  flaw' : closure'.flaw = none
  receiver : isMethod = false → closure.isInitialiser = true → st.kinds closure.env = .this
  body : ∃ Γ, Chain st closure.env Γ ∧
    AlikeFunction sides (if isMethod then .this :: Γ else Γ) closure.function closure'.function

def AlikeId (st : Stage) (isMethod : Bool) (f : FunctionId) : Prop :=
  ∃ closure closure', st.left.functions[f]? = some closure ∧
    st.right.functions[f]? = some closure' ∧ AlikeClosure sides st isMethod closure closure'

/-- A function that is a value can be called. -/
def Sound (st : Stage) (value : Value) : Prop :=
  ∀ f, value = .function f → AlikeId sides st false f

def AlikeBindings (naming : Naming) (values values' : Bindings) : Prop :=
  List.Forall₂ (fun entry entry' => naming.pairs entry.1 entry'.1 ∧ entry'.2 = entry.2)
    values values'

def AlikeEnvironment (st : Stage) (env env' : Environment) : EnvKind → Prop
  | .names naming =>
      AlikeBindings naming env.values env'.values ∧
        ∀ entry ∈ env.values, Sound sides st entry.2
  | .this => ∃ value, env.values = [("this", value)] ∧ env'.values = [("this", value)] ∧
      Sound sides st value
  | .super => ∃ c, env.values = [("super", .cls c)] ∧ env'.values = [("super", .cls c)]

/-- The two machines agree up to names. -/
structure Related (st : Stage) : Prop where
  current : st.right.current = st.left.current
  globals : st.kinds Machine.globals = .names .same
  globals_lt : Machine.globals < st.left.environments.size
  size : st.right.environments.size = st.left.environments.size
  enclosing : ∀ e, st.right.environments.enclosing e = st.left.environments.enclosing e
  environments : ∀ (e : EnvId) (env env' : Environment),
    st.left.environments.all[e]? = some env → st.right.environments.all[e]? = some env' →
    AlikeEnvironment sides st env env' (st.kinds e)
  functions : st.right.functions.size = st.left.functions.size
  classes : st.right.classes = st.left.classes
  methods : ∀ (c : ClassId) (cls : Class), st.left.classes[c]? = some cls →
    ∀ entry ∈ cls.methods, AlikeId sides st true entry.2
  instances : st.right.instances = st.left.instances
  fields : ∀ (i : InstanceId) (object : Instance), st.left.instances[i]? = some object →
    ∀ entry ∈ object.fields, Sound sides st entry.2
  natives : st.right.natives = st.left.natives
  plain : ∀ native ∈ st.left.natives, native.Plain sides.stops
  clock : st.right.clock = st.left.clock
  readings : st.right.readings = st.left.readings
  output : st.right.output = st.lead ++ st.left.output
  sees : ∀ {node depth}, sides.sees node depth → st.left.locals.Tells node depth
  sees' : ∀ {node depth}, sides.sees' node depth → st.right.locals.Tells node depth

/-!
# Growth
-/

/-- What was made stays as it was, names stay bound, and what is no variable keeps its value. -/
structure Extends (st st₁ : Stage) : Prop where
  size : st.left.environments.size ≤ st₁.left.environments.size
  kinds : ∀ e, e < st.left.environments.size → st₁.kinds e = st.kinds e
  enclosing : ∀ e, e < st.left.environments.size →
    st₁.left.environments.enclosing e = st.left.environments.enclosing e
  binds : ∀ e name, (st.left.environments.values e).binds name = true →
    (st₁.left.environments.values e).binds name = true
  fixed : ∀ e, e < st.left.environments.size → (∀ naming, st.kinds e ≠ .names naming) →
    st₁.left.environments.values e = st.left.environments.values e
  functions : ∀ (f : FunctionId) (closure : Closure), st.left.functions[f]? = some closure →
    st₁.left.functions[f]? = some closure
  functions' : ∀ (f : FunctionId) (closure : Closure), st.right.functions[f]? = some closure →
    st₁.right.functions[f]? = some closure

/-- A later stage at the same place. -/
structure Grows (st st₁ : Stage) : Prop extends Extends st st₁ where
  current : st₁.left.current = st.left.current
  lead : st₁.lead = st.lead

namespace Extends

variable {st st₁ st₂ : Stage}

theorem refl (st : Stage) : Extends st st where
  size := Nat.le_refl _
  kinds _ _ := rfl
  enclosing _ _ := rfl
  binds _ _ hbinds := hbinds
  fixed _ _ _ := rfl
  functions _ _ hclosure := hclosure
  functions' _ _ hclosure := hclosure

theorem trans (hfirst : Extends st st₁) (hsecond : Extends st₁ st₂) : Extends st st₂ where
  size := Nat.le_trans hfirst.size hsecond.size
  kinds e he := (hsecond.kinds e (Nat.lt_of_lt_of_le he hfirst.size)).trans (hfirst.kinds e he)
  enclosing e he :=
    (hsecond.enclosing e (Nat.lt_of_lt_of_le he hfirst.size)).trans (hfirst.enclosing e he)
  binds e name hbinds := hsecond.binds e name (hfirst.binds e name hbinds)
  fixed e he hkind := by
    have hkind₁ : ∀ naming, st₁.kinds e ≠ .names naming := by
      rw [hfirst.kinds e he]
      exact hkind
    exact (hsecond.fixed e (Nat.lt_of_lt_of_le he hfirst.size) hkind₁).trans
      (hfirst.fixed e he hkind)
  functions f closure hclosure := hsecond.functions f closure (hfirst.functions f closure hclosure)
  functions' f closure hclosure :=
    hsecond.functions' f closure (hfirst.functions' f closure hclosure)

end Extends

namespace Grows

variable {st st₁ st₂ : Stage}

theorem refl (st : Stage) : Grows st st := ⟨.refl st, rfl, rfl⟩

theorem trans (hfirst : Grows st st₁) (hsecond : Grows st₁ st₂) : Grows st st₂ :=
  ⟨hfirst.toExtends.trans hsecond.toExtends, hsecond.current.trans hfirst.current,
    hsecond.lead.trans hfirst.lead⟩

end Grows

theorem lt_size_of_enclosing {s : Environments} {e outer : EnvId}
    (houter : s.enclosing e = some outer) : e < s.size := by
  unfold Environments.enclosing at houter
  cases he : s.all[e]? with
  | none =>
      rw [he] at houter
      cases houter
  | some env => exact (Array.getElem?_eq_some_iff.mp he).1

theorem Chain.lt_size {st : Stage} {e : EnvId} {Γ : List Frame} (hchain : Chain st e Γ) :
    e < st.left.environments.size := by
  cases Γ with
  | nil => exact hchain.2
  | cons frame Γ =>
      rcases hchain with ⟨_, _, outer, houter, _⟩
      exact lt_size_of_enclosing houter

section

variable {sides} {st st₁ : Stage} (hextends : Extends st st₁)

include hextends

theorem Chain.mono {Γ : List Frame} {e : EnvId} (hchain : Chain st e Γ) : Chain st₁ e Γ := by
  induction Γ generalizing e with
  | nil => exact ⟨hchain.1, Nat.lt_of_lt_of_le hchain.2 hextends.size⟩
  | cons frame Γ ih =>
      have he := hchain.lt_size
      rcases hchain with ⟨hkind, hbound, outer, houter, hrest⟩
      refine ⟨(hextends.kinds e he).trans hkind, ?_, outer, ?_, ih hrest⟩
      · intro name hname
        exact hextends.binds e name (hbound name hname)
      · rw [hextends.enclosing e he]
        exact houter

theorem AlikeClosure.mono {isMethod : Bool} {closure closure' : Closure}
    (halike : AlikeClosure sides st isMethod closure closure') :
    AlikeClosure sides st₁ isMethod closure closure' := by
  rcases halike.body with ⟨Γ, hchain, hfunction⟩
  refine { halike with receiver := ?_, body := ⟨Γ, hchain.mono hextends, hfunction⟩ }
  intro hmethod hinit
  rw [hextends.kinds _ hchain.lt_size]
  exact halike.receiver hmethod hinit

theorem AlikeId.mono {isMethod : Bool} {f : FunctionId} (halike : AlikeId sides st isMethod f) :
    AlikeId sides st₁ isMethod f := by
  rcases halike with ⟨closure, closure', hclosure, hclosure', halike⟩
  exact ⟨closure, closure', hextends.functions f closure hclosure,
    hextends.functions' f closure' hclosure', halike.mono hextends⟩

theorem Sound.mono {value : Value} (hsound : Sound sides st value) : Sound sides st₁ value := by
  intro f hvalue
  exact (hsound f hvalue).mono hextends

theorem AlikeEnvironment.mono {env env' : Environment} {kind : EnvKind}
    (halike : AlikeEnvironment sides st env env' kind) :
    AlikeEnvironment sides st₁ env env' kind := by
  cases kind with
  | names naming => exact ⟨halike.1, fun entry hentry => (halike.2 entry hentry).mono hextends⟩
  | this =>
      rcases halike with ⟨value, hleft, hright, hsound⟩
      exact ⟨value, hleft, hright, hsound.mono hextends⟩
  | super => exact halike

/-!
The parts of a relation that stay when the parts of the machines they are about
do not change.
-/

theorem Related.methods_mono (hrelated : Related sides st)
    (hclasses : st₁.left.classes = st.left.classes) (c : ClassId) (cls : Class)
    (hcls : st₁.left.classes[c]? = some cls) :
    ∀ entry ∈ cls.methods, AlikeId sides st₁ true entry.2 := by
  intro entry hentry
  rw [hclasses] at hcls
  exact (hrelated.methods c cls hcls entry hentry).mono hextends

theorem Related.fields_mono (hrelated : Related sides st)
    (hinstances : st₁.left.instances = st.left.instances) (i : InstanceId) (object : Instance)
    (hobject : st₁.left.instances[i]? = some object) :
    ∀ entry ∈ object.fields, Sound sides st₁ entry.2 := by
  intro entry hentry
  rw [hinstances] at hobject
  exact (hrelated.fields i object hobject entry hentry).mono hextends

theorem Related.environments_mono (hrelated : Related sides st)
    (hkinds : st₁.kinds = st.kinds) (hleft : st₁.left.environments = st.left.environments)
    (hright : st₁.right.environments = st.right.environments) (e : EnvId) (env env' : Environment)
    (henv : st₁.left.environments.all[e]? = some env)
    (henv' : st₁.right.environments.all[e]? = some env') :
    AlikeEnvironment sides st₁ env env' (st₁.kinds e) := by
  rw [hleft] at henv
  rw [hright] at henv'
  rw [hkinds]
  exact (hrelated.environments e env env' henv henv').mono hextends

end

/-!
# Seeing more
-/

section

variable {sides sides₁ : Sides} (hle : sides.Le sides₁) {st : Stage}

include hle

theorem AlikeClosure.see {isMethod : Bool} {closure closure' : Closure}
    (halike : AlikeClosure sides st isMethod closure closure') :
    AlikeClosure sides₁ st isMethod closure closure' := by
  rcases halike.body with ⟨Γ, hchain, hfunction⟩
  exact { halike with body := ⟨Γ, hchain, hfunction.mono hle⟩ }

theorem AlikeId.see {isMethod : Bool} {f : FunctionId} (halike : AlikeId sides st isMethod f) :
    AlikeId sides₁ st isMethod f := by
  rcases halike with ⟨closure, closure', hclosure, hclosure', halike⟩
  exact ⟨closure, closure', hclosure, hclosure', halike.see hle⟩

theorem Sound.see {value : Value} (hsound : Sound sides st value) : Sound sides₁ st value :=
  fun f hvalue => (hsound f hvalue).see hle

theorem AlikeEnvironment.see {env env' : Environment} {kind : EnvKind}
    (halike : AlikeEnvironment sides st env env' kind) :
    AlikeEnvironment sides₁ st env env' kind := by
  cases kind with
  | names naming => exact ⟨halike.1, fun entry hentry => (halike.2 entry hentry).see hle⟩
  | this =>
      rcases halike with ⟨value, hleft, hright, hsound⟩
      exact ⟨value, hleft, hright, hsound.see hle⟩
  | super => exact halike

theorem Related.withLocals (hrelated : Related sides st) {l l' : Locals}
    (hsees : ∀ {node depth}, sides₁.sees node depth → l.Tells node depth)
    (hsees' : ∀ {node depth}, sides₁.sees' node depth → l'.Tells node depth) :
    Related sides₁ { st with
      left := { st.left with locals := l }
      right := { st.right with locals := l' } } := by
  have hextends : Extends st { st with
      left := { st.left with locals := l }
      right := { st.right with locals := l' } } := { Extends.refl st with }
  exact { hrelated with
    environments := fun e env env' henv henv' =>
      ((hrelated.environments e env env' henv henv').mono hextends).see hle
    methods := fun c cls hcls entry hentry =>
      ((hrelated.methods c cls hcls entry hentry).mono hextends).see hle
    fields := fun i object hobject entry hentry =>
      ((hrelated.fields i object hobject entry hentry).mono hextends).see hle
    plain := fun native hnative => (hrelated.plain native hnative).mono hle.stops
    sees := hsees
    sees' := hsees' }

end

end Lexical
end Lox
