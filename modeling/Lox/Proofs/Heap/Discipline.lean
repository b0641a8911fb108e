import Lox.Proofs.Native

/-!
# Disciplines

A discipline is a property of machines together with the cells that are known
on each of them.  It is kept if every single change of a machine keeps it, as
long as the change uses known cells only.

Evaluation gets hold of a cell only by reading it from a cell that it knows or
by making it.  This module shows that for the single steps of evaluation.  Each
of them keeps every discipline that is kept, ends in an environment that is known,
and gives known values.
-/

namespace Lox

structure Discipline where
  fits : Machine → Prop
  knows : Machine → Cell → Prop

namespace Discipline

variable (D : Discipline)

def Known (value : Value) (m : Machine) : Prop := value.KnownTo (D.knows m)

/-- The property holds again, and nothing is forgotten. -/
structure Advances (m m' : Machine) : Prop where
  fits : D.fits m'
  knows : ∀ p, D.knows m p → D.knows m' p

def AdvancesBy (m : Machine) : EStateM.Result Stop Heap Value → Prop
  | .ok value heap => D.Advances m { m with toHeap := heap } ∧
      D.Known value { m with toHeap := heap }
  | .error _ heap => D.Advances m { m with toHeap := heap }

/-- Changes that use known cells only keep the property; what they make is known. -/
structure Kept : Prop where
  globals {m : Machine} : D.fits m → D.knows m (.env Machine.globals)
  closed {m : Machine} : D.fits m → m.Closed (D.knows m)
  aside {m m' : Machine} : D.fits m → m.SameCells m'.toHeap → m'.natives = m.natives →
    m'.locals = m.locals → D.Advances m m'
  native {m : Machine} {native : Native} {arguments : List Value} : D.fits m →
    native ∈ m.natives → (∀ value ∈ arguments, D.Known value m) →
    D.AdvancesBy m (native.action arguments m.toHeap)
  create {m : Machine} {e : EnvId} {values : Bindings} : D.fits m → D.knows m (.env e) →
    (∀ entry ∈ values, D.Known entry.2 m) →
    let m' := { m with environments := m.environments.create (some e) values }
    D.Advances m m' ∧ D.knows m' (.env m.environments.size)
  define {m : Machine} {e : EnvId} {name : String} {value : Value} : D.fits m →
    D.knows m (.env e) → D.Known value m →
    D.Advances m { m with environments := m.environments.define e name value }
  addFunction {m : Machine} {closure : Closure} : D.fits m → D.knows m (.env closure.env) →
    let m' := { m with functions := m.functions.push closure }
    D.Advances m m' ∧ D.knows m' (.function m.functions.size)
  addClass {m : Machine} {cls : Class} : D.fits m →
    (∀ parent, cls.superclass = some parent → D.knows m (.cls parent)) →
    (∀ entry ∈ cls.methods, D.knows m (.function entry.2)) →
    let m' := { m with classes := m.classes.push cls }
    D.Advances m m' ∧ D.knows m' (.cls m.classes.size)
  addInstance {m : Machine} {c : ClassId} : D.fits m → D.knows m (.cls c) →
    let m' := { m with instances := m.instances.push { cls := c } }
    D.Advances m m' ∧ D.knows m' (.object m.instances.size)
  setField {m : Machine} {i : InstanceId} {name : String} {value : Value} : D.fits m →
    D.knows m (.object i) → D.Known value m →
    D.Advances m { m with
      instances := m.instances.modify i fun object =>
        { object with fields := object.fields.insert name value } }

/-- An evaluation has led from one machine to another, in environments that are known. -/
structure Later (m m' : Machine) : Prop extends D.Advances m m' where
  current : D.knows m (.env m.current) → D.knows m' (.env m'.current)

structure Ready (m : Machine) : Prop where
  fits : D.fits m
  current : D.knows m (.env m.current)

variable {D}

theorem Known.mono {value : Value} {m m' : Machine} (hvalue : D.Known value m)
    (hknows : ∀ p, D.knows m p → D.knows m' p) : D.Known value m' :=
  fun p hp => hknows p (hvalue p hp)

theorem known_of_cell? {value : Value} {m : Machine} {p : Cell} (hcell : value.cell? = some p)
    (hp : D.knows m p) : D.Known value m := by
  intro q hq
  rw [Value.Holds, hcell] at hq
  cases hq
  exact hp

theorem known_of_no_cell {value : Value} {m : Machine} (hcell : value.cell? = none) :
    D.Known value m := by
  intro q hq
  rw [Value.Holds, hcell] at hq
  cases hq

theorem Later.refl {m : Machine} (hm : D.fits m) : D.Later m m :=
  ⟨⟨hm, fun _ hp => hp⟩, fun hcurrent => hcurrent⟩

theorem Advances.later {m m' : Machine} (hadvances : D.Advances m m')
    (hcurrent : m'.current = m.current) : D.Later m m' := by
  refine ⟨hadvances, ?_⟩
  rw [hcurrent]
  exact hadvances.knows _

theorem Later.trans {m m₁ m₂ : Machine} (h₁ : D.Later m m₁) (h₂ : D.Later m₁ m₂) :
    D.Later m m₂ :=
  ⟨⟨h₂.fits, fun p hp => h₂.knows p (h₁.knows p hp)⟩, fun hm => h₂.current (h₁.current hm)⟩

theorem Ready.later {m m' : Machine} (hm : D.Ready m) (hlater : D.Later m m') : D.Ready m' :=
  ⟨hlater.fits, hlater.current hm.current⟩

/-- Harmless native functions keep a discipline that knows what is reached from known cells. -/
theorem advancesBy_of_harmless {m : Machine} {native : Native} (hnative : native.Harmless)
    {arguments : List Value} (hglobals : D.knows m (.env Machine.globals))
    (hclosed : m.Closed (D.knows m)) (harguments : ∀ value ∈ arguments, D.Known value m)
    (haside : ∀ {m' : Machine}, m.SameCells m'.toHeap → m'.natives = m.natives →
      m'.locals = m.locals → D.Advances m m') :
    D.AdvancesBy m (native.action arguments m.toHeap) := by
  have hleaves := hnative.leaves arguments m.toHeap
  cases haction : native.action arguments m.toHeap with
  | error stop heap =>
      rw [haction] at hleaves
      exact haside hleaves rfl rfl
  | ok value heap =>
      rw [haction] at hleaves
      have hadvances : D.Advances m { m with toHeap := heap } := haside hleaves rfl rfl
      refine ⟨hadvances, ?_⟩
      intro p hp
      apply hadvances.knows
      apply hclosed.reaches _ (hnative.gives haction p hp)
      rintro q (⟨argument, hargument, hq⟩ | rfl)
      · exact harguments argument hargument q hq
      · exact hglobals

/-- Native functions and what is known of nodes stay as they are; all cells are known. -/
def still (natives : Array Native) (locals : Locals) : Discipline where
  fits m := m.natives = natives ∧ m.locals = locals
  knows _ _ := True

theorem still_kept (natives : Array Native) (locals : Locals) : (still natives locals).Kept := by
  have hadvances : ∀ {m m' : Machine}, (still natives locals).fits m → m'.natives = m.natives →
      m'.locals = m.locals → (still natives locals).Advances m m' :=
    fun hm hnatives hlocals => ⟨⟨hnatives.trans hm.1, hlocals.trans hm.2⟩, fun _ _ => trivial⟩
  constructor
  · exact fun _ => trivial
  · exact fun _ _ _ _ _ => trivial
  · exact fun hm _ hnatives hlocals => hadvances hm hnatives hlocals
  · intro m native arguments hm _ _
    cases native.action arguments m.toHeap with
    | ok value heap => exact ⟨hadvances hm rfl rfl, fun _ _ => trivial⟩
    | error stop heap => exact hadvances hm rfl rfl
  · exact fun hm _ _ => ⟨hadvances hm rfl rfl, trivial⟩
  · exact fun hm _ _ => hadvances hm rfl rfl
  · exact fun hm _ => ⟨hadvances hm rfl rfl, trivial⟩
  · exact fun hm _ _ => ⟨hadvances hm rfl rfl, trivial⟩
  · exact fun hm _ => ⟨hadvances hm rfl rfl, trivial⟩
  · exact fun hm _ _ => hadvances hm rfl rfl

end Discipline

namespace Eval

/-- How a computation ends if it keeps a discipline; what it gives satisfies `post`. -/
def Ends (D : Discipline) (m : Machine) (post : α → Machine → Prop) :
    EStateM.Result Stop Machine α → Prop
  | .ok value m' => D.Later m m' ∧ post value m'
  | .error _ m' => D.Later m m'

/-- A computation keeps a discipline when it starts on a certain machine. -/
def Keeps (D : Discipline) (m : Machine) (p : Eval α) (post : α → Machine → Prop) : Prop :=
  Ends D m post (p m)

theorem Keeps.later {D : Discipline} {m : Machine} {post : α → Machine → Prop} {p : Eval α}
    (hp : Keeps D m p post) : D.Later m (state (p m)) := by
  unfold Keeps at hp
  cases hresult : p m with
  | ok value m' =>
      rw [hresult] at hp
      exact hp.1
  | error stop m' =>
      rw [hresult] at hp
      exact hp

def anything (_ : α) (_ : Machine) : Prop := True

namespace Keeps

variable {D : Discipline} {m : Machine} {post : α → Machine → Prop}

theorem pure {value : α} (hm : D.fits m) (hvalue : post value m) :
    Keeps D m (Pure.pure value) post := ⟨.refl hm, hvalue⟩

theorem throw (hm : D.fits m) (stop : Stop) :
    Keeps D m (MonadExcept.throw stop : Eval α) post := .refl hm

theorem fail (hm : D.fits m) (token : Token) (cause : RuntimeCause) :
    Keeps D m (Eval.fail token cause : Eval α) post := throw hm _

theorem defect (hm : D.fits m) (d : Defect) : Keeps D m (Eval.defect d : Eval α) post := throw hm _

theorem bind {after : β → Machine → Prop} {p : Eval α} {next : α → Eval β}
    (hp : Keeps D m p post)
    (hnext : ∀ value m', D.Later m m' → post value m' → Keeps D m' (next value) after) :
    Keeps D m (p >>= next) after := by
  show Ends D m after (EStateM.bind p next m)
  unfold EStateM.bind
  unfold Keeps at hp
  cases hresult : p m with
  | error stop m₁ =>
      rw [hresult] at hp
      exact hp
  | ok value m₁ =>
      rw [hresult] at hp
      have hrest : Ends D m₁ after (next value m₁) := hnext value m₁ hp.1 hp.2
      show Ends D m after (next value m₁)
      cases hresult₂ : next value m₁ with
      | error stop m₂ =>
          rw [hresult₂] at hrest
          exact hp.1.trans hrest
      | ok value₂ m₂ =>
          rw [hresult₂] at hrest
          exact ⟨hp.1.trans hrest.1, hrest.2⟩

theorem afterGet {next : Machine → Eval α} (hnext : Keeps D m (next m) post) :
    Keeps D m (MonadState.get >>= next) post := hnext

theorem map {after : β → Machine → Prop} {p : Eval α} {f : α → β} (hp : Keeps D m p post)
    (hf : ∀ value m', post value m' → after (f value) m') : Keeps D m (f <$> p) after := by
  show Keeps D m (p >>= fun value => Pure.pure (f value)) after
  apply hp.bind
  intro value m' hlater hvalue
  exact pure hlater.fits (hf value m' hvalue)

theorem ofExcept {found : Except Stop α} (hm : D.fits m)
    (hfound : ∀ value, found = .ok value → post value m) :
    Keeps D m (Eval.ofExcept found) post := by
  cases found with
  | ok value => exact pure hm (hfound value rfl)
  | error stop => exact throw hm stop

theorem ofLookup {found : Except LookupFault α} (hm : D.fits m)
    (hfound : ∀ value, found = .ok value → post value m) :
    Keeps D m (Eval.ofLookup found) post := by
  cases found with
  | ok value => exact pure hm (hfound value rfl)
  | error fault => exact throw hm _

theorem ofDefect {found : Except Defect α} (hm : D.fits m) :
    Keeps D m (Eval.ofDefect found) anything := by
  cases found with
  | ok value => exact pure hm trivial
  | error d => exact throw hm _

end Keeps

/-!
# Two computations

What is known of the parts of a tree when they are evaluated in one way is also
used to compare that way with another.
-/

/-- Two computations do the same on a machine, and keep a discipline there. -/
structure Tracks (D : Discipline) (m : Machine) (p q : Eval α) (post : α → Machine → Prop) :
    Prop where
  same : p m = q m
  keeps : Keeps D m q post

theorem Keeps.tracks {D : Discipline} {m : Machine} {post : α → Machine → Prop} {p : Eval α}
    (hp : Keeps D m p post) : Tracks D m p p post := ⟨rfl, hp⟩

namespace Tracks

variable {D : Discipline} {m : Machine} {post : α → Machine → Prop}

theorem pure {value : α} (hm : D.fits m) (hvalue : post value m) :
    Tracks D m (Pure.pure value) (Pure.pure value) post := (Keeps.pure hm hvalue).tracks

theorem fail (hm : D.fits m) (token : Token) (cause : RuntimeCause) :
    Tracks D m (Eval.fail token cause : Eval α) (Eval.fail token cause) post :=
  (Keeps.fail hm token cause).tracks

theorem defect (hm : D.fits m) (d : Defect) :
    Tracks D m (Eval.defect d : Eval α) (Eval.defect d) post := (Keeps.defect hm d).tracks

theorem bind {after : β → Machine → Prop} {p q : Eval α} {next next' : α → Eval β}
    (hp : Tracks D m p q post)
    (hnext : ∀ value m', D.Later m m' → post value m' →
      Tracks D m' (next value) (next' value) after) :
    Tracks D m (p >>= next) (q >>= next') after := by
  constructor
  · show EStateM.bind p next m = EStateM.bind q next' m
    unfold EStateM.bind
    rw [hp.same]
    have hends : Ends D m post (q m) := hp.keeps
    cases hresult : q m with
    | error stop m₁ => rfl
    | ok value m₁ =>
        rw [hresult] at hends
        exact (hnext value m₁ hends.1 hends.2).same
  · apply hp.keeps.bind
    intro value m' hlater hvalue
    exact (hnext value m' hlater hvalue).keeps

theorem afterGet {next next' : Machine → Eval α} (hnext : Tracks D m (next m) (next' m) post) :
    Tracks D m (MonadState.get >>= next) (MonadState.get >>= next') post :=
  ⟨hnext.same, hnext.keeps⟩

end Tracks

/-!
# Single steps
-/

section

variable {D : Discipline} (hD : D.Kept) {m : Machine}

include hD

theorem Keeps.within {post : α → Machine → Prop} {e : EnvId} {p : Eval α} (hm : D.fits m)
    (hpost : ∀ value m₁ m₂, (∀ p, D.knows m₁ p → D.knows m₂ p) → post value m₁ → post value m₂)
    (hp : D.Advances m { m with current := e } → Keeps D { m with current := e } p post) :
    Keeps D m (Eval.within e p) post := by
  have henter : D.Advances m { m with current := e } := hD.aside hm ⟨rfl, rfl, rfl, rfl⟩ rfl rfl
  have hends : Ends D { m with current := e } post (p { m with current := e }) := hp henter
  have hleave : ∀ m', D.Later { m with current := e } m' →
      D.Later m { m' with current := m.current } ∧
        ∀ p, D.knows m' p → D.knows { m' with current := m.current } p := by
    intro m' hlater
    have hback : D.Advances m' { m' with current := m.current } :=
      hD.aside hlater.fits ⟨rfl, rfl, rfl, rfl⟩ rfl rfl
    have hadvances : D.Advances m { m' with current := m.current } :=
      ⟨hback.fits, fun p hp => hback.knows p (hlater.knows p (henter.knows p hp))⟩
    exact ⟨hadvances.later rfl, hback.knows⟩
  show Ends D m post (Eval.within e p m)
  unfold Eval.within
  generalize p { m with current := e } = result at hends
  cases result with
  | error stop m' => exact (hleave m' hends).1
  | ok value m' =>
      constructor
      · exact (hleave m' hends.1).1
      · exact hpost value m' _ (hleave m' hends.1).2 hends.2

theorem Tracks.within {post : α → Machine → Prop} {e : EnvId} {p q : Eval α} (hm : D.fits m)
    (hpost : ∀ value m₁ m₂, (∀ p, D.knows m₁ p → D.knows m₂ p) → post value m₁ → post value m₂)
    (hp : D.Advances m { m with current := e } → Tracks D { m with current := e } p q post) :
    Tracks D m (Eval.within e p) (Eval.within e q) post := by
  constructor
  · have henter : D.Advances m { m with current := e } := hD.aside hm ⟨rfl, rfl, rfl, rfl⟩ rfl rfl
    unfold Eval.within
    rw [(hp henter).same]
  · apply Keeps.within hD hm hpost
    intro henter
    exact (hp henter).keeps

theorem keeps_newEnvironment {e : EnvId} {values : Bindings} (hm : D.fits m)
    (he : D.knows m (.env e)) (hvalues : ∀ entry ∈ values, D.Known entry.2 m) :
    Keeps D m (newEnvironment e values) fun e m' => D.knows m' (.env e) := by
  have hcreate := hD.create hm he hvalues
  exact ⟨hcreate.1.later rfl, hcreate.2⟩

theorem keeps_defineHere {name : String} {value : Value} (hm : D.Ready m)
    (hvalue : D.Known value m) : Keeps D m (defineHere name value) anything :=
  ⟨(hD.define hm.fits hm.current hvalue).later rfl, trivial⟩

theorem known_getAt {e : EnvId} {depth : Nat} {name : String} {value : Value} (hm : D.fits m)
    (he : D.knows m (.env e)) (hvalue : m.environments.getAt e depth name = .ok value) :
    D.Known value m := (hD.closed hm).getAt he hvalue

theorem keeps_lookup (hm : D.Ready m) (r : Reference) : Keeps D m (lookup r) D.Known := by
  apply Keeps.afterGet
  split
  · apply Keeps.ofLookup hm.fits
    intro value hvalue
    exact known_getAt hD hm.fits hm.current hvalue
  · unfold Environments.get
    split
    · next value hvalue =>
        apply Keeps.pure hm.fits
        rw [Environments.get?_globals] at hvalue
        exact (hD.closed hm.fits).value (hD.globals hm.fits) hvalue
    · exact .throw hm.fits _

theorem keeps_assignLocal {depth : Nat} {name : String} {value : Value} (hm : D.Ready m)
    (hvalue : D.Known value m) : Keeps D m (assignLocal depth name value) anything := by
  show Ends D m anything (assignLocal depth name value m)
  unfold assignLocal Environments.assignAt
  cases htarget : m.environments.place m.current depth with
  | error fault => exact .refl hm.fits
  | ok target =>
      have hknown : D.knows m (.env target) := (hD.closed hm.fits).place hm.current htarget
      exact ⟨(hD.define hm.fits hknown hvalue).later rfl, trivial⟩

theorem keeps_assignFrom {e : EnvId} {name : Token} {value : Value} (hm : D.fits m)
    (he : D.knows m (.env e)) (hvalue : D.Known value m) :
    Keeps D m (assignFrom e name value) anything := by
  show Ends D m anything (assignFrom e name value m)
  unfold assignFrom Environments.assign Environments.assign?
  cases hholder : m.environments.holder? e name.lexeme with
  | none => exact .refl hm
  | some holder =>
      have hknown : D.knows m (.env holder) := (hD.closed hm).holder? he hholder
      exact ⟨(hD.define hm hknown hvalue).later rfl, trivial⟩

theorem keeps_assign {r : Reference} {value : Value} (hm : D.Ready m)
    (hvalue : D.Known value m) : Keeps D m (assign r value) anything := by
  apply Keeps.afterGet
  split
  · exact keeps_assignLocal hD hm hvalue
  · exact keeps_assignFrom hD hm.fits (hD.globals hm.fits) hvalue

theorem keeps_newFunction {closure : Closure} (hm : D.fits m)
    (henv : D.knows m (.env closure.env)) :
    Keeps D m (newFunction closure) fun f m' => D.knows m' (.function f) := by
  have hadd := hD.addFunction hm henv
  exact ⟨hadd.1.later rfl, hadd.2⟩

theorem keeps_newClass {cls : Class} (hm : D.fits m)
    (hparent : ∀ parent, cls.superclass = some parent → D.knows m (.cls parent))
    (hmethods : ∀ entry ∈ cls.methods, D.knows m (.function entry.2)) :
    Keeps D m (newClass cls) fun c m' => D.knows m' (.cls c) := by
  have hadd := hD.addClass hm hparent hmethods
  exact ⟨hadd.1.later rfl, hadd.2⟩

theorem keeps_newInstance {c : ClassId} (hm : D.fits m) (hc : D.knows m (.cls c)) :
    Keeps D m (newInstance c) fun i m' => D.knows m' (.object i) := by
  have hadd := hD.addInstance hm hc
  exact ⟨hadd.1.later rfl, hadd.2⟩

theorem keeps_setField {i : InstanceId} {name : String} {value : Value} (hm : D.fits m)
    (hi : D.knows m (.object i)) (hvalue : D.Known value m) :
    Keeps D m (setField i name value) anything :=
  ⟨(hD.setField hm hi hvalue).later rfl, trivial⟩

theorem keeps_bindMethod {f : FunctionId} {receiver : Value} (hm : D.fits m)
    (hf : D.knows m (.function f)) (hreceiver : D.Known receiver m) :
    Keeps D m (bindMethod f receiver) fun f m' => D.knows m' (.function f) := by
  apply Keeps.afterGet
  split
  · exact .pure hm hf
  · next closure hclosure =>
      have henv : D.knows m (.env closure.env) := hD.closed hm _ _ hf (.closure hclosure)
      have hthis : ∀ entry ∈ [("this", receiver)], D.Known entry.2 m := by
        intro entry hentry
        rw [List.mem_singleton.mp hentry]
        exact hreceiver
      apply (keeps_newEnvironment hD hm henv hthis).bind
      intro e m₁ h₁ he
      exact keeps_newFunction hD h₁.fits he

theorem keeps_boundMethod {c : ClassId} {name : String} {f : FunctionId} {receiver : Value}
    (hm : D.fits m) (hc : D.knows m (.cls c)) (hreceiver : D.Known receiver m)
    (hfound : m.findMethod c name = some f) :
    Keeps D m (.function <$> bindMethod f receiver) D.Known := by
  have hf : D.knows m (.function f) := (hD.closed hm).findMethod hc hfound
  apply (keeps_bindMethod hD hm hf hreceiver).map
  intro g m' hg
  exact Discipline.known_of_cell? rfl hg

theorem keeps_getProperty {i : InstanceId} {name : Token} (hm : D.fits m)
    (hi : D.knows m (.object i)) : Keeps D m (getProperty i name) D.Known := by
  have hclosed := hD.closed hm
  apply Keeps.afterGet
  split
  · exact .fail hm _ _
  · next object hobject =>
      split
      · next value hvalue =>
          apply Keeps.pure hm
          intro p hp
          exact hclosed _ _ hi (.field hobject (mem_of_lookup hvalue) hp)
      · split
        · next f hfound =>
            have hc : D.knows m (.cls object.cls) := hclosed _ _ hi (.cls hobject)
            exact keeps_boundMethod hD hm hc (Discipline.known_of_cell? rfl hi) hfound
        · exact .fail hm _ _

theorem keeps_superParts (hm : D.Ready m) (keyword : Reference) :
    Keeps D m (superParts keyword) fun parts m' => D.Known parts.1 m' ∧ D.Known parts.2 m' := by
  apply Keeps.afterGet
  split
  · exact .defect hm.fits _
  · next depth _ =>
      -- both values are read on the machine as it was at first
      have hread : ∀ {m' : Machine} (distance : Nat) (name : String), D.Later m m' →
          Keeps D m' (ofLookup (m.environments.getAt m.current distance name)) D.Known := by
        intro m' distance name hlater
        apply Keeps.ofLookup hlater.fits
        intro value hvalue
        exact (known_getAt hD hm.fits hm.current hvalue).mono hlater.knows
      apply (hread depth "super" (.refl hm.fits)).bind
      intro parent m₁ h₁ hparent
      apply (hread (depth - 1) "this" h₁).bind
      intro receiver m₂ h₂ hreceiver
      exact .pure h₂.fits ⟨hparent.mono h₂.knows, hreceiver⟩

theorem keeps_superMethod (hm : D.Ready m) (keyword : Reference) (method : Token) :
    Keeps D m (superMethod keyword method) D.Known := by
  apply (keeps_superParts hD hm keyword).bind
  intro parts m₁ h₁ hparts
  rcases parts with ⟨parent, receiver⟩
  cases parent with
  | cls c =>
      apply Keeps.afterGet
      split
      · next f hfound =>
          exact keeps_boundMethod hD h₁.fits (hparts.1 _ rfl) hparts.2 hfound
      · exact .fail h₁.fits _ _
  | _ => exact .defect h₁.fits _

theorem keeps_emit (hm : D.fits m) (value : Value) : Keeps D m (emit value) anything := by
  have hemit : D.Advances m { m with output := m.output.push (m.print value) } :=
    hD.aside hm ⟨rfl, rfl, rfl, rfl⟩ rfl rfl
  exact ⟨hemit.later rfl, trivial⟩

theorem keeps_callNative {id : NativeId} {arguments : List Value} (hm : D.fits m)
    (harguments : ∀ value ∈ arguments, D.Known value m) :
    Keeps D m (callNative id arguments) D.Known := by
  apply Keeps.afterGet
  split
  · exact .pure hm (Discipline.known_of_no_cell rfl)
  · next native hnative =>
      have hends := hD.native hm (Array.mem_of_getElem? hnative) harguments
      show Ends D m D.Known (onHeap (native.action arguments) m)
      unfold onHeap
      cases haction : native.action arguments m.toHeap with
      | error stop heap =>
          rw [haction] at hends
          exact hends.later rfl
      | ok value heap =>
          rw [haction] at hends
          exact ⟨hends.1.later rfl, hends.2⟩

end

end Eval
end Lox
