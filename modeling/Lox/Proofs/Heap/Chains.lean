import Lox.Proofs.Heap.Frame

/-!
# Chains on the heap

Links between environments and between classes point to what is older.  So from
every environment they lead to the globals, and from every class to one without a
superclass.  The searches along them come to an end, and they end where the
unguarded loops would end: the tests `outer < e` and `parent < c` by which the
searches are seen to be total never cut one short.  Native functions may add to the
heap, as long as their links point to what is older too.
-/

namespace Lox

/-!
# Searches

A derivation is a run of the loop that comes to an end.
-/

/-- Walking outwards from an environment ends with the holder of a name, or outside the root. -/
inductive Environments.Walks (s : Environments) (name : String) : EnvId → Option EnvId → Prop where
  | here {e : EnvId} : (s.values e).binds name = true → Walks s name e (some e)
  | outside {e : EnvId} :
      (s.values e).binds name = false → s.enclosing e = none → Walks s name e none
  | outwards {e outer : EnvId} {holder : Option EnvId} :
      (s.values e).binds name = false → s.enclosing e = some outer →
      Walks s name outer holder → Walks s name e holder

namespace Machine

def superclass? (m : Machine) (c : ClassId) : Option ClassId := m.classes[c]?.bind Class.superclass

def above (m : Machine) : Nat → ClassId → Option ClassId
  | 0, c => some c
  | steps + 1, c => (m.superclass? c).bind (above m steps)

/-- Climbing from a class ends with the method of a name, or above the last class. -/
inductive Climbs (m : Machine) (name : String) : ClassId → Option FunctionId → Prop where
  | here {c : ClassId} {cls : Class} {f : FunctionId} :
      m.classes[c]? = some cls → cls.methods.lookup name = some f → Climbs m name c (some f)
  | over {c : ClassId} {cls : Class} :
      m.classes[c]? = some cls → cls.methods.lookup name = none → cls.superclass = none →
      Climbs m name c none
  | upwards {c parent : ClassId} {cls : Class} {found : Option FunctionId} :
      m.classes[c]? = some cls → cls.methods.lookup name = none →
      cls.superclass = some parent → Climbs m name parent found → Climbs m name c found

/-!
# Grounded machines
-/

/-- From every environment that is held the links lead to the globals, from every class to a top. -/
structure Grounded (m : Machine) : Prop where
  root : m.environments.enclosing globals = none
  current : ∃ steps, m.environments.place m.current steps = .ok globals
  closure : ∀ (f : FunctionId) (closure : Closure), m.functions[f]? = some closure →
    ∃ steps, m.environments.place closure.env steps = .ok globals
  environment : ∀ e < m.environments.size, ∃ steps, m.environments.place e steps = .ok globals
  cls : ∀ c < m.classes.size, ∃ steps top, m.above steps c = some top ∧
    top < m.classes.size ∧ m.superclass? top = none
  walks : ∀ e < m.environments.size, ∀ name,
    m.environments.Walks name e (m.environments.holder? e name)
  climbs : ∀ c < m.classes.size, ∀ name, m.Climbs name c (m.findMethod c name)

end Machine

/-!
# Links to what is older
-/

/-- Only the globals have nothing around them. -/
structure Environments.Rooted (s : Environments) : Prop where
  globals : Machine.globals < s.size
  root : s.enclosing Machine.globals = none
  inner : ∀ e < s.size, e ≠ Machine.globals → ∃ outer, s.enclosing e = some outer

namespace Environments.Rooted

variable {s : Environments}

theorem create (hs : s.Rooted) (outer : EnvId) (values : Bindings) :
    (s.create (some outer) values).Rooted := by
  constructor
  · rw [size_create]
    exact Nat.lt_succ_of_lt hs.globals
  · rw [enclosing_create, if_neg (Nat.ne_of_lt hs.globals)]
    exact hs.root
  · intro e he hne
    rw [size_create] at he
    rw [enclosing_create]
    by_cases hnew : e = s.size
    · rw [if_pos hnew]
      exact ⟨outer, rfl⟩
    · rw [if_neg hnew]
      exact hs.inner e (Nat.lt_of_le_of_ne (Nat.le_of_lt_succ he) hnew) hne

theorem define (hs : s.Rooted) (e : EnvId) (name : String) (value : Value) :
    (s.define e name value).Rooted := by
  constructor
  · rw [size_define]
    exact hs.globals
  · rw [enclosing_define]
    exact hs.root
  · intro k hk hne
    rw [size_define] at hk
    rw [enclosing_define]
    exact hs.inner k hk hne

end Environments.Rooted

namespace Heap

def Has (heap : Heap) : Cell → Prop
  | .env e => e < heap.environments.size
  | .function f => f < heap.functions.size
  | .cls c => c < heap.classes.size
  | .object i => i < heap.instances.size

/-- Cells refer to what there is, and links point to what is older. -/
structure Ordered (heap : Heap) : Prop where
  rooted : heap.environments.Rooted
  links : heap.environments.LinksBack
  has : ∀ p q, heap.Points p q → heap.Has q
  parent_lt : ∀ c parent, heap.Points (.cls c) (.cls parent) → parent < c

theorem SameCells.has {heap heap' : Heap} (hsame : heap.SameCells heap') {p : Cell}
    (hp : heap.Has p) : heap'.Has p := by
  cases p with
  | env e => simpa only [Has, hsame.environments] using hp
  | function f => simpa only [Has, hsame.functions] using hp
  | cls c => simpa only [Has, hsame.classes] using hp
  | object i => simpa only [Has, hsame.instances] using hp

theorem SameCells.ordered {heap heap' : Heap} (hsame : heap.SameCells heap')
    (hheap : heap.Ordered) : heap'.Ordered where
  rooted := hsame.environments ▸ hheap.rooted
  links := hsame.environments ▸ hheap.links
  has p q hpq := hsame.has (hheap.has p q (hpq.aside hsame))
  parent_lt c parent hpq := hheap.parent_lt c parent (hpq.aside hsame)

end Heap

/-- A native function that keeps the order of heaps and hands out what there is. -/
structure Native.Orderly (native : Native) : Prop where
  ordered : ∀ {arguments} {heap : Heap}, heap.Ordered →
    (∀ value ∈ arguments, value.KnownTo heap.Has) →
    (Eval.state (native.action arguments heap)).Ordered
  grows : ∀ arguments (heap : Heap) p, heap.Has p →
    (Eval.state (native.action arguments heap)).Has p
  gives : ∀ {arguments value} {heap heap' : Heap}, heap.Ordered →
    (∀ value ∈ arguments, value.KnownTo heap.Has) →
    native.action arguments heap = .ok value heap' → value.KnownTo heap'.Has

theorem Native.Harmless.orderly {native : Native} (hnative : native.Harmless) :
    native.Orderly where
  ordered hheap _ := (hnative.leaves _ _).ordered hheap
  grows arguments heap _ := (hnative.leaves arguments heap).has
  gives := by
    intro arguments value heap heap' hheap harguments haction p hp
    have hsame := hnative.leaves arguments heap
    rw [haction] at hsame
    apply hsame.has
    apply Heap.Closed.reaches (fun p q _ hpq => hheap.has p q hpq) _
      (hnative.gives haction p hp)
    rintro q (⟨argument, hargument, hq⟩ | rfl)
    · exact harguments argument hargument q hq
    · exact hheap.rooted.globals

namespace Machine

def ordered : Discipline where
  fits m := m.Ordered ∧ ∀ native ∈ m.natives, native.Orderly
  knows m p := m.Has p

section

variable {m m' : Machine}

theorem ordered_change (hm : ordered.fits m) {changed : Cell} {given : Cell → Prop}
    (hnatives : m'.natives = m.natives)
    (hpoints : ∀ p q, m'.Points p q → m.Points p q ∨ p = changed ∧ given q)
    (hgiven : ∀ q, given q → m.Has q)
    (hparent : ∀ c parent, changed = .cls c → given (.cls parent) → parent < c)
    (hrooted : m'.environments.Rooted) (hlinks : m'.environments.LinksBack)
    (hgrows : ∀ p, m.Has p → m'.Has p) : ordered.Advances m m' := by
  constructor
  · constructor
    · constructor
      · exact hrooted
      · exact hlinks
      · intro p q hpq
        rcases hpoints p q hpq with hold | ⟨_, hq⟩
        · exact hgrows q (hm.1.has p q hold)
        · exact hgrows q (hgiven q hq)
      · intro c parent hpq
        rcases hpoints _ _ hpq with hold | ⟨hchanged, hq⟩
        · exact hm.1.parent_lt c parent hold
        · exact hparent c parent hchanged.symm hq
    · exact hnatives ▸ hm.2
  · exact hgrows

theorem has_push {all : Array α} {added : α} {k : Nat} (hk : k < all.size) :
    k < (all.push added).size := by
  rw [Array.size_push]
  exact Nat.lt_succ_of_lt hk

theorem has_pushed (all : Array α) (added : α) : all.size < (all.push added).size := by
  rw [Array.size_push]
  exact Nat.lt_succ_self _

theorem ordered_create {e : EnvId} {values : Bindings} (hm : ordered.fits m)
    (he : m.Has (.env e)) (hvalues : ∀ entry ∈ values, ordered.Known entry.2 m) :
    let m' := { m with environments := m.environments.create (some e) values }
    ordered.Advances m m' ∧ m'.Has (.env m.environments.size) := by
  constructor
  · refine ordered_change hm rfl (fun p q => Heap.Points.create) ?_ ?_ (hm.1.rooted.create e values)
      (hm.1.links.create ?_ values) ?_
    · rintro q (rfl | ⟨entry, hentry, hq⟩)
      · exact he
      · exact hvalues entry hentry q hq
    · intro c parent hc
      cases hc
    · rintro outer ⟨⟩
      exact he
    · intro p hp
      cases p with
      | env k => exact has_push hp
      | function | cls | object => exact hp
  · exact has_pushed _ _

theorem ordered_define {e : EnvId} {name : String} {value : Value} (hm : ordered.fits m)
    (hvalue : ordered.Known value m) :
    ordered.Advances m { m with environments := m.environments.define e name value } := by
  refine ordered_change hm rfl (fun p q => Heap.Points.define) hvalue ?_
    (hm.1.rooted.define e name value) (hm.1.links.define e name value) ?_
  · intro c parent hc
    cases hc
  · intro p hp
    cases p with
    | env k =>
        show k < (m.environments.define e name value).size
        rw [Environments.size_define]
        exact hp
    | function | cls | object => exact hp

theorem ordered_native {native : Native} {arguments : List Value} (hm : ordered.fits m)
    (hnative : native ∈ m.natives) (harguments : ∀ value ∈ arguments, ordered.Known value m) :
    ordered.AdvancesBy m (native.action arguments m.toHeap) := by
  have horderly : native.Orderly := hm.2 native hnative
  have hordered := horderly.ordered hm.1 harguments
  have hgrows := horderly.grows arguments m.toHeap
  cases haction : native.action arguments m.toHeap with
  | error stop heap =>
      rw [haction] at hordered hgrows
      exact ⟨⟨hordered, hm.2⟩, hgrows⟩
  | ok value heap =>
      rw [haction] at hordered hgrows
      exact ⟨⟨⟨hordered, hm.2⟩, hgrows⟩, horderly.gives hm.1 harguments haction⟩

theorem ordered_kept : ordered.Kept where
  globals hm := hm.1.rooted.globals
  closed hm p q _ hpq := hm.1.has p q hpq
  aside hm hsame hnatives _ := ⟨⟨hsame.ordered hm.1, hnatives ▸ hm.2⟩, fun _ => hsame.has⟩
  native := ordered_native
  create := ordered_create
  define hm _ hvalue := ordered_define hm hvalue
  addFunction := by
    intro m closure hm henv
    constructor
    · refine ordered_change hm rfl (fun p q => Heap.Points.addFunction) ?_ ?_ hm.1.rooted
        hm.1.links ?_
      · rintro q rfl
        exact henv
      · intro c parent hc
        cases hc
      · intro p hp
        cases p with
        | function f => exact has_push hp
        | env | cls | object => exact hp
    · exact has_pushed _ _
  addClass := by
    intro m cls hm hparent hmethods
    constructor
    · refine ordered_change hm rfl (fun p q => Heap.Points.addClass) ?_ ?_ hm.1.rooted
        hm.1.links ?_
      · rintro q (⟨parent, hsuperclass, rfl⟩ | ⟨entry, hentry, rfl⟩)
        · exact hparent parent hsuperclass
        · exact hmethods entry hentry
      · rintro c parent hc (⟨other, hsuperclass, hother⟩ | ⟨entry, _, hentry⟩)
        · cases hc
          cases hother
          exact hparent parent hsuperclass
        · cases hentry
      · intro p hp
        cases p with
        | cls c => exact has_push hp
        | env | function | object => exact hp
    · exact has_pushed _ _
  addInstance := by
    intro m c hm hc
    constructor
    · refine ordered_change hm rfl (fun p q => Heap.Points.addInstance) ?_ ?_ hm.1.rooted
        hm.1.links ?_
      · rintro q rfl
        exact hc
      · intro c parent hc
        cases hc
      · intro p hp
        cases p with
        | object i => exact has_push hp
        | env | function | cls => exact hp
    · exact has_pushed _ _
  setField := by
    intro m i name value hm _ hvalue
    refine ordered_change hm rfl (fun p q => Heap.Points.setField) hvalue ?_ hm.1.rooted
      hm.1.links ?_
    · intro c parent hc
      cases hc
    · intro p hp
      cases p with
      | object k =>
          show k < (m.instances.modify i _).size
          rw [Array.size_modify]
          exact hp
      | env | function | cls => exact hp

/-!
# Ordered machines are grounded
-/

theorem superclass_lt (hm : m.Ordered) {c parent : ClassId} {cls : Class}
    (hcls : m.classes[c]? = some cls) (hparent : cls.superclass = some parent) : parent < c :=
  hm.parent_lt c parent (.superclass hcls hparent)

theorem exists_place (hm : m.Ordered) {e : EnvId} (he : e < m.environments.size) :
    ∃ steps, m.environments.place e steps = .ok globals := by
  induction e using Nat.strongRecOn with
  | ind e ih =>
      by_cases hglobals : e = globals
      · rw [hglobals]
        exact ⟨0, rfl⟩
      · rcases hm.rooted.inner e he hglobals with ⟨outer, houter⟩
        have hlt : outer < e := hm.links _ _ houter
        rcases ih outer hlt (Nat.lt_trans hlt he) with ⟨steps, hsteps⟩
        exact ⟨steps + 1, (Environments.place_succ houter steps).trans hsteps⟩

theorem walks_holder? (hm : m.Ordered) (e : EnvId) (name : String) :
    m.environments.Walks name e (m.environments.holder? e name) := by
  induction e using Nat.strongRecOn with
  | ind e ih =>
      rw [Environments.holder?]
      cases hbinds : (m.environments.values e).binds name with
      | true => exact .here hbinds
      | false =>
          cases houter : m.environments.enclosing e with
          | none => exact .outside hbinds houter
          | some outer =>
              have hlt : outer < e := hm.links _ _ houter
              simp only [if_pos hlt, Bool.false_eq_true, if_false]
              exact .outwards hbinds houter (ih outer hlt)

theorem exists_top (hm : m.Ordered) {c : ClassId} (hc : c < m.classes.size) :
    ∃ steps top, m.above steps c = some top ∧ top < m.classes.size ∧
      m.superclass? top = none := by
  induction c using Nat.strongRecOn with
  | ind c ih =>
      cases hparent : m.superclass? c with
      | none => exact ⟨0, c, rfl, hc, hparent⟩
      | some parent =>
          rcases Option.bind_eq_some_iff.mp hparent with ⟨cls, hcls, hsuperclass⟩
          have hlt : parent < c := superclass_lt hm hcls hsuperclass
          rcases ih parent hlt (Nat.lt_trans hlt hc) with ⟨steps, top, habove, htop, hnone⟩
          refine ⟨steps + 1, top, ?_, htop, hnone⟩
          rw [above, hparent]
          exact habove

theorem climbs_findMethod (hm : m.Ordered) {c : ClassId} (hc : c < m.classes.size)
    (name : String) : m.Climbs name c (m.findMethod c name) := by
  induction c using Nat.strongRecOn with
  | ind c ih =>
      have hcls : m.classes[c]? = some m.classes[c] := Array.getElem?_eq_getElem hc
      generalize m.classes[c] = cls at hcls
      rw [findMethod, hcls]
      simp only
      cases hmethod : cls.methods.lookup name with
      | some f => exact .here hcls hmethod
      | none =>
          cases hparent : cls.superclass with
          | none => exact .over hcls hmethod hparent
          | some parent =>
              have hlt : parent < c := superclass_lt hm hcls hparent
              simp only [if_pos hlt]
              exact .upwards hcls hmethod hparent (ih parent hlt (Nat.lt_trans hlt hc))

theorem grounded_of_ready (hm : ordered.Ready m) : m.Grounded := by
  have hordered : m.Ordered := hm.fits.1
  constructor
  · exact hordered.rooted.root
  · exact exists_place hordered hm.current
  · intro f closure hclosure
    exact exists_place hordered (hordered.has _ _ (.closure hclosure))
  · exact fun e he => exists_place hordered he
  · exact fun c hc => exists_top hordered hc
  · exact fun e _ name => walks_holder? hordered e name
  · exact fun c hc name => climbs_findMethod hordered hc name

end

/-!
# Sessions
-/

theorem ordered_initial (clock : Nat → Number) : ordered.Ready (initial clock) := by
  have hzero : ∀ e, e < 1 → e = globals := fun e he => Nat.lt_one_iff.mp he
  have hpoints : ∀ p q, ¬ (initial clock).Points p q := by
    intro p q hpq
    have hmem := hpq.mem_references
    cases p with
    | env e =>
        by_cases he : e < 1
        · cases hzero e he
          cases hmem
        · have hfresh : (initial clock).Fresh (.env e) := Nat.le_of_not_lt he
          exact hfresh.not_points hpq
    | function | cls | object =>
        simp [Heap.references, initial] at hmem
  constructor
  · constructor
    · constructor
      · constructor
        · exact Nat.zero_lt_one
        · rfl
        · exact fun e he hne => absurd (hzero e he) hne
      · exact fun e outer houter => (hpoints _ _ (.enclosing houter)).elim
      · exact fun p q hpq => (hpoints p q hpq).elim
      · exact fun c parent hpq => (hpoints _ _ hpq).elim
    · intro native hnative
      rw [Array.mem_singleton.mp hnative]
      exact Native.harmless_clock.orderly
  · exact Nat.zero_lt_one

theorem ordered_addNative {m : Machine} (hm : ordered.Ready m) {native : Native}
    (hnative : native.Orderly) : ordered.Ready (m.addNative native) := by
  have hvalue : ordered.Known (.native m.natives.size) m := Discipline.known_of_no_cell rfl
  let environments := m.environments.define globals native.name (.native m.natives.size)
  have hdefine : ordered.Advances m { m with environments } := ordered_define hm.fits hvalue
  refine ⟨⟨hdefine.fits.1, ?_⟩, hdefine.knows _ hm.current⟩
  intro other hother
  rcases Array.mem_push.mp hother with hold | rfl
  · exact hm.fits.2 other hold
  · exact hnative

end Machine

namespace Eval

/--
A property holds whenever an expression is about to be evaluated: to stop there and look makes
no difference, whatever one would do if the property did not hold.
-/
def Throughout (holds : Machine → Prop) (n : Nat) (program : List Stmt) (m : Machine) : Prop :=
  ∀ watch : Expr → Eval Unit, (∀ e m', holds m' → watch e m' = .ok () m') →
    interpretWith watch n program m = interpret n program m

theorem throughout_of_kept {D : Discipline} (hD : D.Kept) {holds : Machine → Prop}
    (hholds : ∀ m, D.Ready m → holds m) (n : Nat) (program : List Stmt) {m : Machine}
    (hm : D.Ready m) : Throughout holds n program m := by
  intro watch hwatch
  have hpass : ∀ m e, D.Ready m → watch e m = .ok () m :=
    fun m e hm => hwatch e m (hholds m hm)
  exact (tracks_executeAll (tracks_evaluation hD hpass n).2.1 hm program).same

theorem ready_interpret {D : Discipline} (hD : D.Kept) (n : Nat) (program : List Stmt)
    {m : Machine} (hm : D.Ready m) : D.Ready (state (interpret n program m)) :=
  hm.later (keeps_interpret hD n program hm).later

end Eval

namespace Session

theorem ready_takeAll (flags : Flags) (clock : Nat → Number) {steps : List Step}
    (hnatives : ∀ native, .native native ∈ steps → native.Orderly) :
    Machine.ordered.Ready ((startWith flags clock).takeAll steps).machine := by
  apply holds_takeAll Machine.ordered.Ready
  · exact Machine.ordered_initial
  · exact fun _ _ hm => ⟨hm.fits, hm.current⟩
  · intro m n source program _ hm
    have hload : Machine.ordered.Ready (m.load program) := ⟨hm.fits, hm.current⟩
    have hrun := Eval.ready_interpret Machine.ordered_kept n (m.numbered program) hload
    have haside : Machine.ordered.Advances _ (machineAfter m n program) :=
      Machine.ordered_kept.aside hrun.fits ⟨rfl, rfl, rfl, rfl⟩ rfl rfl
    exact ⟨haside.fits, haside.knows _ hrun.current⟩
  · exact fun _ native hnative hm => Machine.ordered_addNative hm (hnatives native hnative)

/--
The chains of a session are well founded at any time: between two steps, whenever an expression
of a program is about to be evaluated, and when the program has ended, in whatever way; and that
whatever is known of the nodes of the program.
-/
theorem grounded_always (flags : Flags) (clock : Nat → Number) (steps : List Step)
    (hnatives : ∀ native, .native native ∈ steps → native.Orderly) (n : Nat)
    (program : List Stmt) (locals : Locals) :
    let m : Machine := { ((startWith flags clock).takeAll steps).machine with locals }
    m.Grounded ∧ Eval.Throughout Machine.Grounded n program m ∧
      (Eval.state (Eval.interpret n program m)).Grounded := by
  intro m
  have hbetween := ready_takeAll flags clock hnatives
  have hm : Machine.ordered.Ready m := ⟨hbetween.fits, hbetween.current⟩
  constructor
  · exact Machine.grounded_of_ready hm
  constructor
  · exact Eval.throughout_of_kept Machine.ordered_kept (fun _ => Machine.grounded_of_ready) n
      program hm
  · exact Machine.grounded_of_ready (Eval.ready_interpret Machine.ordered_kept n program hm)

/-- The class `A` at the end inherits from a class that inherits from the first class `A`. -/
theorem grounded_always_redeclared :
    let steps : List Step := [.native .twice,
      .act (.run 20 "class A {} class B < A {} class A < B {}")]
    let m := ((startWith {} (steadyClock 0)).takeAll steps).machine
    (m.above 1 2 = some 1 ∧ m.above 2 2 = some 0 ∧ m.superclass? 0 = none ∧
      m.className 2 = m.className 0) ∧ m.Grounded := by
  intro steps m
  have hnatives : ∀ native, .native native ∈ steps → native.Orderly := by
    intro native hnative
    rcases List.mem_cons.mp hnative with hfirst | hrest
    · injection hfirst with hfirst
      rw [hfirst]
      exact Native.harmless_twice.orderly
    · simp at hrest
  exact ⟨by decide +kernel, (grounded_always {} (steadyClock 0) steps hnatives 0 [] m.locals).1⟩

end Session
end Lox
