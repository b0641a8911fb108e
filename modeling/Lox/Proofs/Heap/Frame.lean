import Lox.Proofs.Heap.Current
import Lox.Proofs.Heap.Evaluate

/-!
# The frame of a call

A call can get hold of what its callable, its arguments and the globals reach,
and of what it makes itself.  Everything else that existed before the call is the
same afterwards, however the call ends.  In particular the variables around the
call keep their values, unless they are in an environment that was captured by a
function within reach.  Native functions are asked to be harmless.
-/

namespace Lox

/-- Of the old items, only those in `changed` may differ. -/
structure Preserved (changed : Nat → Prop) (all all' : Array α) : Prop where
  size : all.size ≤ all'.size
  getElem? : ∀ k < all.size, ¬ changed k → all'[k]? = all[k]?

namespace Preserved

variable {changed : Nat → Prop} {all all' : Array α}

theorem refl (all : Array α) : Preserved changed all all := ⟨Nat.le_refl _, fun _ _ _ => rfl⟩

theorem push (h : Preserved changed all all') (added : α) :
    Preserved changed all (all'.push added) := by
  constructor
  · rw [Array.size_push]
    exact Nat.le_succ_of_le h.size
  · intro k hk hunchanged
    rw [Array.getElem?_push, if_neg (Nat.ne_of_lt (Nat.lt_of_lt_of_le hk h.size))]
    exact h.getElem? k hk hunchanged

theorem modify (h : Preserved changed all all') {i : Nat} {f : α → α}
    (hi : i < all.size → changed i) : Preserved changed all (all'.modify i f) := by
  constructor
  · rw [Array.size_modify]
    exact h.size
  · intro k hk hunchanged
    have hne : i ≠ k := by
      intro heq
      exact hunchanged (heq ▸ hi (heq ▸ hk))
    rw [Array.getElem?_modify, if_neg hne]
    exact h.getElem? k hk hunchanged

end Preserved

namespace Machine

/-- Of what there was, only the bindings and fields of the touched cells may differ. -/
structure Frame (m : Machine) (touched : Cell → Prop) (m' : Machine) : Prop where
  environments : Preserved (fun e => touched (.env e)) m.environments.all m'.environments.all
  enclosing : ∀ e < m.environments.size, m'.environments.enclosing e = m.environments.enclosing e
  functions : Preserved (fun _ => False) m.functions m'.functions
  classes : Preserved (fun _ => False) m.classes m'.classes
  instances : Preserved (fun i => touched (.object i)) m.instances m'.instances

def Fresh (m : Machine) : Cell → Prop
  | .env e => m.environments.size ≤ e
  | .function f => m.functions.size ≤ f
  | .cls c => m.classes.size ≤ c
  | .object i => m.instances.size ≤ i

theorem Fresh.not_points {m : Machine} {p q : Cell} (hp : m.Fresh p) : ¬ m.Points p q := by
  intro hpoints
  cases hpoints with
  | enclosing houter =>
      rw [Environments.enclosing, Array.getElem?_eq_none hp] at houter
      cases houter
  | binding hentry _ =>
      rw [Environments.values, Array.getElem?_eq_none hp] at hentry
      cases hentry
  | closure hclosure =>
      rw [Array.getElem?_eq_none hp] at hclosure
      cases hclosure
  | superclass hcls _ | method hcls _ =>
      rw [Array.getElem?_eq_none hp] at hcls
      cases hcls
  | cls hobject | field hobject _ _ =>
      rw [Array.getElem?_eq_none hp] at hobject
      cases hobject

namespace Frame

variable {m m' : Machine} {touched : Cell → Prop}

theorem refl (m : Machine) (touched : Cell → Prop) : m.Frame touched m :=
  ⟨.refl _, fun _ _ => rfl, .refl _, .refl _, .refl _⟩

theorem create (h : m.Frame touched m') (outer : Option EnvId) (values : Bindings) :
    m.Frame touched { m' with environments := m'.environments.create outer values } := by
  constructor
  · exact h.environments.push _
  · intro e he
    have hne : e ≠ m'.environments.size := Nat.ne_of_lt (Nat.lt_of_lt_of_le he h.environments.size)
    rw [Environments.enclosing_create, if_neg hne]
    exact h.enclosing e he
  · exact h.functions
  · exact h.classes
  · exact h.instances

theorem define (h : m.Frame touched m') {e : EnvId} (name : String) (value : Value)
    (he : e < m.environments.size → touched (.env e)) :
    m.Frame touched { m' with environments := m'.environments.define e name value } := by
  constructor
  · show Preserved _ _ (m'.environments.all.modify e fun env =>
      { env with values := env.values.insert name value })
    exact h.environments.modify he
  · intro k hk
    rw [Environments.enclosing_define]
    exact h.enclosing k hk
  · exact h.functions
  · exact h.classes
  · exact h.instances

theorem setField (h : m.Frame touched m') {i : InstanceId} (name : String) (value : Value)
    (hi : i < m.instances.size → touched (.object i)) :
    m.Frame touched { m' with
      instances := m'.instances.modify i fun object =>
        { object with fields := object.fields.insert name value } } := by
  constructor
  · exact h.environments
  · exact h.enclosing
  · exact h.functions
  · exact h.classes
  · show Preserved _ _ (m'.instances.modify i fun object =>
      { object with fields := object.fields.insert name value })
    exact h.instances.modify hi

theorem outwards (h : m.Frame touched m') {depth : Nat} {place : Option EnvId} {target : EnvId}
    (htarget : m.environments.outwards depth place = .ok (some target)) :
    m'.environments.outwards depth place = .ok (some target) := by
  induction depth generalizing place with
  | zero => exact htarget
  | succ depth ih =>
      cases place with
      | none => cases htarget
      | some e =>
          rw [Environments.outwards] at htarget ⊢
          by_cases he : e < m.environments.size
          · rw [h.enclosing e he]
            exact ih htarget
          · have hnone : m.environments.enclosing e = none := by
              rw [Environments.enclosing, Array.getElem?_eq_none (Nat.le_of_not_lt he)]
            rw [hnone] at htarget
            cases depth <;> cases htarget

theorem getAt (h : m.Frame touched m') {e target : EnvId} {depth : Nat} {name : String}
    {value : Value} (htarget : m.environments.place e depth = .ok target)
    (huntouched : ¬ touched (.env target))
    (hvalue : m.environments.getAt e depth name = .ok value) :
    m'.environments.getAt e depth name = .ok value := by
  have hplace : m'.environments.place e depth = .ok target := by
    unfold Environments.place at htarget ⊢
    split at htarget
    · next hancestor =>
        rw [Environments.ancestor, h.outwards hancestor]
        exact htarget
    · cases htarget
    · cases htarget
  unfold Environments.getAt at hvalue ⊢
  simp only [htarget] at hvalue
  simp only [hplace]
  have hexists : target < m.environments.size := by
    apply Nat.lt_of_not_le
    intro hsize
    simp only [Environments.values, Array.getElem?_eq_none hsize] at hvalue
    cases hvalue
  have hvalues : m'.environments.values target = m.environments.values target := by
    unfold Environments.values
    rw [h.environments.getElem? target hexists huntouched]
  rw [hvalues]
  exact hvalue

end Frame

/-!
# What a call can get hold of
-/

section

variable (m : Machine) (roots : Cell → Prop)

structure Confined (m' : Machine) : Prop where
  frame : m.Frame (m.Reaches roots) m'
  closed : m'.Closed fun p => m.Reaches roots p ∨ m.Fresh p
  harmless : ∀ native ∈ m'.natives, native.Harmless

/-- The discipline of a computation that starts from some cells of a machine. -/
def confined : Discipline where
  fits := m.Confined roots
  knows _ p := m.Reaches roots p ∨ m.Fresh p

variable {m roots}

theorem Confined.advances {m₁ m₂ : Machine} {changed : Cell} {given : Cell → Prop}
    (h₁ : m.Confined roots m₁) (hframe : m.Frame (m.Reaches roots) m₂)
    (hnatives : m₂.natives = m₁.natives)
    (hpoints : ∀ p q, m₂.Points p q → m₁.Points p q ∨ p = changed ∧ given q)
    (hgiven : ∀ q, given q → (m.confined roots).knows m₁ q) :
    (m.confined roots).Advances m₁ m₂ := by
  constructor
  · constructor
    · exact hframe
    · intro p q hp hq
      rcases hpoints p q hq with hold | ⟨_, hq⟩
      · exact h₁.closed p q hp hold
      · exact hgiven q hq
    · exact hnatives ▸ h₁.harmless
  · exact fun _ hp => hp

theorem Confined.aside {m₁ m₂ : Machine} (h₁ : m.Confined roots m₁)
    (hsame : m₁.SameCells m₂.toHeap) (hnatives : m₂.natives = m₁.natives) :
    (m.confined roots).Advances m₁ m₂ := by
  constructor
  · constructor
    · constructor
      · exact hsame.environments ▸ h₁.frame.environments
      · exact hsame.environments ▸ h₁.frame.enclosing
      · exact hsame.functions ▸ h₁.frame.functions
      · exact hsame.classes ▸ h₁.frame.classes
      · exact hsame.instances ▸ h₁.frame.instances
    · intro p q hp hpoints
      exact h₁.closed p q hp (hpoints.aside hsame)
    · exact hnatives ▸ h₁.harmless
  · exact fun _ hp => hp

theorem confined_kept (hglobals : roots (.env globals)) : (m.confined roots).Kept where
  globals _ := Or.inl (.root hglobals)
  closed h₁ := h₁.closed
  aside h₁ hsame hnatives _ := h₁.aside hsame hnatives
  native := by
    intro m₁ native arguments h₁ hnative harguments
    exact Discipline.advancesBy_of_harmless (h₁.harmless native hnative)
      (Or.inl (.root hglobals)) h₁.closed harguments fun hsame hnatives _ => h₁.aside hsame hnatives
  create := by
    intro m₁ e values h₁ he hvalues
    constructor
    · refine h₁.advances (h₁.frame.create _ _) rfl (fun p q => Heap.Points.create) ?_
      intro q hq
      rcases hq with rfl | ⟨entry, hentry, hq⟩
      · exact he
      · exact hvalues entry hentry q hq
    · exact Or.inr h₁.frame.environments.size
  define := by
    intro m₁ e name value h₁ he hvalue
    refine h₁.advances ?_ rfl (fun p q => Heap.Points.define) hvalue
    apply h₁.frame.define
    intro hexists
    exact he.resolve_right (Nat.not_le_of_lt hexists)
  addFunction := by
    intro m₁ closure h₁ henv
    constructor
    · refine h₁.advances ?_ rfl (fun p q => Heap.Points.addFunction) ?_
      · exact { h₁.frame with functions := h₁.frame.functions.push _ }
      · intro q hq
        rw [hq]
        exact henv
    · exact Or.inr h₁.frame.functions.size
  addClass := by
    intro m₁ cls h₁ hparent hmethods
    constructor
    · refine h₁.advances ?_ rfl (fun p q => Heap.Points.addClass) ?_
      · exact { h₁.frame with classes := h₁.frame.classes.push _ }
      · intro q hq
        rcases hq with ⟨parent, hsuperclass, rfl⟩ | ⟨entry, hentry, rfl⟩
        · exact hparent parent hsuperclass
        · exact hmethods entry hentry
    · exact Or.inr h₁.frame.classes.size
  addInstance := by
    intro m₁ c h₁ hc
    constructor
    · refine h₁.advances ?_ rfl (fun p q => Heap.Points.addInstance) ?_
      · exact { h₁.frame with instances := h₁.frame.instances.push _ }
      · intro q hq
        rw [hq]
        exact hc
    · exact Or.inr h₁.frame.instances.size
  setField := by
    intro m₁ i name value h₁ hi hvalue
    refine h₁.advances ?_ rfl (fun p q => Heap.Points.setField) hvalue
    apply h₁.frame.setField
    intro hexists
    exact hi.resolve_right (Nat.not_le_of_lt hexists)

theorem confined_self (hnatives : ∀ native ∈ m.natives, native.Harmless) :
    m.Confined roots m := by
  constructor
  · exact .refl m _
  · intro p q hp hpoints
    rcases hp with hreached | hfresh
    · exact Or.inl (.step hreached hpoints)
    · exact absurd hpoints hfresh.not_points
  · exact hnatives

end

end Machine

namespace Eval

def callRoots (f : Callable) (arguments : List Value) (p : Cell) : Prop :=
  f.cell? = some p ∨ (∃ value ∈ arguments, value.Holds p) ∨ p = .env Machine.globals

/--
A call leaves everything as it was that its callable, its arguments and the
globals do not reach, and comes back to the environment from which it was made.
-/
theorem call_unreachable_unchanged (m : Machine) (n : Nat) (f : Callable)
    (arguments : List Value) (hnatives : ∀ native ∈ m.natives, native.Harmless) :
    let reached := m.Reaches (callRoots f arguments)
    let m' := state (call n f arguments m)
    m.Frame reached m' ∧ m'.current = m.current ∧
      ∀ (depth : Nat) (name : String) (target : EnvId) (value : Value),
        m.environments.place m.current depth = .ok target → ¬ reached (.env target) →
        m.environments.getAt m.current depth name = .ok value →
        m'.environments.getAt m'.current depth name = .ok value := by
  intro reached m'
  have hkept : (m.confined (callRoots f arguments)).Kept :=
    Machine.confined_kept (Or.inr (Or.inr rfl))
  have hframe : m.Frame reached m' := by
    have hkeeps := (keeps_evaluation hkept n).2.2 m f arguments (Machine.confined_self hnatives)
    refine (hkeeps ?_ ?_).later.fits.frame
    · intro p hp
      exact Or.inl (.root (Or.inl hp))
    · intro value hvalue p hp
      exact Or.inl (.root (Or.inr (Or.inl ⟨value, hvalue, hp⟩)))
  have hcurrent : m'.current = m.current := (blind_call n f arguments).restores m
  refine ⟨hframe, hcurrent, ?_⟩
  intro depth name target value htarget hunreached hvalue
  rw [hcurrent]
  exact hframe.getAt htarget hunreached hvalue

end Eval

namespace Native

def twice : Native where
  name := "twice"
  arity := 1
  action
    | [.number x], heap => .ok (.number (x.mul (.ofNat 2))) heap
    | [.text s], heap => .ok (.text (s ++ s)) heap
    | _, heap => .error (.defect .noToken) heap

theorem harmless_twice : twice.Harmless := by
  constructor
  · intro arguments heap
    unfold twice
    dsimp only
    split <;> exact ⟨rfl, rfl, rfl, rfl⟩
  · intro arguments value heap heap' haction p hp
    unfold twice at haction
    dsimp only at haction
    split at haction
    · injection haction with hvalue _
      rw [← hvalue] at hp
      cases hp
    · injection haction with hvalue _
      rw [← hvalue] at hp
      cases hp
    · cases haction

theorem plain_twice : twice.Plain fun _ => True where
  leaves arguments heap := by
    refine ⟨heap.readings, ?_⟩
    unfold twice
    dsimp only
    split <;> rfl
  blind := by
    intro arguments heap heap' _ _ _ hreadings
    unfold twice
    dsimp only
    split <;> exact ⟨rfl, hreadings⟩
  gives := by
    intro arguments heap f haction
    unfold twice at haction
    dsimp only at haction
    split at haction <;> cases haction
  stops _ := trivial

end Native

namespace Eval

/--
A function that doubles the variable `n` that it captured.  The variable `n` around
the call stays as it is, and so does the instance that is held there.
-/
theorem call_unreachable_unchanged_captured :
    let n : Reference := ⟨⟨.identifier, "n", .nil, 1⟩, 0⟩
    let paren : Token := ⟨.rightParen, ")", .nil, 1⟩
    let double : Expr := .call (.var ⟨⟨.identifier, "twice", .nil, 1⟩, 1⟩) paren [.var n]
    let f : Function := ⟨⟨.identifier, "f", .nil, 1⟩, [], [.expression (.assign n double)]⟩
    let m : Machine := { Machine.initial (steadyClock 0) with
      environments := ⟨#[
        ⟨[("clock", .native 0), ("twice", .native 1)], none⟩,
        ⟨[("n", .text "captured")], some 0⟩,
        ⟨[("n", .text "around"), ("f", .function 0), ("box", .object 0)], some 0⟩]⟩
      functions := #[⟨f, 1, false, none⟩]
      classes := #[⟨"Box", none, []⟩]
      instances := #[⟨0, [("size", .text "small")]⟩]
      natives := #[.clock, .twice]
      current := 2
      locals := ⟨#[some ⟨.variable, n.name, 1⟩, none]⟩ }
    let m' := state (call 20 (.function 0) [] m)
    (m'.environments.values 1).get? "n" = some (.text "capturedcaptured") ∧
      m'.environments.getAt m'.current 0 "n" = .ok (.text "around") ∧
      m'.instances[0]? = some ⟨0, [("size", .text "small")]⟩ := by
  intro n paren double f m m'
  have hunreached : ∀ p ∈ [Cell.env 2, .object 0], ¬ m.Reaches (callRoots (.function 0) []) p := by
    intro p hp hreached
    have hmem : p ∈ [Cell.env 0, .env 1, .function 0] := by
      apply hreached.mem_of_closed
      · intro root hroot
        rcases hroot with hcallee | ⟨value, hvalue, _⟩ | hglobals
        · cases hcallee
          decide
        · cases hvalue
        · rw [hglobals]
          decide
      · decide
    clear hreached
    revert p
    decide
  have hnatives : ∀ native ∈ m.natives, native.Harmless := by
    simp [m, Native.harmless_clock, Native.harmless_twice]
  have hcall := call_unreachable_unchanged m 20 (.function 0) [] hnatives
  refine ⟨by decide +kernel, ?_, ?_⟩
  · exact hcall.2.2 0 "n" 2 (.text "around") rfl (hunreached _ (by decide)) rfl
  · exact hcall.1.instances.getElem? 0 (by decide) (hunreached _ (by decide))

end Eval
end Lox
