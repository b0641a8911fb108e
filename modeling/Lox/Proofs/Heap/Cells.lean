import Lox.Evaluate
import Lox.Proofs.Machine

/-!
# Cells on the heap

Environments, functions, classes and instances refer to each other: through the
links between environments, through variables and fields, through the
environments of functions, and through the superclasses and methods of classes.
What a program can get hold of from some cells are the cells that they reach.
-/

namespace Lox

inductive Cell where
  | env (id : EnvId)
  | function (id : FunctionId)
  | cls (id : ClassId)
  | object (id : InstanceId)
deriving DecidableEq, Repr

namespace Value

def cell? : Value → Option Cell
  | function id => some (.function id)
  | cls id => some (.cls id)
  | object id => some (.object id)
  | _ => none

def Holds (value : Value) (p : Cell) : Prop := value.cell? = some p

def KnownTo (known : Cell → Prop) (value : Value) : Prop := ∀ p, value.Holds p → known p

end Value

namespace Callable

def cell? : Callable → Option Cell
  | native _ => none
  | function id => some (.function id)
  | cls id => some (.cls id)

theorem cell?_of_callable? {value : Value} {f : Callable} (hf : value.callable? = some f) :
    f.cell? = value.cell? := by
  cases value <;> cases hf <;> rfl

end Callable

namespace Heap

/-- One cell refers to another. -/
inductive Points (heap : Heap) : Cell → Cell → Prop where
  | enclosing {e outer : EnvId} :
      heap.environments.enclosing e = some outer → Points heap (.env e) (.env outer)
  | binding {e : EnvId} {entry : String × Value} {p : Cell} :
      entry ∈ heap.environments.values e → entry.2.Holds p → Points heap (.env e) p
  | closure {f : FunctionId} {closure : Closure} :
      heap.functions[f]? = some closure → Points heap (.function f) (.env closure.env)
  | superclass {c parent : ClassId} {cls : Class} :
      heap.classes[c]? = some cls → cls.superclass = some parent →
      Points heap (.cls c) (.cls parent)
  | method {c : ClassId} {cls : Class} {entry : String × FunctionId} :
      heap.classes[c]? = some cls → entry ∈ cls.methods →
      Points heap (.cls c) (.function entry.2)
  | cls {i : InstanceId} {object : Instance} :
      heap.instances[i]? = some object → Points heap (.object i) (.cls object.cls)
  | field {i : InstanceId} {object : Instance} {entry : String × Value} {p : Cell} :
      heap.instances[i]? = some object → entry ∈ object.fields → entry.2.Holds p →
      Points heap (.object i) p

def references (heap : Heap) : Cell → List Cell
  | .env e =>
      (heap.environments.enclosing e).toList.map .env ++
        (heap.environments.values e).filterMap fun entry => entry.2.cell?
  | .function f => heap.functions[f]?.toList.map fun closure => .env closure.env
  | .cls c =>
      heap.classes[c]?.toList.flatMap fun cls =>
        cls.superclass.toList.map .cls ++ cls.methods.map fun entry => .function entry.2
  | .object i =>
      heap.instances[i]?.toList.flatMap fun object =>
        .cls object.cls :: object.fields.filterMap fun entry => entry.2.cell?

theorem Points.mem_references {heap : Heap} {p q : Cell} (hpoints : heap.Points p q) :
    q ∈ heap.references p := by
  cases hpoints with
  | enclosing houter => simp [references, houter]
  | @binding e entry _ hentry hq =>
      apply List.mem_append_right
      exact List.mem_filterMap.mpr ⟨entry, hentry, hq⟩
  | closure hclosure => simp [references, hclosure]
  | superclass hcls hparent => simp [references, hcls, hparent]
  | @method c cls entry hcls hentry =>
      simp only [references, hcls, Option.toList_some, List.flatMap_singleton]
      exact List.mem_append_right _ (List.mem_map.mpr ⟨entry, hentry, rfl⟩)
  | cls hobject => simp [references, hobject]
  | @field i object entry _ hobject hentry hq =>
      simp only [references, hobject, Option.toList_some, List.flatMap_singleton]
      exact List.mem_cons_of_mem _ (List.mem_filterMap.mpr ⟨entry, hentry, hq⟩)

inductive Reaches (heap : Heap) (roots : Cell → Prop) : Cell → Prop where
  | root {p : Cell} : roots p → Reaches heap roots p
  | step {p q : Cell} : Reaches heap roots p → heap.Points p q → Reaches heap roots q

def Closed (heap : Heap) (known : Cell → Prop) : Prop :=
  ∀ p q, known p → heap.Points p q → known q

/-- Heaps with the same environments, functions, classes and instances. -/
structure SameCells (heap heap' : Heap) : Prop where
  environments : heap'.environments = heap.environments
  functions : heap'.functions = heap.functions
  classes : heap'.classes = heap.classes
  instances : heap'.instances = heap.instances

theorem Reaches.mem_of_closed {heap : Heap} {roots : Cell → Prop} {cells : List Cell}
    {p : Cell} (hp : heap.Reaches roots p) (hroots : ∀ p, roots p → p ∈ cells)
    (hclosed : ∀ p ∈ cells, ∀ q ∈ heap.references p, q ∈ cells) : p ∈ cells := by
  induction hp with
  | root hroot => exact hroots _ hroot
  | step _ hpoints ih => exact hclosed _ ih _ hpoints.mem_references

/-!
# What is read from closed cells
-/

section

variable {heap : Heap} {known : Cell → Prop} (hclosed : heap.Closed known)

include hclosed

theorem Closed.outwards {depth : Nat} {place : Option EnvId} {target : EnvId}
    (hplace : ∀ e, place = some e → known (.env e))
    (htarget : heap.environments.outwards depth place = .ok (some target)) :
    known (.env target) := by
  induction depth generalizing place with
  | zero =>
      injection htarget with htarget
      exact hplace target htarget
  | succ depth ih =>
      cases place with
      | none => cases htarget
      | some e =>
          apply ih _ htarget
          intro outer houter
          exact hclosed _ _ (hplace e rfl) (.enclosing houter)

theorem Closed.place {e target : EnvId} {depth : Nat} (he : known (.env e))
    (htarget : heap.environments.place e depth = .ok target) : known (.env target) := by
  unfold Environments.place at htarget
  split at htarget
  · next hancestor =>
      injection htarget with htarget
      subst htarget
      apply hclosed.outwards _ hancestor
      intro e' he'
      injection he' with he'
      exact he' ▸ he
  · cases htarget
  · cases htarget

theorem Closed.value {e : EnvId} {name : String} {value : Value} (he : known (.env e))
    (hvalue : (heap.environments.values e).get? name = some value) : value.KnownTo known := by
  intro p hp
  exact hclosed _ _ he (.binding (mem_of_lookup hvalue) hp)

theorem Closed.getAt {e : EnvId} {depth : Nat} {name : String} {value : Value}
    (he : known (.env e)) (hvalue : heap.environments.getAt e depth name = .ok value) :
    value.KnownTo known := by
  unfold Environments.getAt at hvalue
  split at hvalue
  · cases hvalue
  · next target htarget =>
      split at hvalue
      · next found hfound =>
          injection hvalue with hvalue
          subst hvalue
          exact hclosed.value (hclosed.place he htarget) hfound
      · cases hvalue

theorem Closed.reaches {roots : Cell → Prop} {p : Cell} (hroots : ∀ q, roots q → known q)
    (hp : heap.Reaches roots p) : known p := by
  induction hp with
  | root hroot => exact hroots _ hroot
  | step _ hpoints ih => exact hclosed _ _ ih hpoints

theorem Closed.holder? {e holder : EnvId} {name : String} (he : known (.env e))
    (hholder : heap.environments.holder? e name = some holder) : known (.env holder) := by
  induction e using Nat.strongRecOn with
  | ind e ih =>
      rw [Environments.holder?] at hholder
      split at hholder
      · cases hholder
        exact he
      · split at hholder
        · cases hholder
        · next outer houter =>
            split at hholder
            · next hlt => exact ih outer hlt (hclosed _ _ he (.enclosing houter)) hholder
            · cases hholder

end

theorem Closed.findMethod {m : Machine} {known : Cell → Prop} (hclosed : m.Closed known)
    {c : ClassId} {name : String} {f : FunctionId} (hc : known (.cls c))
    (hfound : m.findMethod c name = some f) : known (.function f) := by
  have habove : ∀ (c : ClassId) (cls : Class) (parent : ClassId), known (.cls c) →
      m.classes[c]? = some cls → cls.superclass = some parent → known (.cls parent) := by
    intro c cls parent hc hcls hparent
    exact hclosed _ _ hc (.superclass hcls hparent)
  rcases Machine.exists_class_of_findMethod habove hc hfound with ⟨c', cls, hc', hcls, hentry⟩
  exact hclosed _ _ hc' (.method hcls hentry)

/-!
# What a change adds

After a change, a cell refers to what it referred to before, or it is the cell
that was changed and refers to what was put there.
-/

section

variable {heap heap' : Heap} {p q : Cell}

theorem Points.aside (hsame : heap.SameCells heap') (hpoints : heap'.Points p q) :
    heap.Points p q := by
  cases hpoints with
  | enclosing houter => exact .enclosing (hsame.environments ▸ houter)
  | binding hentry hq => exact .binding (hsame.environments ▸ hentry) hq
  | closure hclosure => exact .closure (hsame.functions ▸ hclosure)
  | superclass hcls hparent => exact .superclass (hsame.classes ▸ hcls) hparent
  | method hcls hentry => exact .method (hsame.classes ▸ hcls) hentry
  | cls hobject => exact .cls (hsame.instances ▸ hobject)
  | field hobject hentry hq => exact .field (hsame.instances ▸ hobject) hentry hq

theorem Points.create {e : EnvId} {values : Bindings}
    (hpoints : Points { heap with environments := heap.environments.create (some e) values } p q) :
    heap.Points p q ∨ p = .env heap.environments.size ∧
      (q = .env e ∨ ∃ entry ∈ values, entry.2.Holds q) := by
  cases hpoints with
  | @enclosing k outer houter =>
      rw [Environments.enclosing_create] at houter
      by_cases hk : k = heap.environments.size
      · rw [if_pos hk] at houter
        cases houter
        exact Or.inr ⟨congrArg Cell.env hk, Or.inl rfl⟩
      · rw [if_neg hk] at houter
        exact Or.inl (.enclosing houter)
  | @binding k entry _ hentry hq =>
      rw [Environments.values_create] at hentry
      by_cases hk : k = heap.environments.size
      · rw [if_pos hk] at hentry
        exact Or.inr ⟨congrArg Cell.env hk, Or.inr ⟨entry, hentry, hq⟩⟩
      · rw [if_neg hk] at hentry
        exact Or.inl (.binding hentry hq)
  | closure hclosure => exact Or.inl (.closure hclosure)
  | superclass hcls hparent => exact Or.inl (.superclass hcls hparent)
  | method hcls hentry => exact Or.inl (.method hcls hentry)
  | cls hobject => exact Or.inl (.cls hobject)
  | field hobject hentry hq => exact Or.inl (.field hobject hentry hq)

theorem Points.define {e : EnvId} {name : String} {value : Value}
    (hpoints : Points { heap with environments := heap.environments.define e name value } p q) :
    heap.Points p q ∨ p = .env e ∧ value.Holds q := by
  cases hpoints with
  | enclosing houter =>
      rw [Environments.enclosing_define] at houter
      exact Or.inl (.enclosing houter)
  | binding hentry hq =>
      rcases Environments.mem_values_define hentry with hold | ⟨hk, hentry⟩
      · exact Or.inl (.binding hold hq)
      · rw [hentry] at hq
        exact Or.inr ⟨congrArg Cell.env hk, hq⟩
  | closure hclosure => exact Or.inl (.closure hclosure)
  | superclass hcls hparent => exact Or.inl (.superclass hcls hparent)
  | method hcls hentry => exact Or.inl (.method hcls hentry)
  | cls hobject => exact Or.inl (.cls hobject)
  | field hobject hentry hq => exact Or.inl (.field hobject hentry hq)

theorem Points.addFunction {closure : Closure}
    (hpoints : Points { heap with functions := heap.functions.push closure } p q) :
    heap.Points p q ∨ p = .function heap.functions.size ∧ q = .env closure.env := by
  cases hpoints with
  | enclosing houter => exact Or.inl (.enclosing houter)
  | binding hentry hq => exact Or.inl (.binding hentry hq)
  | @closure f _ hclosure =>
      rcases getElem?_push_eq_some hclosure with hold | ⟨hf, hclosure⟩
      · exact Or.inl (.closure hold)
      · rw [hclosure]
        exact Or.inr ⟨congrArg Cell.function hf, rfl⟩
  | superclass hcls hparent => exact Or.inl (.superclass hcls hparent)
  | method hcls hentry => exact Or.inl (.method hcls hentry)
  | cls hobject => exact Or.inl (.cls hobject)
  | field hobject hentry hq => exact Or.inl (.field hobject hentry hq)

theorem Points.addClass {cls : Class}
    (hpoints : Points { heap with classes := heap.classes.push cls } p q) :
    heap.Points p q ∨ p = .cls heap.classes.size ∧
      ((∃ parent, cls.superclass = some parent ∧ q = .cls parent) ∨
        ∃ entry ∈ cls.methods, q = .function entry.2) := by
  cases hpoints with
  | enclosing houter => exact Or.inl (.enclosing houter)
  | binding hentry hq => exact Or.inl (.binding hentry hq)
  | closure hclosure => exact Or.inl (.closure hclosure)
  | @superclass c parent _ hcls hparent =>
      rcases getElem?_push_eq_some hcls with hold | ⟨hc, hcls⟩
      · exact Or.inl (.superclass hold hparent)
      · rw [hcls] at hparent
        exact Or.inr ⟨congrArg Cell.cls hc, Or.inl ⟨parent, hparent, rfl⟩⟩
  | @method c _ entry hcls hentry =>
      rcases getElem?_push_eq_some hcls with hold | ⟨hc, hcls⟩
      · exact Or.inl (.method hold hentry)
      · rw [hcls] at hentry
        exact Or.inr ⟨congrArg Cell.cls hc, Or.inr ⟨entry, hentry, rfl⟩⟩
  | cls hobject => exact Or.inl (.cls hobject)
  | field hobject hentry hq => exact Or.inl (.field hobject hentry hq)

theorem Points.addInstance {c : ClassId}
    (hpoints : Points { heap with instances := heap.instances.push { cls := c } } p q) :
    heap.Points p q ∨ p = .object heap.instances.size ∧ q = .cls c := by
  cases hpoints with
  | enclosing houter => exact Or.inl (.enclosing houter)
  | binding hentry hq => exact Or.inl (.binding hentry hq)
  | closure hclosure => exact Or.inl (.closure hclosure)
  | superclass hcls hparent => exact Or.inl (.superclass hcls hparent)
  | method hcls hentry => exact Or.inl (.method hcls hentry)
  | cls hobject =>
      rcases getElem?_push_eq_some hobject with hold | ⟨hi, hobject⟩
      · exact Or.inl (.cls hold)
      · rw [hobject]
        exact Or.inr ⟨congrArg Cell.object hi, rfl⟩
  | field hobject hentry hq =>
      rcases getElem?_push_eq_some hobject with hold | ⟨_, hobject⟩
      · exact Or.inl (.field hold hentry hq)
      · rw [hobject] at hentry
        cases hentry

theorem Points.setField {i : InstanceId} {name : String} {value : Value}
    (hpoints : Points { heap with
      instances := heap.instances.modify i fun object =>
        { object with fields := object.fields.insert name value } } p q) :
    heap.Points p q ∨ p = .object i ∧ value.Holds q := by
  cases hpoints with
  | enclosing houter => exact Or.inl (.enclosing houter)
  | binding hentry hq => exact Or.inl (.binding hentry hq)
  | closure hclosure => exact Or.inl (.closure hclosure)
  | superclass hcls hparent => exact Or.inl (.superclass hcls hparent)
  | method hcls hentry => exact Or.inl (.method hcls hentry)
  | cls hobject =>
      rcases getElem?_modify_eq_some hobject with hold | ⟨_, old, hold, hobject⟩
      · exact Or.inl (.cls hold)
      · have hpoints : heap.Points (.object _) (.cls old.cls) := .cls hold
        rw [hobject]
        exact Or.inl hpoints
  | field hobject hentry hq =>
      rcases getElem?_modify_eq_some hobject with hold | ⟨hk, old, hold, hobject⟩
      · exact Or.inl (.field hold hentry hq)
      · rw [hobject] at hentry
        rcases Bindings.mem_insert hentry with hnew | hentry
        · rw [hnew] at hq
          exact Or.inr ⟨congrArg Cell.object hk, hq⟩
        · exact Or.inl (.field hold hentry hq)

end

end Heap
end Lox
