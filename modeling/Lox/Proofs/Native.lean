import Lox.Proofs.Heap.Cells

/-!
# What is asked of native functions

A native function can do anything with the heap.  What a theorem needs of the
native functions around a program it asks for by one of these conditions.
-/

namespace Lox

namespace Heap

def Holds (heap : Heap) (f : FunctionId) : Prop :=
  ∃ (i : InstanceId) (object : Instance) (name : String), heap.instances[i]? = some object ∧
    (name, .function f) ∈ object.fields

end Heap

namespace Native

/--
A native function that changes nothing; only the clock may be read.  It goes by its
arguments, the classes, the instances and the clock, and the functions that it hands
out were handed to it or are values of fields.  If it does not answer, then by one of
the given stops.
-/
structure Plain (stops : Stop → Prop) (native : Native) : Prop where
  leaves : ∀ arguments heap, ∃ readings,
    Eval.state (native.action arguments heap) = { heap with readings }
  blind : ∀ {arguments heap heap'}, heap'.classes = heap.classes →
    heap'.instances = heap.instances → heap'.clock = heap.clock →
    heap'.readings = heap.readings →
    Eval.outcome (native.action arguments heap') = Eval.outcome (native.action arguments heap) ∧
    (Eval.state (native.action arguments heap')).readings =
      (Eval.state (native.action arguments heap)).readings
  gives : ∀ {arguments heap f}, Eval.outcome (native.action arguments heap) = .ok (.function f) →
    .function f ∈ arguments ∨ heap.Holds f
  stops : ∀ {arguments heap stop}, Eval.outcome (native.action arguments heap) = .error stop →
    stops stop

theorem Plain.mono {stops stops' : Stop → Prop} {native : Native} (hnative : native.Plain stops)
    (hstops : ∀ {stop}, stops stop → stops' stop) : native.Plain stops' :=
  { hnative with stops := fun hstop => hstops (hnative.stops hstop) }

def roots (arguments : List Value) (p : Cell) : Prop :=
  (∃ value ∈ arguments, value.Holds p) ∨ p = .env Machine.globals

/--
A native function that changes no cell, however it ends, and hands out only what
its arguments and the globals reach.
-/
structure Harmless (native : Native) : Prop where
  leaves : ∀ arguments (heap : Heap), heap.SameCells (Eval.state (native.action arguments heap))
  gives : ∀ {arguments value} {heap heap' : Heap}, native.action arguments heap = .ok value heap' →
    value.KnownTo (heap.Reaches (roots arguments))

theorem harmless_clock : Harmless clock where
  leaves _ _ := ⟨rfl, rfl, rfl, rfl⟩
  gives := by
    intro arguments heap value heap' haction p hp
    injection haction with hvalue _
    rw [← hvalue] at hp
    cases hp

theorem plain_clock (stops : Stop → Prop) : Plain stops clock where
  leaves _ heap := ⟨heap.readings + 1, rfl⟩
  blind := by
    intro arguments heap heap' _ _ hclock hreadings
    show Except.ok (Value.number (heap'.clock heap'.readings)) =
      .ok (.number (heap.clock heap.readings)) ∧ heap'.readings + 1 = heap.readings + 1
    rw [hclock, hreadings]
    exact ⟨rfl, rfl⟩
  gives := by
    intro arguments heap f haction
    cases haction
  stops := by
    intro arguments heap stop haction
    cases haction

end Native
end Lox
