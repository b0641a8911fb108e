import Lox.Evaluate
import Lox.Proofs.Machine

/-!
# Class declarations

A class declaration goes to the environment of its methods by an assignment, and
comes back by another one.  Between the two nothing can fail, as long as what
stands in the place of methods are functions.  So the declaration does what it
would do if it made the methods within that environment.
-/

namespace Lox
namespace Eval

def methodEnvironment : Option ClassId → Eval EnvId
  | none => do return (← get).current
  | some c => do newEnvironment (← get).current [("super", .cls c)]

def classWithin (name : Token) (parent : Option ClassId) (methods : Eval MethodTable) :
    Eval Unit := do
  defineHere name.lexeme .nil
  let e ← methodEnvironment parent
  let table ← within e methods
  let c ← newClass ⟨name.lexeme, parent, table⟩
  assignFrom (← get).current name (.cls c)

def methodTable (methods : List Function) : Eval MethodTable :=
  makeMethods (fun f => pure ⟨f, none⟩) methods []

theorem exists_makeMethods (methods : List Function) (table : MethodTable) (m : Machine) :
    ∃ table' functions, makeMethods (fun f => pure ⟨f, none⟩) methods table m =
      .ok table' { m with functions } := by
  induction methods generalizing table m with
  | nil => exact ⟨table, m.functions, rfl⟩
  | cons f methods ih => exact ih _ { m with functions := m.functions.push _ }

theorem exists_methodTable (methods : List Function) (m : Machine) :
    ∃ table functions, methodTable methods m = .ok table { m with functions } :=
  exists_makeMethods methods [] m

theorem buildClass_eq (name : Token) (parent : Option ClassId) (methods : List Function) :
    buildClass name parent (methodTable methods) =
      classWithin name parent (methodTable methods) := by
  funext m
  let m₀ : Machine := { m with environments := m.environments.define m.current name.lexeme .nil }
  cases parent with
  | none =>
      obtain ⟨table, functions, hmethods⟩ := exists_methodTable methods m₀
      have hwithin : within m₀.current (methodTable methods) m₀ =
          .ok table { m₀ with functions } := by
        unfold within
        rw [hmethods]
      show (methodTable methods >>= _) m₀ = (within m₀.current (methodTable methods) >>= _) m₀
      rw [bind_of_ok hwithin, bind_of_ok hmethods]
      rfl
  | some c =>
      let e := m₀.environments.size
      let m₁ : Machine := { m₀ with
        environments := m₀.environments.create (some m.current) [("super", .cls c)] }
      obtain ⟨table, functions, hmethods⟩ := exists_methodTable methods { m₁ with current := e }
      have hwithin : within e (methodTable methods) m₁ = .ok table { m₁ with functions } := by
        unfold within
        rw [hmethods]
      have hback : m₁.environments.enclosing e = some m.current := by
        rw [Environments.enclosing_create, if_pos rfl]
      show (methodTable methods >>= _) { m₁ with current := e } =
        (within e (methodTable methods) >>= _) m₁
      rw [bind_of_ok hwithin, bind_of_ok hmethods]
      let m₂ : Machine := { m₁ with
        functions, classes := m₁.classes.push ⟨name.lexeme, some c, table⟩ }
      have hleave : leave { m₂ with current := e } = .ok () m₂ := by
        unfold leave
        dsimp only
        rw [hback]
      show (leave >>= _) { m₂ with current := e } = _
      rw [bind_of_ok hleave]
      rfl

theorem declareClass_eq (evaluate : Expr → Eval Value) (name : Token) (parent : Option Reference)
    (methods : List Function) :
    declareClass evaluate name parent methods = (do
      let parent ← superclass evaluate parent
      classWithin name parent (methodTable methods)) := by
  funext m
  show (superclass evaluate parent >>= fun parent =>
    buildClass name parent (methodTable methods)) m = _
  simp only [buildClass_eq]

end Eval
end Lox
