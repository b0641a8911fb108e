import Lox.Machine

/-!
# Stores and machines

What the operations on bindings, environments and classes do, without regard to
the programs that use them.
-/

namespace Lox

theorem mem_of_lookup {α : Type} {entries : List (String × α)} {name : String} {value : α}
    (hlookup : entries.lookup name = some value) : (name, value) ∈ entries := by
  rcases List.lookup_eq_some_iff.mp hlookup with ⟨before, behind, rfl, _⟩
  exact List.mem_append_right _ List.mem_cons_self

theorem getElem?_push_eq_some {α : Type} {all : Array α} {added found : α} {k : Nat}
    (hfound : (all.push added)[k]? = some found) :
    all[k]? = some found ∨ k = all.size ∧ found = added := by
  rw [Array.getElem?_push] at hfound
  by_cases hk : k = all.size
  · rw [if_pos hk] at hfound
    cases hfound
    exact Or.inr ⟨hk, rfl⟩
  · rw [if_neg hk] at hfound
    exact Or.inl hfound

theorem getElem?_modify_eq_some {α : Type} {all : Array α} {f : α → α} {found : α} {i k : Nat}
    (hfound : (all.modify i f)[k]? = some found) :
    all[k]? = some found ∨ k = i ∧ ∃ old, all[k]? = some old ∧ found = f old := by
  rw [Array.getElem?_modify] at hfound
  by_cases hk : i = k
  · rw [if_pos hk] at hfound
    rcases Option.map_eq_some_iff.mp hfound with ⟨old, hold, hf⟩
    exact Or.inr ⟨hk.symm, old, hold, hf.symm⟩
  · rw [if_neg hk] at hfound
    exact Or.inl hfound

/-!
# Bindings
-/

namespace Bindings

theorem get?_cons (entry : String × Value) (rest : Bindings) (name : String) :
    get? (entry :: rest) name = if name = entry.1 then some entry.2 else get? rest name := by
  unfold get?
  rw [List.lookup_cons]
  by_cases hname : name = entry.1
  · rw [if_pos hname, beq_iff_eq.mpr hname]
  · rw [if_neg hname, beq_eq_false_iff_ne.mpr hname]

theorem get?_insert (bindings : Bindings) (name other : String) (value : Value) :
    (bindings.insert name value).get? other =
      if other = name then some value else bindings.get? other := by
  induction bindings with
  | nil => exact get?_cons (name, value) [] other
  | cons entry rest ih =>
      unfold insert
      by_cases hentry : entry.1 = name
      · rw [if_pos hentry, get?_cons, get?_cons, hentry]
        by_cases hother : other = name
        · rw [if_pos hother, if_pos hother]
        · rw [if_neg hother, if_neg hother, if_neg hother]
      · rw [if_neg hentry, get?_cons, get?_cons, ih]
        by_cases hother : other = entry.1
        · rw [if_pos hother, if_neg fun heq => hentry (hother.symm.trans heq), if_pos hother]
        · rw [if_neg hother, if_neg hother]

theorem binds_insert (bindings : Bindings) (name other : String) (value : Value) :
    (bindings.insert name value).binds other = true ↔
      other = name ∨ bindings.binds other = true := by
  unfold binds
  rw [get?_insert]
  by_cases hother : other = name
  · simp [hother]
  · simp [hother]

theorem mem_insert {bindings : Bindings} {name : String} {value : Value}
    {entry : String × Value} (hentry : entry ∈ bindings.insert name value) :
    entry = (name, value) ∨ entry ∈ bindings := by
  induction bindings with
  | nil => simpa [insert] using hentry
  | cons first rest ih =>
      unfold insert at hentry
      by_cases hfirst : first.1 = name
      · rw [if_pos hfirst] at hentry
        rcases List.mem_cons.mp hentry with heq | hrest
        · exact Or.inl heq
        · exact Or.inr (List.mem_cons_of_mem _ hrest)
      · rw [if_neg hfirst] at hentry
        rcases List.mem_cons.mp hentry with heq | hrest
        · exact Or.inr (heq ▸ List.mem_cons_self)
        · rcases ih hrest with heq | hold
          · exact Or.inl heq
          · exact Or.inr (List.mem_cons_of_mem _ hold)

end Bindings

/-!
# Environments
-/

namespace Environments

variable (s : Environments) (e k : EnvId)

theorem size_define (name : String) (value : Value) : (s.define e name value).size = s.size :=
  Array.size_modify

theorem size_create (enclosing : Option EnvId) (values : Bindings) :
    (s.create enclosing values).size = s.size + 1 :=
  Array.size_push _

theorem getElem?_define (name : String) (value : Value) :
    (s.define e name value).all[k]? =
      if e = k then s.all[k]?.map fun env => { env with values := env.values.insert name value }
      else s.all[k]? :=
  Array.getElem?_modify

theorem getElem?_create (enclosing : Option EnvId) (values : Bindings) :
    (s.create enclosing values).all[k]? =
      if k = s.size then some ⟨values, enclosing⟩ else s.all[k]? :=
  Array.getElem?_push

theorem enclosing_define (name : String) (value : Value) :
    (s.define e name value).enclosing k = s.enclosing k := by
  unfold enclosing
  rw [getElem?_define]
  by_cases he : e = k
  · rw [if_pos he]
    cases s.all[k]? <;> rfl
  · rw [if_neg he]

theorem enclosing_create (outer : Option EnvId) (values : Bindings) :
    (s.create outer values).enclosing k = if k = s.size then outer else s.enclosing k := by
  unfold enclosing
  rw [getElem?_create]
  by_cases hk : k = s.size
  · rw [if_pos hk, if_pos hk]
  · rw [if_neg hk, if_neg hk]

theorem values_create (outer : Option EnvId) (bindings : Bindings) :
    (s.create outer bindings).values k = if k = s.size then bindings else s.values k := by
  unfold values
  rw [getElem?_create]
  by_cases hk : k = s.size
  · rw [if_pos hk, if_pos hk]
  · rw [if_neg hk, if_neg hk]

theorem values_define_ne {name : String} {value : Value} (hk : e ≠ k) :
    (s.define e name value).values k = s.values k := by
  unfold values
  rw [getElem?_define, if_neg hk]

theorem mem_values_define {s : Environments} {e k : EnvId} {name : String} {value : Value}
    {entry : String × Value} (hentry : entry ∈ (s.define e name value).values k) :
    entry ∈ s.values k ∨ k = e ∧ entry = (name, value) := by
  by_cases hk : e = k
  · unfold values at hentry ⊢
    rw [getElem?_define, if_pos hk] at hentry
    cases henv : s.all[k]? with
    | none =>
        rw [henv] at hentry
        cases hentry
    | some env =>
        rw [henv] at hentry
        rcases Bindings.mem_insert hentry with hnew | hold
        · exact Or.inr ⟨hk.symm, hnew⟩
        · exact Or.inl hold
  · rw [values_define_ne s e k hk] at hentry
    exact Or.inl hentry

theorem binds_define {name other : String} {value : Value}
    (hbinds : (s.values k).binds other = true) :
    ((s.define e name value).values k).binds other = true := by
  unfold values at hbinds ⊢
  rw [getElem?_define]
  by_cases he : e = k
  · rw [if_pos he]
    cases henv : s.all[k]? with
    | none =>
        rw [henv] at hbinds
        cases hbinds
    | some env =>
        rw [henv] at hbinds
        exact (Bindings.binds_insert env.values name other value).mpr (Or.inr hbinds)
  · rw [if_neg he]
    exact hbinds

theorem binds_of_binds_define {s : Environments} {e k : EnvId} {name other : String} {value : Value}
    (hbinds : ((s.define e name value).values k).binds other = true) :
    (s.values k).binds other = true ∨ e = k ∧ other = name := by
  by_cases he : e = k
  · unfold values at hbinds ⊢
    rw [getElem?_define, if_pos he] at hbinds
    cases henv : s.all[k]? with
    | none =>
        rw [henv] at hbinds
        cases hbinds
    | some env =>
        rw [henv] at hbinds
        rcases (Bindings.binds_insert env.values name other value).mp hbinds with rfl | hold
        · exact Or.inr ⟨he, rfl⟩
        · exact Or.inl hold
  · rw [values_define_ne s e k he] at hbinds
    exact Or.inl hbinds

theorem binds_define_self {name : String} (value : Value) (he : e < s.size) :
    ((s.define e name value).values e).binds name = true := by
  unfold values
  rw [getElem?_define, if_pos rfl, Array.getElem?_eq_getElem he]
  exact (Bindings.binds_insert _ name name value).mpr (Or.inl rfl)

theorem lt_size_of_binds {s : Environments} {e : EnvId} {name : String}
    (hbinds : (s.values e).binds name = true) : e < s.size := by
  apply Decidable.byContradiction
  intro hge
  unfold values at hbinds
  rw [Array.getElem?_eq_none (Nat.le_of_not_lt hge)] at hbinds
  cases hbinds

/-!
# Following links
-/

section

variable {s : Environments} {e : EnvId}

theorem place_succ {outer : EnvId} (houter : s.enclosing e = some outer) (distance : Nat) :
    s.place e (distance + 1) = s.place outer distance := by
  unfold place ancestor
  rw [outwards, houter]

theorem holder?_globals (s : Environments) (name : String) :
    s.holder? Machine.globals name =
      if (s.values Machine.globals).binds name then some Machine.globals else none := by
  rw [holder?]
  cases (s.values Machine.globals).binds name with
  | true => rfl
  | false =>
      cases s.enclosing Machine.globals with
      | none => rfl
      | some outer =>
          have houter : ¬ outer < Machine.globals := Nat.not_lt_zero outer
          simp [houter]

theorem get?_globals (s : Environments) (name : String) :
    s.get? Machine.globals name = (s.values Machine.globals).get? name := by
  unfold get?
  rw [holder?_globals]
  unfold Bindings.binds
  cases hvalue : (s.values Machine.globals).get? name with
  | none => rfl
  | some value => exact hvalue

theorem assign_of_binds {name : Token} (hbinds : (s.values e).binds name.lexeme = true)
    (value : Value) : s.assign e name value = .ok (s.define e name.lexeme value) := by
  unfold assign assign?
  rw [holder?, if_pos hbinds]

/-- Links point to what is older. -/
def LinksBack (s : Environments) : Prop := ∀ e outer, s.enclosing e = some outer → outer < e

theorem LinksBack.create (hs : s.LinksBack) {outer : Option EnvId}
    (houter : ∀ e ∈ outer, e < s.size) (values : Bindings) :
    (s.create outer values).LinksBack := by
  intro e found hfound
  rw [enclosing_create] at hfound
  by_cases he : e = s.size
  · rw [if_pos he] at hfound
    rw [he]
    exact houter found hfound
  · rw [if_neg he] at hfound
    exact hs e found hfound

theorem LinksBack.define (hs : s.LinksBack) (e : EnvId) (name : String) (value : Value) :
    (s.define e name value).LinksBack := by
  intro k outer houter
  rw [enclosing_define] at houter
  exact hs k outer houter

theorem getAt_of_place {target : EnvId} {depth : Nat} {name : String} {value : Value}
    (htarget : s.place e depth = .ok target)
    (hvalue : (s.values target).get? name = some value) : s.getAt e depth name = .ok value := by
  unfold getAt
  simp only [htarget, hvalue]

theorem values_of_getElem? {env : Environment} (henv : s.all[e]? = some env) :
    s.values e = env.values := by
  unfold values
  rw [henv]

end

end Environments

/-!
# Globals
-/

namespace Machine

def bindsGlobal (m : Machine) (name : String) : Bool := (m.environments.values globals).binds name

/-!
# Methods
-/

theorem findMethod_congr {m m' : Machine} (hclasses : m'.classes = m.classes) (c : ClassId)
    (name : String) : m'.findMethod c name = m.findMethod c name := by
  induction c using Nat.strongRecOn with
  | ind c ih =>
      rw [findMethod, findMethod, hclasses]
      cases m.classes[c]? with
      | none => rfl
      | some cls =>
          cases hmethod : cls.methods.lookup name with
          | some f => simp only [hmethod]
          | none =>
              simp only [hmethod]
              cases cls.superclass with
              | none => rfl
              | some parent =>
                  by_cases hparent : parent < c
                  · simp only [if_pos hparent, ih parent hparent]
                  · simp only [if_neg hparent]

/-- A method that is found is in the table of the class or of one above it. -/
theorem exists_class_of_findMethod {m : Machine} {above : ClassId → Prop} {c : ClassId}
    {name : String} {f : FunctionId}
    (habove : ∀ (c : ClassId) (cls : Class) (parent : ClassId), above c →
      m.classes[c]? = some cls → cls.superclass = some parent → above parent)
    (hc : above c) (hfound : m.findMethod c name = some f) :
    ∃ (c' : ClassId) (cls : Class),
      above c' ∧ m.classes[c']? = some cls ∧ (name, f) ∈ cls.methods := by
  induction c using Nat.strongRecOn with
  | ind c ih =>
      rw [findMethod] at hfound
      cases hcls : m.classes[c]? with
      | none =>
          rw [hcls] at hfound
          cases hfound
      | some cls =>
          simp only [hcls] at hfound
          cases hmethod : cls.methods.lookup name with
          | some g =>
              simp only [hmethod] at hfound
              cases hfound
              exact ⟨c, cls, hc, hcls, mem_of_lookup hmethod⟩
          | none =>
              simp only [hmethod] at hfound
              cases hparent : cls.superclass with
              | none =>
                  simp only [hparent] at hfound
                  cases hfound
              | some parent =>
                  simp only [hparent] at hfound
                  by_cases hlt : parent < c
                  · rw [if_pos hlt] at hfound
                    exact ih parent hlt (habove c cls parent hc hcls hparent) hfound
                  · rw [if_neg hlt] at hfound
                    cases hfound

end Machine

def Eval.state : EStateM.Result Stop σ α → σ
  | .ok _ s => s
  | .error _ s => s

def Eval.outcome : EStateM.Result Stop σ α → Except Stop α
  | .ok value _ => .ok value
  | .error stop _ => .error stop

theorem Eval.eq_ok_of_outcome {result : EStateM.Result Stop σ α} {value : α}
    (hvalue : outcome result = .ok value) : result = .ok value (state result) := by
  cases result <;> cases hvalue
  rfl

theorem Eval.eq_error_of_outcome {result : EStateM.Result Stop σ α} {stop : Stop}
    (hstop : outcome result = .error stop) : result = .error stop (state result) := by
  cases result <;> cases hstop
  rfl

theorem Eval.get_bind (next : σ → EStateM Stop σ α) (s : σ) :
    ((get : EStateM Stop σ σ) >>= next) s = next s s := rfl

theorem Eval.bind_of_ok {p : EStateM Stop σ α} {next : α → EStateM Stop σ β} {value : α}
    {s s₁ : σ} (hp : p s = .ok value s₁) : (p >>= next) s = next value s₁ := by
  show EStateM.bind p next s = _
  rw [EStateM.bind, hp]

theorem Eval.exists_of_bind_ok {p : EStateM Stop σ α} {next : α → EStateM Stop σ β} {value : β}
    {s s' : σ} (hbind : (p >>= next) s = .ok value s') :
    ∃ first s₁, p s = .ok first s₁ ∧ next first s₁ = .ok value s' := by
  change EStateM.bind p next s = _ at hbind
  unfold EStateM.bind at hbind
  cases hp : p s with
  | error stop s₁ =>
      rw [hp] at hbind
      cases hbind
  | ok first s₁ =>
      rw [hp] at hbind
      exact ⟨first, s₁, rfl, hbind⟩

end Lox
