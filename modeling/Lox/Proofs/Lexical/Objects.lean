import Lox.Proofs.Lexical.Lookup

/-!
# Functions, classes and instances of two machines

The two machines make alike functions, and the same classes and instances.  A
method that is bound to a receiver becomes a function that can be called: its
frame for the receiver is filled.
-/

namespace Lox

namespace Lexical

namespace Stage

def addFunction (st : Stage) (closure closure' : Closure) : Stage :=
  { st with
    left := { st.left with functions := st.left.functions.push closure }
    right := { st.right with functions := st.right.functions.push closure' } }

def addClass (st : Stage) (cls : Class) : Stage :=
  { st with
    left := { st.left with classes := st.left.classes.push cls }
    right := { st.right with classes := st.right.classes.push cls } }

def addInstance (st : Stage) (c : ClassId) : Stage :=
  { st with
    left := { st.left with instances := st.left.instances.push { cls := c } }
    right := { st.right with instances := st.right.instances.push { cls := c } } }

end Stage

variable {sides : Sides} {st : Stage}

/-!
# Making functions
-/

theorem getElem?_push_of_some {α : Type} {xs : Array α} {i : Nat} {x y : α}
    (hx : xs[i]? = some x) : (xs.push y)[i]? = some x := by
  rw [Array.getElem?_push, if_neg (Nat.ne_of_lt (Array.getElem?_eq_some_iff.mp hx).1)]
  exact hx

theorem grows_addFunction (st : Stage) (closure closure' : Closure) :
    Grows st (st.addFunction closure closure') :=
  { Grows.refl st with
    functions := fun _ _ hf => getElem?_push_of_some hf
    functions' := fun _ _ hf => getElem?_push_of_some hf }

theorem Related.addFunction (hrelated : Related sides st) (closure closure' : Closure) :
    Related sides (st.addFunction closure closure') := by
  have hextends := (grows_addFunction st closure closure').toExtends
  exact { hrelated with
    functions := by simp only [Stage.addFunction, Array.size_push, hrelated.functions]
    environments := hrelated.environments_mono hextends rfl rfl rfl
    methods := hrelated.methods_mono hextends rfl
    fields := hrelated.fields_mono hextends rfl }

theorem agree_newFunction (closure closure' : Closure) :
    Agree sides st (Eval.newFunction closure) (Eval.newFunction closure') fun st₁ f =>
      st₁ = st.addFunction closure closure' ∧ f = st.left.functions.size ∧
        st.right.functions.size = st.left.functions.size := by
  intro hrelated
  have hright : Eval.newFunction closure' st.right =
      .ok st.left.functions.size (st.addFunction closure closure').right := by
    rw [← hrelated.functions]
    rfl
  rw [hright]
  exact .ok (grows_addFunction _ _ _) (hrelated.addFunction _ _) ⟨rfl, rfl, hrelated.functions⟩

theorem alikeId_of_addFunction {isMethod : Bool} {closure closure' : Closure}
    (hsize : st.right.functions.size = st.left.functions.size) {st₁ : Stage}
    (hextends : Extends (st.addFunction closure closure') st₁)
    (halike : AlikeClosure sides st₁ isMethod closure closure') :
    AlikeId sides st₁ isMethod st.left.functions.size := by
  have hleft : (st.left.functions.push closure)[st.left.functions.size]? = some closure := by
    rw [Array.getElem?_push, if_pos rfl]
  have hright : (st.right.functions.push closure')[st.left.functions.size]? = some closure' := by
    rw [Array.getElem?_push, if_pos hsize.symm]
  exact ⟨closure, closure', hextends.functions _ _ hleft, hextends.functions' _ _ hright, halike⟩

/-!
# Binding a receiver
-/

theorem alikeId_bound {closure closure' : Closure} {receiver : Value}
    (halike : AlikeClosure sides st true closure closure')
    (hsize : st.right.functions.size = st.left.functions.size) :
    let st₁ := st.create .this closure.env [("this", receiver)] [("this", receiver)]
    AlikeId sides (st₁.addFunction { closure with env := st.left.environments.size }
      { closure' with env := st.left.environments.size }) false st.left.functions.size := by
  intro st₁
  rcases halike.body with ⟨Γ, hchain, hbody⟩
  have hinside := chain_create .this [("this", receiver)] [("this", receiver)] hchain
    (fun _ hname => by cases hname)
  have hkind : st₁.kinds st.left.environments.size = .this := if_pos rfl
  have hsize₁ : st₁.right.functions.size = st₁.left.functions.size := hsize
  refine alikeId_of_addFunction hsize₁ (.refl _) ?_
  exact {
    env := rfl
    isInitialiser := halike.isInitialiser
    flaw := halike.flaw
    flaw' := halike.flaw'
    receiver := fun _ _ => hkind
    body := ⟨.this :: Γ, hinside.mono (grows_addFunction _ _ _).toExtends, hbody⟩ }

theorem agree_bindMethod {f : FunctionId} {receiver : Value} (hf : AlikeId sides st true f)
    (hreceiver : Sound sides st receiver) :
    Agree sides st (Eval.bindMethod f receiver) (Eval.bindMethod f receiver)
      fun st₁ bound => AlikeId sides st₁ false bound ∧
        st₁.left.functionArity bound = st.left.functionArity f := by
  rcases hf with ⟨closure, closure', hleft, hright, halike⟩
  apply Agree.get
  intro hrelated
  simp only [hleft, hright]
  have hthis : AlikeEnvironment sides st ⟨[("this", receiver)], some closure.env⟩
      ⟨[("this", receiver)], some closure.env⟩ .this := ⟨receiver, rfl, rfl, hreceiver⟩
  rw [halike.env]
  refine Agree.bind (agree_newEnvironment hthis) ?_
  rintro _ _ _ ⟨rfl, rfl⟩
  refine (agree_newFunction _ _).imp ?_
  rintro _ _ _ ⟨rfl, rfl, hsize⟩
  constructor
  · exact alikeId_bound halike hsize
  · unfold Machine.functionArity
    rw [hleft]
    have hnew : (st.left.functions.push { closure with env := st.left.environments.size })[
        st.left.functions.size]? = some { closure with env := st.left.environments.size } := by
      rw [Array.getElem?_push, if_pos rfl]
    simp only [Stage.addFunction, Stage.create, hnew]

/-!
# Properties
-/

theorem alikeId_of_findMethod (hrelated : Related sides st) {c : ClassId} {name : String}
    {f : FunctionId} (hfound : st.left.findMethod c name = some f) :
    AlikeId sides st true f := by
  rcases Machine.exists_class_of_findMethod (fun _ _ _ _ _ _ => trivial) trivial hfound with
    ⟨c', cls, _, hcls, hentry⟩
  exact hrelated.methods c' cls hcls _ hentry

theorem sound_of_alikeId {f : FunctionId} (hf : AlikeId sides st false f) :
    Sound sides st (.function f) := by
  intro g hg
  cases hg
  exact hf

theorem sound_of_not_function {value : Value} (hvalue : ∀ f, value ≠ .function f) :
    Sound sides st value := by
  intro f hf
  exact absurd hf (hvalue f)

theorem agree_bound {f : FunctionId} {receiver : Value} (hf : AlikeId sides st true f)
    (hreceiver : Sound sides st receiver) :
    Agree sides st (Value.function <$> Eval.bindMethod f receiver)
      (Value.function <$> Eval.bindMethod f receiver) (Sound sides) := by
  apply Agree.map
  refine (agree_bindMethod hf hreceiver).imp ?_
  rintro _ _ _ ⟨hbound, _⟩
  exact sound_of_alikeId hbound

theorem agree_getProperty (i : InstanceId) {name name' : Token}
    (hname : SameToken sides name name') :
    Agree sides st (Eval.getProperty i name) (Eval.getProperty i name') (Sound sides) := by
  apply Agree.get
  intro hrelated
  rw [hrelated.instances, hname.lexeme]
  cases hobject : st.left.instances[i]? with
  | none => exact Agree.fail hname.related _
  | some object =>
      cases hfield : object.fields.get? name.lexeme with
      | some value =>
          simp only [hfield]
          exact Agree.pure (hrelated.fields i object hobject _ (mem_of_lookup hfield))
      | none =>
          simp only [hfield, Machine.findMethod_congr hrelated.classes]
          cases hmethod : st.left.findMethod object.cls name.lexeme with
          | none => exact Agree.fail hname.related _
          | some f =>
              exact agree_bound (alikeId_of_findMethod hrelated hmethod)
                (sound_of_not_function (fun _ => Value.noConfusion))

section

variable {Γ : List Frame} {keyword keyword' : Reference} {depth : Nat} (hhere : Here st Γ)
variable (hsees : sides.sees keyword.node (some (depth + 1)))
variable (hsees' : sides.sees' keyword'.node (some (depth + 1)))
variable (hthis : Γ[depth]? = some .this) (hsuper : Γ[depth + 1]? = some .super)

include hhere hsees hsees' hthis hsuper

theorem agree_superParts :
    Agree sides st (Eval.superParts keyword) (Eval.superParts keyword')
      fun st₁ parts => (∃ c, parts.1 = .cls c) ∧ Sound sides st₁ parts.2 := by
  apply Agree.get
  intro hrelated
  rcases getAt_of_super hrelated hhere hsuper with ⟨c, hparent, hparent'⟩
  rcases getAt_of_this hrelated hhere hthis with ⟨receiver, hreceiver, hreceiver', hsound⟩
  rw [← hrelated.current] at hparent' hreceiver'
  rw [(hrelated.sees hsees).depth?_eq, (hrelated.sees' hsees').depth?_eq]
  simp only [hparent, hparent', Nat.add_sub_cancel, hreceiver, hreceiver']
  exact Agree.pure ⟨⟨c, rfl⟩, hsound⟩

theorem agree_superMethod {method method' : Token} (hmethod : SameToken sides method method') :
    Agree sides st (Eval.superMethod keyword method) (Eval.superMethod keyword' method')
      (Sound sides) := by
  refine Agree.bind (agree_superParts hhere hsees hsees' hthis hsuper) ?_
  rintro st₁ ⟨parent, receiver⟩ hgrows ⟨⟨c, hparent⟩, hreceiver⟩
  cases hparent
  apply Agree.get
  intro hrelated
  rw [Machine.findMethod_congr hrelated.classes, hmethod.lexeme]
  cases hfound : st₁.left.findMethod c method.lexeme with
  | none => exact Agree.fail hmethod.related _
  | some f => exact agree_bound (alikeId_of_findMethod hrelated hfound) hreceiver

end

/-!
# Classes and instances
-/

theorem grows_addClass (st : Stage) (cls : Class) : Grows st (st.addClass cls) :=
  { Grows.refl st with }

theorem Related.addClass (hrelated : Related sides st) {cls : Class}
    (hmethods : ∀ entry ∈ cls.methods, AlikeId sides st true entry.2) :
    Related sides (st.addClass cls) := by
  have hextends := (grows_addClass st cls).toExtends
  refine { hrelated with
    classes := ?_
    environments := hrelated.environments_mono hextends rfl rfl rfl
    methods := ?_
    fields := hrelated.fields_mono hextends rfl }
  · simp only [Stage.addClass, hrelated.classes]
  · intro c cls' hcls' entry hentry
    rcases getElem?_push_eq_some hcls' with hold | ⟨_, rfl⟩
    · exact (hrelated.methods c cls' hold entry hentry).mono hextends
    · exact (hmethods entry hentry).mono hextends

theorem agree_newClass {cls : Class}
    (hmethods : ∀ entry ∈ cls.methods, AlikeId sides st true entry.2) :
    Agree sides st (Eval.newClass cls) (Eval.newClass cls)
      fun st₁ _ => st₁ = st.addClass cls := by
  intro hrelated
  have hright : Eval.newClass cls st.right = .ok st.left.classes.size (st.addClass cls).right := by
    rw [← hrelated.classes]
    rfl
  rw [hright]
  exact .ok (grows_addClass st cls) (hrelated.addClass hmethods) rfl

theorem grows_addInstance (st : Stage) (c : ClassId) : Grows st (st.addInstance c) :=
  { Grows.refl st with }

theorem agree_newInstance (c : ClassId) :
    Agree sides st (Eval.newInstance c) (Eval.newInstance c)
      fun st₁ _ => st₁ = st.addInstance c := by
  intro hrelated
  have hextends := (grows_addInstance st c).toExtends
  have hright : Eval.newInstance c st.right =
      .ok st.left.instances.size (st.addInstance c).right := by
    rw [← hrelated.instances]
    rfl
  rw [hright]
  refine .ok (grows_addInstance st c) ?_ rfl
  refine { hrelated with
    instances := ?_
    environments := hrelated.environments_mono hextends rfl rfl rfl
    methods := hrelated.methods_mono hextends rfl
    fields := ?_ }
  · simp only [Stage.addInstance, hrelated.instances]
  · intro i object hobject entry hentry
    change (st.left.instances.push { cls := c })[i]? = some object at hobject
    rw [Array.getElem?_push] at hobject
    by_cases hi : i = st.left.instances.size
    · rw [if_pos hi] at hobject
      cases hobject
      cases hentry
    · rw [if_neg hi] at hobject
      exact (hrelated.fields i object hobject entry hentry).mono hextends

namespace Stage

def setField (st : Stage) (i : InstanceId) (name : String) (value : Value) : Stage :=
  let update (object : Instance) : Instance :=
    { object with fields := object.fields.insert name value }
  { st with
    left := { st.left with instances := st.left.instances.modify i update }
    right := { st.right with instances := st.right.instances.modify i update } }

end Stage

theorem agree_setField (i : InstanceId) (name : String) {value : Value}
    (hvalue : Sound sides st value) :
    Agree sides st (Eval.setField i name value) (Eval.setField i name value)
      fun _ _ => True := by
  intro hrelated
  have hgrows : Grows st (st.setField i name value) := { Grows.refl st with }
  have hextends := hgrows.toExtends
  show Ends sides st _ (.ok () (st.setField i name value).left)
    (.ok () (st.setField i name value).right)
  refine .ok hgrows ?_ trivial
  refine { hrelated with
    instances := ?_
    environments := hrelated.environments_mono hextends rfl rfl rfl
    methods := hrelated.methods_mono hextends rfl
    fields := ?_ }
  · simp only [Stage.setField, hrelated.instances]
  · intro k object hobject entry hentry
    simp only [Stage.setField, Array.getElem?_modify] at hobject
    by_cases hk : i = k
    · rw [if_pos hk] at hobject
      rcases Option.map_eq_some_iff.mp hobject with ⟨old, hold, rfl⟩
      rcases Bindings.mem_insert hentry with rfl | hentry
      · exact hvalue.mono hextends
      · exact (hrelated.fields k old hold entry hentry).mono hextends
    · rw [if_neg hk] at hobject
      exact (hrelated.fields k object hobject entry hentry).mono hextends

/-!
# Output and clock
-/

namespace Stage

def printLine (st : Stage) (line : String) : Stage :=
  { st with
    left := { st.left with output := st.left.output.push line }
    right := { st.right with output := st.right.output.push line } }

def readClock (st : Stage) (readings : Nat) : Stage :=
  { st with left := { st.left with readings }, right := { st.right with readings } }

end Stage

theorem print_eq (hrelated : Related sides st) {value : Value}
    (hvalue : Sound sides st value) : st.right.print value = st.left.print value := by
  unfold Machine.print Machine.className
  cases value with
  | function f =>
      rcases hvalue f rfl with ⟨closure, closure', hclosure, hclosure', halike⟩
      rcases halike.body with ⟨Γ, _, hfunction⟩
      have hname : closure'.function.name.lexeme = closure.function.name.lexeme := by
        generalize closure.function = f at hfunction
        generalize closure'.function = f' at hfunction
        cases hfunction with
        | mk _ hname _ _ => exact hname
      simp only [hclosure, hclosure', hname]
  | cls c => simp only [hrelated.classes]
  | object i => simp only [hrelated.instances, hrelated.classes]
  | _ => rfl

theorem agree_emit {value : Value} (hvalue : Sound sides st value) :
    Agree sides st (Eval.emit value) (Eval.emit value) fun _ _ => True := by
  intro hrelated
  have hgrows : Grows st (st.printLine (st.left.print value)) := { Grows.refl st with }
  have hextends := hgrows.toExtends
  have hright : Eval.emit value st.right =
      .ok () (st.printLine (st.left.print value)).right := by
    rw [← print_eq hrelated hvalue]
    rfl
  rw [hright]
  refine .ok hgrows ?_ trivial
  exact { hrelated with
    output := by
      show st.right.output.push _ = st.lead ++ st.left.output.push _
      rw [hrelated.output, Array.append_push]
    environments := hrelated.environments_mono hextends rfl rfl rfl
    methods := hrelated.methods_mono hextends rfl
    fields := hrelated.fields_mono hextends rfl }

theorem grows_readClock (st : Stage) (readings : Nat) : Grows st (st.readClock readings) :=
  { Grows.refl st with }

theorem Related.readClock (hrelated : Related sides st) (readings : Nat) :
    Related sides (st.readClock readings) := by
  have hextends := (grows_readClock st readings).toExtends
  exact { hrelated with
    readings := rfl
    environments := hrelated.environments_mono hextends rfl rfl rfl
    methods := hrelated.methods_mono hextends rfl
    fields := hrelated.fields_mono hextends rfl }

theorem sound_of_gives (hrelated : Related sides st) {arguments : List Value} {value : Value}
    (harguments : ∀ argument ∈ arguments, Sound sides st argument)
    (hgives : ∀ f, value = .function f → .function f ∈ arguments ∨ st.left.toHeap.Holds f) :
    Sound sides st value := by
  intro f hf
  rcases hgives f hf with hargument | ⟨i, object, name, hobject, hfield⟩
  · exact harguments _ hargument f rfl
  · exact hrelated.fields i object hobject _ hfield f rfl

theorem agree_action {native : Native} (hplain : native.Plain sides.stops)
    {arguments : List Value} (harguments : ∀ argument ∈ arguments, Sound sides st argument) :
    Agree sides st (Eval.onHeap (native.action arguments)) (Eval.onHeap (native.action arguments))
      (Sound sides) := by
  intro hrelated
  obtain ⟨readings, hstate⟩ := hplain.leaves arguments st.left.toHeap
  obtain ⟨readings', hstate'⟩ := hplain.leaves arguments st.right.toHeap
  obtain ⟨hsame, hreadings⟩ := @Native.Plain.blind _ _ hplain arguments _ _
    hrelated.classes hrelated.instances hrelated.clock hrelated.readings
  rw [hstate, hstate'] at hreadings
  cases hreadings
  have hgrows := grows_readClock st readings
  have hrelated₁ := hrelated.readClock readings
  unfold Eval.onHeap
  cases houtcome : Eval.outcome (native.action arguments st.left.toHeap) with
  | ok value =>
      rw [Eval.eq_ok_of_outcome houtcome, Eval.eq_ok_of_outcome (hsame.trans houtcome), hstate,
        hstate']
      have hsound : Sound sides st value := by
        refine sound_of_gives hrelated harguments fun f hf => hplain.gives ?_
        rw [houtcome, hf]
      exact .ok hgrows hrelated₁ (hsound.mono hgrows.toExtends)
  | error stop =>
      rw [Eval.eq_error_of_outcome houtcome, Eval.eq_error_of_outcome (hsame.trans houtcome),
        hstate, hstate']
      exact .native hgrows hrelated₁ (hplain.stops houtcome)

theorem agree_callNative (id : NativeId) {arguments : List Value}
    (harguments : ∀ argument ∈ arguments, Sound sides st argument) :
    Agree sides st (Eval.callNative id arguments) (Eval.callNative id arguments)
      (Sound sides) := by
  apply Agree.get
  intro hrelated
  rw [hrelated.natives]
  cases hid : st.left.natives[id]? with
  | none => exact Agree.pure (sound_of_not_function fun _ => Value.noConfusion)
  | some native => exact agree_action (hrelated.plain native (Array.mem_of_getElem? hid)) harguments

end Lexical
end Lox
