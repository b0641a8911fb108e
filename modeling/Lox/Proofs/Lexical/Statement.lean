import Lox.Proofs.Evaluate.Class
import Lox.Proofs.Lexical.Expression

/-!
# Alike statements execute alike

One lemma for each kind of statement and of callable, given that their parts run
alike.  A statement that completes normally leaves the frames around it as they
were, with the name that it declares bound in addition.
-/

namespace Lox
namespace Lexical

variable (sides : Sides)

def Returns (inFunction : Bool) (st : Stage) (completion : Completion) : Prop :=
  ∀ value, completion = .returned value → inFunction = true ∧ Sound sides st value

def Completes (inFunction : Bool) (Γ : List Frame) (st : Stage) (completion : Completion) : Prop :=
  (completion = .normal → Here st Γ) ∧ Returns sides inFunction st completion

def ExecutesAlike (execute execute' : Stmt → Eval Completion) : Prop :=
  ∀ (st : Stage) (inFunction : Bool) (Γ : List Frame) (s s' : Stmt), Here st Γ →
    AlikeStmt sides inFunction Γ s s' →
    Agree sides st (execute s) (execute' s') (Completes sides inFunction (after s Γ))

variable {sides} {st : Stage} {inFunction : Bool} {Γ : List Frame}

theorem returns_normal : Returns sides inFunction st .normal := by
  intro value hvalue
  cases hvalue

theorem Agree.completes {p p' : Eval Completion} (hhere : Here st Γ)
    (hp : Agree sides st p p' (Returns sides inFunction)) :
    Agree sides st p p' (Completes sides inFunction Γ) := by
  refine hp.imp ?_
  intro st₁ completion hgrows hreturns
  exact ⟨fun _ => hhere.mono hgrows, hreturns⟩

/-!
# Statements in sequence
-/

section

variable {execute execute' : Stmt → Eval Completion}

theorem agree_executeAll (hexecute : ExecutesAlike sides execute execute') {ss ss' : List Stmt}
    (hhere : Here st Γ) (halike : AlikeStmts sides inFunction Γ ss ss') :
    Agree sides st (Eval.executeAll execute ss) (Eval.executeAll execute' ss')
      (Returns sides inFunction) := by
  induction ss generalizing st ss' Γ with
  | nil =>
      cases halike
      exact Agree.pure returns_normal
  | cons s ss ih =>
      cases halike with
      | cons hs hss =>
          refine Agree.bind (hexecute st inFunction Γ _ _ hhere hs) ?_
          rintro st₁ completion _ ⟨hnormal, hreturns⟩
          cases completion with
          | normal => exact ih (hnormal rfl) hss
          | returned value => exact Agree.pure hreturns

/-- A list of statements in an environment that was made for its frame. -/
theorem agree_executeBlock (hexecute : ExecutesAlike sides execute execute')
    {body body' : List Stmt} {e : EnvId} (hchain : Chain st e Γ)
    (halike : AlikeStmts sides inFunction Γ body body') :
    Agree sides st (Eval.executeBlock execute body e) (Eval.executeBlock execute' body' e)
      (Returns sides inFunction) := by
  have hinside : Here (st.enter e) Γ := hchain.mono (extends_enter st e)
  refine agree_within (agree_executeAll hexecute hinside halike) ?_
  intro st₁ completion hreturns value hvalue
  rcases hreturns value hvalue with ⟨hfunction, hsound⟩
  exact ⟨hfunction, hsound.mono (extends_enter _ _)⟩

theorem agree_block (hexecute : ExecutesAlike sides execute execute') {body body' : List Stmt}
    (hhere : Here st Γ) (naming : Naming)
    (halike : AlikeStmts sides inFunction (.names naming (fun _ => False) :: Γ) body body') :
    Agree sides st
      (do
        let e ← Eval.newEnvironment (← get).current []
        Eval.executeBlock execute body e)
      (do
        let e ← Eval.newEnvironment (← get).current []
        Eval.executeBlock execute' body' e)
      (Returns sides inFunction) := by
  apply Agree.get
  intro hrelated
  rw [hrelated.current]
  have hempty : AlikeEnvironment sides st ⟨[], some st.left.current⟩
      ⟨[], some st.left.current⟩ (.names naming) :=
    ⟨.nil, fun entry hentry => by cases hentry⟩
  refine Agree.bind (agree_newEnvironment hempty) ?_
  rintro _ _ _ ⟨rfl, rfl⟩
  have hchain := chain_create (.names naming fun _ => False) [] [] hhere
    (fun name hname => False.elim hname)
  exact agree_executeBlock hexecute hchain halike

end

/-!
# Functions
-/

theorem agree_declareFunction {f f' : Function} (hhere : Here st Γ)
    (hname : Declares f.name.lexeme f'.name.lexeme Γ)
    (halike : AlikeFunction sides (bind f.name.lexeme Γ) f f') :
    Agree sides st
      (do
        let id ← Eval.newFunction ⟨f, (← get).current, false, none⟩
        Eval.defineHere f.name.lexeme (.function id)
        pure .normal)
      (do
        let id ← Eval.newFunction ⟨f', (← get).current, false, none⟩
        Eval.defineHere f'.name.lexeme (.function id)
        pure .normal)
      (Completes sides inFunction (bind f.name.lexeme Γ)) := by
  apply Agree.get
  intro hrelated
  rw [hrelated.current]
  refine Agree.bind (agree_newFunction _ _) ?_
  rintro _ _ hgrows ⟨rfl, rfl, hsize⟩
  have hhere₁ := hhere.mono hgrows
  rcases exists_naming hrelated hhere hname with ⟨naming, hkind, _⟩
  have hchain := chain_define f.name.lexeme f'.name.lexeme (.function st.left.functions.size)
    hhere₁ hkind
  have halikeClosure : AlikeClosure sides _ false ⟨f, st.left.current, false, none⟩
      ⟨f', st.left.current, false, none⟩ := {
    env := rfl
    isInitialiser := rfl
    flaw := rfl
    flaw' := rfl
    receiver := fun _ hinit => by cases hinit
    body := ⟨_, hchain, halike⟩ }
  refine Agree.bind (agree_defineHere hhere₁ hname fun hgrows => sound_of_alikeId
    (alikeId_of_addFunction hsize hgrows.toExtends halikeClosure)) ?_
  rintro st₂ _ _ ⟨hhere₂, _⟩
  exact Agree.pure ⟨fun _ => hhere₂, returns_normal⟩

/-!
# Classes
-/

theorem agree_superclass {evaluate evaluate' : Expr → Eval Value}
    (hevaluate : EvaluatesAlike sides evaluate evaluate') {parent parent' : Option Reference}
    (hhere : Here st Γ) (halike : AlikeParent sides Γ parent parent') :
    Agree sides st (Eval.superclass evaluate parent) (Eval.superclass evaluate' parent')
      fun _ found => found.isSome = parent.isSome := by
  cases halike with
  | none => exact Agree.pure rfl
  | some hrefers hname =>
      refine Agree.bind (hevaluate st Γ _ _ hhere (.var hrefers)) ?_
      intro st₁ value _ _
      cases value with
      | cls c => exact Agree.pure rfl
      | _ => exact Agree.fail hname _

theorem agree_methodEnvironment (parent : Option ClassId) (hhere : Here st Γ) :
    Agree sides st (Eval.methodEnvironment parent) (Eval.methodEnvironment parent)
      fun st₁ e => Chain st₁ e (classFrames parent.isSome Γ) := by
  cases parent with
  | none =>
      apply Agree.get
      intro hrelated
      rw [hrelated.current]
      exact Agree.pure hhere
  | some c =>
      apply Agree.get
      intro hrelated
      rw [hrelated.current]
      have hsuper : AlikeEnvironment sides st ⟨[("super", .cls c)], some st.left.current⟩
          ⟨[("super", .cls c)], some st.left.current⟩ .super := ⟨c, rfl, rfl⟩
      refine (agree_newEnvironment hsuper).imp ?_
      rintro _ _ _ ⟨rfl, rfl⟩
      exact chain_create .super _ _ hhere (fun _ hname => False.elim hname)

theorem lexeme_of_alikeFunction {f f' : Function} (halike : AlikeFunction sides Γ f f') :
    f'.name.lexeme = f.name.lexeme := by
  cases halike with
  | mk _ hname _ _ => exact hname

theorem alikeClosure_of_method {e : EnvId} {f f' : Function} (hchain : Chain st e Γ)
    (halike : AlikeFunction sides (.this :: Γ) f f') :
    AlikeClosure sides st true ⟨f, e, f.isInitialiser, none⟩ ⟨f', e, f'.isInitialiser, none⟩ where
  env := rfl
  isInitialiser := by
    show (f'.name.lexeme == initName) = (f.name.lexeme == initName)
    rw [lexeme_of_alikeFunction halike]
  flaw := rfl
  flaw' := rfl
  receiver hmethod _ := by cases hmethod
  body := ⟨Γ, hchain, halike⟩

theorem agree_makeMethods {methods methods' : List Function} (hhere : Here st Γ)
    (halike : AlikeMethods sides (.this :: Γ) methods methods') (table : Eval.MethodTable)
    (htable : ∀ entry ∈ table, AlikeId sides st true entry.2) :
    Agree sides st (Eval.makeMethods (fun f => pure ⟨f, none⟩) methods table)
      (Eval.makeMethods (fun f => pure ⟨f, none⟩) methods' table)
      fun st₁ result => ∀ entry ∈ result, AlikeId sides st₁ true entry.2 := by
  induction methods generalizing st methods' table with
  | nil =>
      cases halike
      exact Agree.pure htable
  | cons f methods ih =>
      cases halike with
      | @cons _ _ f' _ methods' hf hrest =>
          rw [Eval.makeMethods, Eval.makeMethods, pure_bind, pure_bind]
          apply Agree.get
          intro hrelated
          rw [hrelated.current]
          refine Agree.bind (agree_newFunction _ _) ?_
          rintro _ _ hgrows ⟨rfl, rfl, hsize⟩
          have hhere₁ := hhere.mono hgrows
          have hclosure := alikeClosure_of_method hhere₁ hf
          dsimp only
          rw [lexeme_of_alikeFunction hf]
          refine ih hhere₁ hrest _ ?_
          intro entry hentry
          rcases List.mem_cons.mp hentry with rfl | hentry
          · exact alikeId_of_addFunction hsize (.refl _) hclosure
          · exact (htable entry hentry).mono hgrows.toExtends

theorem agree_methodTable {e : EnvId} {methods methods' : List Function} (hchain : Chain st e Γ)
    (halike : AlikeMethods sides (.this :: Γ) methods methods') :
    Agree sides st (Eval.within e (Eval.methodTable methods))
      (Eval.within e (Eval.methodTable methods'))
      fun st₁ table => ∀ entry ∈ table, AlikeId sides st₁ true entry.2 := by
  have hinside : Here (st.enter e) Γ := hchain.mono (extends_enter st e)
  refine agree_within (agree_makeMethods hinside halike [] fun entry hentry => by cases hentry) ?_
  intro st₁ table htable entry hentry
  exact (htable entry hentry).mono (extends_enter _ _)

theorem declares_bind {name name' : String} (hname : Declares name name' Γ) (bound : String) :
    Declares name name' (bind bound Γ) := by
  cases Γ with
  | nil => exact hname
  | cons frame Γ => cases frame <;> exact hname

theorem agree_classWithin {name name' : Token} {parent : Option ClassId}
    {methods methods' : List Function} (hhere : Here st Γ)
    (hname : Declares name.lexeme name'.lexeme Γ) (hlexeme : name'.lexeme = name.lexeme)
    (halike : AlikeMethods sides (.this :: classFrames parent.isSome (bind name.lexeme Γ))
      methods methods') :
    Agree sides st (Eval.classWithin name parent (Eval.methodTable methods))
      (Eval.classWithin name' parent (Eval.methodTable methods'))
      fun st₁ _ => Here st₁ (bind name.lexeme Γ) := by
  refine Agree.bind (agree_defineHere hhere hname
    fun _ => sound_of_not_function fun _ => Value.noConfusion) ?_
  rintro st₁ _ hgrows₁ ⟨hhere₁, hbinds⟩
  refine Agree.bind (agree_methodEnvironment parent hhere₁) ?_
  intro st₂ e hgrows₂ hchain
  refine Agree.bind (agree_methodTable hchain halike) ?_
  intro st₃ table hgrows₃ htable
  rw [hlexeme]
  refine Agree.bind (agree_newClass htable) ?_
  rintro st₄ c hgrows₄ hst₄
  have hgrows : Grows st₁ st₄ := (hgrows₂.trans hgrows₃).trans hgrows₄
  apply Agree.get
  intro hrelated
  rw [hrelated.current]
  have hbinds₄ : (st₄.left.environments.values st₄.left.current).binds name.lexeme = true := by
    rw [hgrows.current]
    exact hgrows.binds _ _ hbinds
  refine (agree_assignHere (hhere₁.mono hgrows) (declares_bind hname _) hbinds₄
    (sound_of_not_function fun _ => Value.noConfusion)).imp ?_
  intro st₅ _ hgrows₅ _
  exact (hhere₁.mono hgrows).mono hgrows₅

theorem agree_declareClass {evaluate evaluate' : Expr → Eval Value}
    (hevaluate : EvaluatesAlike sides evaluate evaluate') {name name' : Token}
    {parent parent' : Option Reference} {methods methods' : List Function} (hhere : Here st Γ)
    (hname : Declares name.lexeme name'.lexeme Γ) (hlexeme : name'.lexeme = name.lexeme)
    (hparent : AlikeParent sides Γ parent parent')
    (halike : AlikeMethods sides (.this :: classFrames parent.isSome (bind name.lexeme Γ))
      methods methods') :
    Agree sides st (Eval.declareClass evaluate name parent methods)
      (Eval.declareClass evaluate' name' parent' methods')
      fun st₁ _ => Here st₁ (bind name.lexeme Γ) := by
  rw [Eval.declareClass_eq, Eval.declareClass_eq]
  refine Agree.bind (agree_superclass hevaluate hhere hparent) ?_
  intro st₁ found hgrows₁ hfound
  rw [← hfound] at halike
  exact agree_classWithin (hhere.mono hgrows₁) hname hlexeme halike

/-!
# Statements
-/

theorem agree_optional {evaluate evaluate' : Expr → Eval Value}
    (hevaluate : EvaluatesAlike sides evaluate evaluate') {e e' : Option Expr}
    (hhere : Here st Γ) (halike : AlikeOptional sides Γ e e') :
    Agree sides st (Eval.optional evaluate e) (Eval.optional evaluate' e') (Sound sides) := by
  cases halike with
  | none => exact Agree.pure (sound_of_not_function fun _ => Value.noConfusion)
  | some he => exact hevaluate st Γ _ _ hhere he

theorem after_of_declared {s : Stmt} (hdeclared : s.declared? = none) (Γ : List Frame) :
    after s Γ = Γ := by
  unfold after
  rw [hdeclared]

theorem agree_stmtStep {evaluate evaluate' : Expr → Eval Value}
    {execute execute' : Stmt → Eval Completion}
    (hevaluate : EvaluatesAlike sides evaluate evaluate')
    (hexecute : ExecutesAlike sides execute execute') {s s' : Stmt} (hhere : Here st Γ)
    (halike : AlikeStmt sides inFunction Γ s s') :
    Agree sides st (Eval.stmtStep evaluate execute s) (Eval.stmtStep evaluate' execute' s')
      (Completes sides inFunction (after s Γ)) := by
  -- A branch or a body declares nothing, so the frames behind it are those before it.
  have hbranch : ∀ {st₁ : Stage} {t t' : Stmt}, Here st₁ Γ → t.declared? = none →
      AlikeStmt sides inFunction Γ t t' →
      Agree sides st₁ (execute t) (execute' t') (Completes sides inFunction Γ) := by
    intro st₁ t t' hhere₁ hdeclared halike
    have hagree := hexecute st₁ inFunction Γ t t' hhere₁ halike
    rw [after_of_declared hdeclared] at hagree
    exact hagree
  cases halike with
  | block naming hbody => exact (agree_block hexecute hhere naming hbody).completes hhere
  | classDecl hname hlexeme hparent hmethods =>
      refine Agree.bind (agree_declareClass hevaluate hhere hname hlexeme hparent hmethods) ?_
      intro st₁ _ _ hhere₁
      exact Agree.pure ⟨fun _ => hhere₁, returns_normal⟩
  | expression hinner =>
      refine Agree.bind (hevaluate st Γ _ _ hhere hinner) ?_
      intro st₁ _ hgrows _
      exact Agree.pure ⟨fun _ => hhere.mono hgrows, returns_normal⟩
  | funDecl hname hfunction => exact agree_declareFunction hhere hname hfunction
  | ifThen hcondition hdeclared hthen =>
      refine Agree.bind (hevaluate st Γ _ _ hhere hcondition) ?_
      intro st₁ condition hgrows _
      cases condition.isTruthy with
      | true => exact hbranch (hhere.mono hgrows) hdeclared hthen
      | false => exact Agree.pure ⟨fun _ => hhere.mono hgrows, returns_normal⟩
  | ifElse hcondition hdeclaredThen hthen hdeclaredElse helse =>
      refine Agree.bind (hevaluate st Γ _ _ hhere hcondition) ?_
      intro st₁ condition hgrows _
      cases condition.isTruthy with
      | true => exact hbranch (hhere.mono hgrows) hdeclaredThen hthen
      | false => exact hbranch (hhere.mono hgrows) hdeclaredElse helse
  | print hinner =>
      refine Agree.bind (hevaluate st Γ _ _ hhere hinner) ?_
      intro st₁ value hgrows₁ hsound
      refine Agree.bind (agree_emit hsound) ?_
      intro st₂ _ hgrows₂ _
      exact Agree.pure ⟨fun _ => (hhere.mono hgrows₁).mono hgrows₂, returns_normal⟩
  | ret hvalue =>
      refine Agree.bind (agree_optional hevaluate hhere hvalue) ?_
      intro st₁ value hgrows hsound
      refine Agree.pure ⟨Completion.noConfusion, ?_⟩
      intro value' hvalue'
      cases hvalue'
      exact ⟨rfl, hsound⟩
  | varDecl hname hinitial =>
      refine Agree.bind (agree_optional hevaluate hhere hinitial) ?_
      intro st₁ value hgrows₁ hsound
      refine Agree.bind (agree_defineHere (hhere.mono hgrows₁) hname
        fun hgrows => hsound.mono hgrows.toExtends) ?_
      rintro st₂ _ _ ⟨hhere₂, _⟩
      exact Agree.pure ⟨fun _ => hhere₂, returns_normal⟩
  | whileLoop hcondition hdeclared hbody =>
      refine Agree.bind (hevaluate st Γ _ _ hhere hcondition) ?_
      intro st₁ condition hgrows₁ _
      have hhere₁ := hhere.mono hgrows₁
      cases condition.isTruthy with
      | true =>
          refine Agree.bind (hbranch hhere₁ hdeclared hbody) ?_
          rintro st₂ completion _ ⟨hnormal, hreturns⟩
          cases completion with
          | normal =>
              exact hexecute st₂ inFunction Γ _ _ (hnormal rfl)
                (.whileLoop hcondition hdeclared hbody)
          | returned value => exact Agree.pure ⟨Completion.noConfusion, hreturns⟩
      | false => exact Agree.pure ⟨fun _ => hhere₁, returns_normal⟩

end Lexical
end Lox
