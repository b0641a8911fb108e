import Lox.Proofs.Receiver.Expression

/-!
# Statements under the monitor

A function gets the bond of the place where it is declared.  The methods of a class
get it, too, together with the class that the superclass clause denotes; they lose
the bond when they are bound to an instance.
-/

namespace Lox
namespace Lexical

variable {l : Locals} {allowed : String → Prop} {sc : Scene} {bond : Bond} {Γ : List Frame}
variable {inFunction : Bool}

def Permits (allowed : String → Prop) (Γ : List Frame) (ss : List Stmt) : Prop :=
  Γ = [] → ∀ s ∈ ss, ∀ name, s.declared? = some name → allowed name.lexeme

def CompletesAt (l : Locals) (inFunction : Bool) (bond : Bond) (Γ : List Frame) (sc : Scene)
    (completion : Completion) : Prop :=
  (completion = .normal → At sc bond Γ) ∧ Returns (anyTokens l) inFunction sc.stage completion

def ExecutesFollow (l : Locals) (allowed : String → Prop)
    (execute : Stmt → Eval Completion) (execute' : Bond → Stmt → Monitor Completion) : Prop :=
  ∀ (sc : Scene) (bond : Bond) (inFunction : Bool) (Γ : List Frame) (s : Stmt), At sc bond Γ →
    AlikeStmt (anyTokens l) inFunction Γ s s → Permits allowed Γ [s] →
    Follows l allowed sc (execute s) (execute' bond s) (CompletesAt l inFunction bond (after s Γ))

theorem bind_eq_nil {name : String} (hnil : bind name Γ = []) : Γ = [] := by
  cases Γ with
  | nil => rfl
  | cons frame Γ => cases frame <;> cases hnil

theorem after_eq_nil {s : Stmt} (hnil : after s Γ = []) : Γ = [] := by
  unfold after at hnil
  cases hdeclared : s.declared? with
  | none =>
      rw [hdeclared] at hnil
      exact hnil
  | some name =>
      rw [hdeclared] at hnil
      exact bind_eq_nil hnil

theorem permits_cons (frame : Frame) (ss : List Stmt) : Permits allowed (frame :: Γ) ss := by
  intro hnil
  cases hnil

theorem Follows.completes {p : Eval Completion} {q : Monitor Completion} (hat : At sc bond Γ)
    (hp : Follows l allowed sc p q fun sc₁ => Returns (anyTokens l) inFunction sc₁.stage) :
    Follows l allowed sc p q (CompletesAt l inFunction bond Γ) := by
  apply hp.imp
  intro sc₁ completion hlater hreturns
  exact ⟨fun _ => hat.later hlater, hreturns⟩

/-!
# Statements in sequence
-/

section

variable {execute : Stmt → Eval Completion} {execute' : Bond → Stmt → Monitor Completion}

theorem follows_executeAll (hexecute : ExecutesFollow l allowed execute execute') {ss : List Stmt}
    (hat : At sc bond Γ) (halike : AlikeStmts (anyTokens l) inFunction Γ ss ss)
    (hpermits : Permits allowed Γ ss) :
    Follows l allowed sc (Eval.executeAll execute ss) (Monitor.executeAll (execute' bond) ss)
      fun sc₁ => Returns (anyTokens l) inFunction sc₁.stage := by
  induction ss generalizing sc Γ with
  | nil => exact .pure returns_normal
  | cons s ss ih =>
      cases halike with
      | cons hs hss =>
          have hfirst : Permits allowed Γ [s] := by
            intro hnil t ht
            rw [List.mem_singleton.mp ht]
            exact hpermits hnil s List.mem_cons_self
          have hrest : Permits allowed (after s Γ) ss := by
            intro hnil t ht
            exact hpermits (after_eq_nil hnil) t (List.mem_cons_of_mem _ ht)
          apply (hexecute sc bond inFunction Γ s hat hs hfirst).bind
          rintro sc₁ completion _ ⟨hnormal, hreturns⟩
          cases completion with
          | normal => exact ih (hnormal rfl) hss hrest
          | returned value => exact .pure hreturns

/-- A list of statements in an environment that was made for its frame. -/
theorem follows_executeBlock (hexecute : ExecutesFollow l allowed execute execute')
    {body : List Stmt} {e : EnvId} {frame : Frame}
    (hchain : Chain sc.stage e (frame :: Γ)) (htied : Tied sc bond e)
    (halike : AlikeStmts (anyTokens l) inFunction (frame :: Γ) body body) :
    Follows l allowed sc (Eval.executeBlock execute body e)
      (Monitor.executeBlock (execute' bond) body e)
      fun sc₁ => Returns (anyTokens l) inFunction sc₁.stage := by
  have hextends := extends_stage_enter sc e
  have hinside : At (sc.enter e) bond (frame :: Γ) := ⟨hchain.mono hextends, htied.mono hextends⟩
  apply follows_within (follows_executeAll hexecute hinside halike (permits_cons frame body))
  intro sc₁ completion hreturns value hvalue
  rcases hreturns value hvalue with ⟨hfunction, hsound⟩
  exact ⟨hfunction, hsound.mono (extends_stage_enter sc₁ _)⟩

theorem follows_block (hexecute : ExecutesFollow l allowed execute execute') {body : List Stmt}
    (hat : At sc bond Γ) (naming : Naming)
    (halike : AlikeStmts (anyTokens l) inFunction (.names naming (fun _ => False) :: Γ) body body) :
    Follows l allowed sc
      (do
        let e ← Eval.newEnvironment (← get).current []
        Eval.executeBlock execute body e)
      (do
        let e ← Monitor.lift (Eval.newEnvironment (← get).machine.current [])
        Monitor.executeBlock (execute' bond) body e)
      fun sc₁ => Returns (anyTokens l) inFunction sc₁.stage := by
  apply Follows.get
  intro _
  have hempty : AlikeEnvironment (anyTokens l) sc.stage ⟨[], some sc.machine.current⟩
      ⟨[], some sc.machine.current⟩ (.names naming) := ⟨.nil, fun entry hentry => by cases hentry⟩
  apply (follows_newEnvironment hempty).bind
  rintro _ _ _ ⟨rfl, rfl⟩
  have hchain := chain_create (.names naming fun _ => False) [] [] hat.here
    (fun name hname => False.elim hname)
  exact follows_executeBlock hexecute hchain (tied_create [] hat.tied) halike

end

/-!
# Functions
-/

/-- The place of a declaration is not the environment of a superclass. -/
theorem clause_of_declares {name : String} (hfits : Fits l allowed sc) (hat : At sc bond Γ)
    (hname : Declares name name Γ) (parent : Option ClassId) :
    Clause sc parent sc.machine.current := by
  rcases exists_naming hfits.related hat.here hname with ⟨naming, hkind, _⟩
  change sc.kinds sc.machine.current = .names naming at hkind
  intro hsuper
  rw [hkind] at hsuper
  cases hsuper

theorem follows_declareFunction {f : Function} (hat : At sc bond Γ)
    (hname : Declares f.name.lexeme f.name.lexeme Γ) (hallowed : Γ = [] → allowed f.name.lexeme)
    (halike : AlikeFunction (anyTokens l) (bind f.name.lexeme Γ) f f) :
    Follows l allowed sc
      (do
        let id ← Eval.newFunction ⟨f, (← get).current, false, none⟩
        Eval.defineHere f.name.lexeme (.function id)
        pure .normal)
      (do
        let id ← Monitor.newFunction ⟨f, (← get).machine.current, false, none⟩ ⟨bond, none, false⟩
        Monitor.lift (Eval.defineHere f.name.lexeme (.function id))
        pure .normal)
      (CompletesAt l inFunction bond (bind f.name.lexeme Γ)) := by
  apply Follows.get
  intro hfits
  let closure : Closure := ⟨f, sc.machine.current, false, none⟩
  have hclause : Clause sc none closure.env := clause_of_declares hfits hat hname none
  have htied : Tied sc bond closure.env := hat.tied
  have hnew : Follows l allowed sc (Eval.newFunction closure)
      (Monitor.newFunction closure ⟨bond, none, false⟩) _ :=
    follows_newFunction htied hclause fun hinit => by cases hinit
  apply hnew.bind
  rintro _ _ hlater ⟨rfl, rfl⟩
  rcases exists_naming hfits.related hat.here hname with ⟨naming, hkind, _⟩
  have hat₁ := hat.later hlater
  have hchain := chain_define f.name.lexeme f.name.lexeme
    (.function sc.machine.functions.size) hat₁.here hkind
  have halikeClosure : AlikeClosure (anyTokens l) _ false closure closure := {
    env := rfl
    isInitialiser := rfl
    flaw := rfl
    flaw' := rfl
    receiver := fun _ hinit => by cases hinit
    body := ⟨_, hchain, halike⟩ }
  have hsize : sc.stage.right.functions.size = sc.stage.left.functions.size := rfl
  apply (follows_defineHere hat₁ hname hallowed fun hgrows => sound_of_alikeId
    (alikeId_of_addFunction hsize hgrows.toExtends halikeClosure)).bind
  rintro sc₂ _ _ ⟨hat₂, _⟩
  exact .pure ⟨fun _ => hat₂, returns_normal⟩

/-!
# Classes
-/

section

variable {evaluate : Expr → Eval Value} {evaluate' : Bond → Expr → Monitor Value}

theorem follows_superclass (hevaluate : EvaluatesFollow l allowed evaluate evaluate')
    {parent : Option Reference} (hat : At sc bond Γ)
    (halike : AlikeParent (anyTokens l) Γ parent parent) :
    Follows l allowed sc (Eval.superclass evaluate parent)
      (Monitor.superclass (evaluate' bond) parent)
      fun _ found => found.isSome = parent.isSome := by
  cases halike with
  | none => exact .pure rfl
  | some hrefers _ =>
      apply (hevaluate sc bond Γ _ hat (.var hrefers)).bind
      intro sc₁ value _ _
      cases value with
      | cls c => exact .pure rfl
      | _ => exact .fail _ _

theorem follows_methodEnvironment {name : String} (hat : At sc bond Γ)
    (hname : Declares name name Γ) (parent : Option ClassId) :
    Follows l allowed sc (Eval.methodEnvironment parent)
      (Monitor.lift (Eval.methodEnvironment parent)) fun sc₁ e =>
        Chain sc₁.stage e (classFrames parent.isSome Γ) ∧ Tied sc₁ bond e ∧
          Clause sc₁ parent e := by
  cases parent with
  | none =>
      intro hfits
      exact .ok (.refl sc) hfits ⟨hat.here, hat.tied, clause_of_declares hfits hat hname none⟩
  | some c =>
      have hsuper : AlikeEnvironment (anyTokens l) sc.stage
          ⟨[("super", .cls c)], some sc.machine.current⟩
          ⟨[("super", .cls c)], some sc.machine.current⟩ .super := ⟨c, rfl, rfl⟩
      apply (follows_newEnvironment hsuper).imp
      rintro _ _ hlater ⟨rfl, rfl⟩
      refine ⟨?_, ?_, ?_⟩
      · exact chain_create .super _ _ hat.here (fun _ hname => False.elim hname)
      · refine .super ?_ (if_pos rfl)
        show _ < (sc.machine.environments.create _ _).size
        rw [Environments.size_create]
        exact Nat.lt_succ_self _
      · intro _
        refine ⟨c, ?_, rfl⟩
        show ((sc.machine.environments.create (some _) _).values _).get? "super" = _
        rw [Environments.values_create, if_pos rfl]
        rfl

theorem initialises_cons {closure : Closure} {origin : Provenance}
    {table : List (String × FunctionId)} (htable : Initialises sc.machine table)
    (hnamed : closure.function.name.lexeme = initName → closure.isInitialiser = true) :
    Initialises (sc.addFunction closure origin).machine
      ((closure.function.name.lexeme, sc.machine.functions.size) :: table) := by
  intro f hf
  rcases List.mem_cons.mp hf with hnew | hold
  · injection hnew with hname hid
    refine ⟨closure, ?_, hnamed hname.symm⟩
    show (sc.machine.functions.push closure)[f]? = some closure
    rw [Array.getElem?_push, if_pos hid]
  · have hlater := later_addFunction sc closure origin
    exact htable.mono hlater.grows.toExtends f hold

theorem follows_makeMethods {origin : Provenance} {methods : List Function}
    (hhere : Here sc.stage Γ) (htied : Tied sc origin.bond sc.machine.current)
    (hclause : Clause sc origin.parent sc.machine.current)
    (halike : AlikeMethods (anyTokens l) (.this :: Γ) methods methods) (table : Eval.MethodTable)
    (htable : ∀ entry ∈ table, AlikeId (anyTokens l) sc.stage true entry.2)
    (hinits : Initialises sc.machine table) :
    Follows l allowed sc (Eval.makeMethods (fun f => pure ⟨f, none⟩) methods table)
      (Monitor.makeMethods origin methods table) fun sc₁ result =>
        (∀ entry ∈ result, AlikeId (anyTokens l) sc₁.stage true entry.2) ∧
          Initialises sc₁.machine result := by
  induction methods generalizing sc table with
  | nil => exact .pure ⟨htable, hinits⟩
  | cons f methods ih =>
      cases halike with
      | cons hf hrest =>
          rw [Eval.makeMethods, pure_bind]
          apply Follows.get
          intro _
          let closure : Closure := ⟨f, sc.machine.current, f.isInitialiser, none⟩
          have hnamed : f.name.lexeme = initName → closure.isInitialiser = true := beq_iff_eq.mpr
          have hinit : origin.initialises closure = true → closure.isInitialiser = true := by
            intro hinit
            exact hnamed (beq_iff_eq.mp (Bool.and_eq_true_iff.mp hinit).2)
          have hnew : Follows l allowed sc (Eval.newFunction closure)
              (Monitor.newFunction closure origin) _ := follows_newFunction htied hclause hinit
          apply hnew.bind
          rintro _ _ hlater ⟨rfl, rfl⟩
          have hextends := hlater.grows.toExtends
          have hhere₁ := hhere.mono hlater.grows
          have hsize : sc.stage.right.functions.size = sc.stage.left.functions.size := rfl
          refine ih hhere₁ (htied.mono hextends) (hclause.mono htied.lt_size hextends) hrest _ ?_ ?_
          · intro entry hentry
            rcases List.mem_cons.mp hentry with rfl | hentry
            · exact alikeId_of_addFunction hsize (.refl _) (alikeClosure_of_method hhere₁ hf)
            · exact (htable entry hentry).mono hextends
          · exact initialises_cons hinits hnamed

theorem follows_methodTable {e : EnvId} {origin : Provenance} {methods : List Function}
    (hchain : Chain sc.stage e Γ) (htied : Tied sc origin.bond e)
    (hclause : Clause sc origin.parent e)
    (halike : AlikeMethods (anyTokens l) (.this :: Γ) methods methods) :
    Follows l allowed sc (Eval.within e (Eval.methodTable methods))
      (Monitor.within e (Monitor.makeMethods origin methods [])) fun sc₁ table =>
        (∀ entry ∈ table, AlikeId (anyTokens l) sc₁.stage true entry.2) ∧
          Initialises sc₁.machine table := by
  have hextends := extends_stage_enter sc e
  apply follows_within (follows_makeMethods (hchain.mono hextends) (htied.mono hextends)
    (hclause.mono htied.lt_size hextends) halike [] (fun entry hentry => by cases hentry)
    fun f hf => by cases hf)
  rintro sc₁ table ⟨htable, hinits⟩
  have hback := extends_stage_enter sc₁ sc.machine.current
  exact ⟨fun entry hentry => (htable entry hentry).mono hback, hinits.mono hback⟩

theorem follows_newClass {cls : Class}
    (hmethods : ∀ entry ∈ cls.methods, AlikeId (anyTokens l) sc.stage true entry.2)
    (hinits : Initialises sc.machine cls.methods) :
    Follows l allowed sc (Eval.newClass cls) (Monitor.lift (Eval.newClass cls))
      fun _ _ => True := by
  intro hfits
  let sc₁ : Scene :=
    { sc with machine := { sc.machine with classes := sc.machine.classes.push cls } }
  have hlater : Later sc sc₁ := ⟨grows_addClass sc.stage cls, Nat.le_refl _, fun _ _ => rfl⟩
  have hextends := hlater.grows.toExtends
  have hfits₁ : Fits l allowed sc₁ := {
    related := hfits.related.addClass hmethods
    root := hfits.root
    named := hfits.named
    size := hfits.size
    tied := fun f closure hclosure => hfits.tied_later hlater hclosure
    parent := hfits.parent
    initialises := hfits.initialises
    initialisers := by
      intro c other hother
      rcases getElem?_push_eq_some hother with hold | ⟨_, rfl⟩
      · exact (hfits.initialisers c other hold).mono hextends
      · exact hinits.mono hextends }
  exact .ok hlater hfits₁ trivial

theorem follows_declareClass (hevaluate : EvaluatesFollow l allowed evaluate evaluate')
    {name : Token} {parent : Option Reference} {methods : List Function} (hat : At sc bond Γ)
    (hname : Declares name.lexeme name.lexeme Γ) (hallowed : Γ = [] → allowed name.lexeme)
    (hparent : AlikeParent (anyTokens l) Γ parent parent)
    (halike : AlikeMethods (anyTokens l) (.this :: classFrames parent.isSome (bind name.lexeme Γ))
      methods methods) :
    Follows l allowed sc (Eval.declareClass evaluate name parent methods)
      (Monitor.declareClass bond (evaluate' bond) name parent methods)
      fun sc₁ _ => At sc₁ bond (bind name.lexeme Γ) := by
  have hname₁ := declares_bind hname name.lexeme
  rw [Eval.declareClass_eq]
  apply (follows_superclass hevaluate hat hparent).bind
  intro sc₁ found hlater₁ hfound
  rw [← hfound] at halike
  apply (follows_defineHere (hat.later hlater₁) hname hallowed
    fun _ => sound_of_not_function fun _ => Value.noConfusion).bind
  rintro sc₂ _ _ ⟨hat₂, hbinds⟩
  apply (follows_methodEnvironment hat₂ hname₁ found).bind
  rintro sc₃ e hlater₃ ⟨hchain, htied, hclause⟩
  have horigin : Tied sc₃ (Provenance.mk bond found true).bond e := htied
  apply (follows_methodTable hchain horigin hclause halike).bind
  rintro sc₄ table hlater₄ ⟨htable, hinits⟩
  have hnew : Follows l allowed sc₄ (Eval.newClass ⟨name.lexeme, found, table⟩)
      (Monitor.lift (Eval.newClass ⟨name.lexeme, found, table⟩)) fun _ _ => True :=
    follows_newClass htable hinits
  apply hnew.bind
  intro sc₅ c hlater₅ _
  have hlater : Later sc₂ sc₅ := (hlater₃.trans hlater₄).trans hlater₅
  have hat₅ := hat₂.later hlater
  have hbinds₅ :
      (sc₅.machine.environments.values sc₅.machine.current).binds name.lexeme = true := by
    have hcurrent : sc₅.machine.current = sc₂.machine.current := hlater.grows.current
    rw [hcurrent]
    exact hlater.grows.binds _ _ hbinds
  apply Follows.get
  intro _
  apply (follows_assignFrom (agree_assignHere hat₅.here hname₁ hbinds₅
    (sound_of_not_function fun _ => Value.noConfusion))).imp
  intro sc₆ _ hlater₆ _
  exact hat₅.later hlater₆

/-!
# Statements
-/

theorem follows_optional (hevaluate : EvaluatesFollow l allowed evaluate evaluate')
    {e : Option Expr} (hat : At sc bond Γ) (halike : AlikeOptional (anyTokens l) Γ e e) :
    Follows l allowed sc (Eval.optional evaluate e) (Monitor.optional (evaluate' bond) e)
      fun sc₁ => Sound (anyTokens l) sc₁.stage := by
  cases halike with
  | none => exact .pure (sound_of_not_function fun _ => Value.noConfusion)
  | some he => exact hevaluate sc bond Γ _ hat he

theorem follows_stmtStep {execute : Stmt → Eval Completion}
    {execute' : Bond → Stmt → Monitor Completion}
    (hevaluate : EvaluatesFollow l allowed evaluate evaluate')
    (hexecute : ExecutesFollow l allowed execute execute') {s : Stmt} (hat : At sc bond Γ)
    (halike : AlikeStmt (anyTokens l) inFunction Γ s s) (hpermits : Permits allowed Γ [s]) :
    Follows l allowed sc (Eval.stmtStep evaluate execute s)
      (Monitor.stmtStep bond (evaluate' bond) (execute' bond) s)
      (CompletesAt l inFunction bond (after s Γ)) := by
  have hdeclares : Γ = [] → ∀ name, s.declared? = some name → allowed name.lexeme :=
    fun hnil => hpermits hnil s List.mem_cons_self
  -- A branch or a body declares nothing, so the frames behind it are those before it.
  have hbranch : ∀ {sc₁ : Scene} {t : Stmt}, At sc₁ bond Γ → t.declared? = none →
      AlikeStmt (anyTokens l) inFunction Γ t t →
      Follows l allowed sc₁ (execute t) (execute' bond t) (CompletesAt l inFunction bond Γ) := by
    intro sc₁ t hat₁ hdeclared halike
    have hpermits₁ : Permits allowed Γ [t] := by
      intro _ t' ht' name hname
      rw [List.mem_singleton.mp ht', hdeclared] at hname
      cases hname
    have hfollows := hexecute sc₁ bond inFunction Γ t hat₁ halike hpermits₁
    rw [after_of_declared hdeclared] at hfollows
    exact hfollows
  cases halike with
  | block naming hbody => exact (follows_block hexecute hat naming hbody).completes hat
  | classDecl hname _ hparent hmethods =>
      apply (follows_declareClass hevaluate hat hname (fun hnil => hdeclares hnil _ rfl) hparent
        hmethods).bind
      intro sc₁ _ _ hat₁
      exact .pure ⟨fun _ => hat₁, returns_normal⟩
  | expression hinner =>
      apply (hevaluate sc bond Γ _ hat hinner).bind
      intro sc₁ _ hlater _
      exact .pure ⟨fun _ => hat.later hlater, returns_normal⟩
  | funDecl hname hfunction =>
      exact follows_declareFunction hat hname (fun hnil => hdeclares hnil _ rfl) hfunction
  | ifThen hcondition hdeclared hthen =>
      apply (hevaluate sc bond Γ _ hat hcondition).bind
      intro sc₁ condition hlater _
      cases condition.isTruthy with
      | true => exact hbranch (hat.later hlater) hdeclared hthen
      | false => exact .pure ⟨fun _ => hat.later hlater, returns_normal⟩
  | ifElse hcondition hdeclaredThen hthen hdeclaredElse helse =>
      apply (hevaluate sc bond Γ _ hat hcondition).bind
      intro sc₁ condition hlater _
      cases condition.isTruthy with
      | true => exact hbranch (hat.later hlater) hdeclaredThen hthen
      | false => exact hbranch (hat.later hlater) hdeclaredElse helse
  | print hinner =>
      apply (hevaluate sc bond Γ _ hat hinner).bind
      intro sc₁ value hlater₁ hsound
      apply (Follows.quiet (agree_emit hsound) rfl).bind
      intro sc₂ _ hlater₂ _
      exact .pure ⟨fun _ => hat.later (hlater₁.trans hlater₂), returns_normal⟩
  | ret hvalue =>
      apply (follows_optional hevaluate hat hvalue).bind
      intro sc₁ value _ hsound
      refine .pure ⟨Completion.noConfusion, ?_⟩
      intro value' hvalue'
      cases hvalue'
      exact ⟨rfl, hsound⟩
  | varDecl hname hinitial =>
      apply (follows_optional hevaluate hat hinitial).bind
      intro sc₁ value hlater hsound
      apply (follows_defineHere (hat.later hlater) hname (fun hnil => hdeclares hnil _ rfl)
        fun hgrows => hsound.mono hgrows.toExtends).bind
      rintro sc₂ _ _ ⟨hat₂, _⟩
      exact .pure ⟨fun _ => hat₂, returns_normal⟩
  | whileLoop hcondition hdeclared hbody =>
      apply (hevaluate sc bond Γ _ hat hcondition).bind
      intro sc₁ condition hlater _
      have hat₁ := hat.later hlater
      cases condition.isTruthy with
      | true =>
          apply (hbranch hat₁ hdeclared hbody).bind
          rintro sc₂ completion _ ⟨hnormal, hreturns⟩
          cases completion with
          | normal => exact hbranch (hnormal rfl) rfl (.whileLoop hcondition hdeclared hbody)
          | returned value => exact .pure ⟨Completion.noConfusion, hreturns⟩
      | false => exact .pure ⟨fun _ => hat₁, returns_normal⟩

end

end Lexical
end Lox
