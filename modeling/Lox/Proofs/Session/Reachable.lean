import Lox.Proofs.Binding.Statement
import Lox.Proofs.Heap.Evaluate
import Lox.Proofs.Lexical.Simulation
import Lox.Proofs.Parse.Natural
import Lox.Proofs.Scan.Words
import Lox.Proofs.Session.Steps
import Lox.Proofs.Syntax.Labels

/-!
# Reachable sessions

Whatever was run before, the machine of a session agrees with itself: its
environments were made for the frames around its functions, and all values are
sound.  So a source that compiles runs without a defect.
-/

namespace Lox

/-- Sessions that come from a new one by runs and by clearing the flags. -/
inductive Session.Reachable : Session → Prop where
  | start (flags : Flags) (clock : Nat → Number) : Reachable (Session.startWith flags clock)
  | run {s : Session} (n : Nat) (source : String) : Reachable s → Reachable (s.run n source)
  | clearError {s : Session} : Reachable s → Reachable s.clearError
  | clearRuntimeError {s : Session} : Reachable s → Reachable s.clearRuntimeError

namespace Lexical

open Binding

/-!
# Compiled programs are alike
-/

theorem not_reserved_of_ofWord {lexeme : String} (hword : TokenKind.ofWord lexeme = .identifier) :
    ¬ Reserved lexeme := by
  intro hreserved
  rcases hreserved with rfl | rfl
  · exact absurd hword (by decide)
  · exact absurd hword (by decide)

/-- The sides of two machines that look up their nodes in these tables. -/
def tables (l l' : Locals) (related : Token → Token → Prop) (stops : Stop → Prop) : Sides :=
  ⟨l.Tells, l'.Tells, related, stops⟩

/-- A program is alike to the same program with tokens that keep their kinds and texts. -/
theorem alike_relabels {related : Token → Token → Prop} {stops : Stop → Prop} {g : Token → Token}
    {trees : List Stmt} {ts : List Token} (htrees : Grammar.Program true trees ts)
    (hgenuine : ∀ t ∈ ts, t.Genuine) (hkind : ∀ t, (g t).kind = t.kind)
    (hlexeme : ∀ t, (g t).lexeme = t.lexeme) (hrelated : ∀ t ∈ ts, related t (g t))
    {l l' : Locals} {k k' : NodeId}
    (hseen : Resolve.Seen l.Tells (resolve (Stmt.allNumbered k trees)).findings)
    (hseen' : Resolve.Seen l'.Tells
      (resolve (Stmt.allNumbered k' (Stmt.relabels g trees))).findings) :
    AlikeStmts (tables l l' related stops) false [] (Stmt.allNumbered k trees)
      (Stmt.allNumbered k' (Stmt.relabels g trees)) := by
  have hplain : ∀ t : Token, t.Named (· ∈ ts) → ¬ Reserved t.lexeme :=
    fun t ht => not_reserved_of_ofWord ((hgenuine t ht.2).ofWord_of_identifier ht.1)
  have hg : Relates (tables l l' related stops) l.depth? (· ∈ ts) g :=
    { known := fun hsees => Locals.Tells.depth?_eq hsees
      kind := hkind
      lexeme := fun t _ => hlexeme t
      related := hrelated
      plain := by
        intro t ht
        refine ⟨hplain t ht, ?_⟩
        rw [hlexeme]
        exact hplain t ht
      this := fun t ht hkind => (hgenuine t ht).lexeme_this hkind
      super := fun t ht hkind => (hgenuine t ht).lexeme_super hkind }
  have hwellFormed := Grammar.program_wellFormed htrees (p := (· ∈ ts)) fun t ht => ht
  exact (resolve_alike hg hwellFormed hseen (allGood_of_lexeme hlexeme _) k').2 hseen'

theorem program_relabels {g : Token → Token} (hg : KeepsSyntax g) {trees : List Stmt}
    {ts : List Token} (htrees : Grammar.Program true trees ts) :
    Grammar.Program true (Stmt.relabels g trees) (ts.map g) := by
  have hparse : parse (ts.map g) = ⟨[], some (Stmt.relabels g trees), []⟩ := by
    rw [parse_map hg ts, parse_of_program htrees, Stmt.relabels_eq_map]
    rfl
  have hsilent : (parse (ts.map g)).reports = [] := by rw [hparse]
  rcases program_of_silent hsilent with ⟨trees', hparse', htrees'⟩
  rw [hparse] at hparse'
  cases hparse'
  exact htrees'

theorem program_unique {trees trees' : List Stmt} {ts : List Token}
    (htrees : Grammar.Program true trees ts) (htrees' : Grammar.Program true trees' ts) :
    trees' = trees := by
  have hparse := (parse_of_program htrees').symm.trans (parse_of_program htrees)
  simpa using hparse

/-!
# Machines that agree with themselves
-/

def Stage.twice (kinds : EnvId → EnvKind) (m : Machine) : Stage := ⟨kinds, m, m, #[]⟩

/--
A machine between two runs.  It agrees with itself, whatever tokens are related,
if at least every token of the lines seen so far is related to itself.
-/
structure Settled (lines : Nat) (m : Machine) : Prop where
  output : m.output = #[]
  related : ∀ (related : Token → Token → Prop) (stops : Stop → Prop),
    (∀ t, t.line ≤ lines → related t t) →
    ∃ kinds, Related (tables m.locals m.locals related stops) (Stage.twice kinds m) ∧
      Here (Stage.twice kinds m) []

theorem Settled.mono {lines lines' : Nat} {m : Machine} (hsettled : Settled lines m)
    (hle : lines ≤ lines') : Settled lines' m := by
  refine ⟨hsettled.output, ?_⟩
  intro related stops hrelated
  exact hsettled.related related stops fun t ht => hrelated t (Nat.le_trans ht hle)

theorem Related.withOutput {sides : Sides} {st : Stage}
    (hrelated : Related sides st) {output output' lead : Array String}
    (houtput : output' = lead ++ output) :
    Related sides
      ⟨st.kinds, { st.left with output }, { st.right with output := output' }, lead⟩ := by
  have hextends : Extends st
      ⟨st.kinds, { st.left with output }, { st.right with output := output' }, lead⟩ :=
    { Extends.refl st with }
  exact { hrelated with
    environments := hrelated.environments_mono hextends rfl rfl rfl
    methods := hrelated.methods_mono hextends rfl
    fields := hrelated.fields_mono hextends rfl
    output := houtput }

theorem settled_initial (clock : Nat → Number) : Settled 0 (.initial clock) := by
  refine ⟨rfl, ?_⟩
  intro related stops _
  have hnone : ∀ {α : Type} {a : α} {i : Nat}, (#[] : Array α)[i]? = some a → False := by
    intro α a i hsome
    simp at hsome
  refine ⟨fun _ => .names .same, ?_, rfl, Nat.zero_lt_one⟩
  exact
    { current := rfl
      globals := rfl
      globals_lt := Nat.zero_lt_one
      size := rfl
      enclosing := fun _ => rfl
      environments := by
        intro e env env' henv henv'
        cases henv.symm.trans henv'
        have hvalues : env.values = [("clock", .native 0)] := by
          rcases Array.getElem?_eq_some_iff.mp henv with ⟨he, rfl⟩
          have hzero : e = 0 := Nat.lt_one_iff.mp he
          subst hzero
          rfl
        refine ⟨?_, ?_⟩
        · rw [hvalues]
          exact .cons ⟨rfl, rfl⟩ .nil
        · rw [hvalues]
          intro entry hentry f hvalue
          cases List.mem_singleton.mp hentry
          cases hvalue
      functions := rfl
      classes := rfl
      methods := fun c cls hcls => (hnone hcls).elim
      instances := rfl
      fields := fun i object hobject => (hnone hobject).elim
      natives := rfl
      plain := by
        intro native hnative
        rw [Array.mem_singleton.mp hnative]
        exact Native.plain_clock stops
      clock := rfl
      readings := rfl
      output := rfl
      sees := fun hsees => hsees
      sees' := fun hsees => hsees }

/-!
# Loading
-/

theorem tells_load {m : Machine} {node : NodeId} {depth : Option Nat}
    (htells : m.locals.Tells node depth) (program : List Stmt) :
    (m.load program).locals.Tells node depth :=
  htells.learn (rising_resolve m.locals.size program)

/-- What the resolver found out about a program is seen once the program is loaded. -/
theorem seen_load {program : List Stmt}
    (hresolve : (resolve (Stmt.allNumbered 0 program)).diagnostics = []) (m : Machine) :
    Resolve.Seen (m.load program).locals.Tells (resolve (m.numbered program)).findings := by
  apply seen_learn
  rw [Resolve.silent_iff_diagnostics, diagnostics_resolve_numbered]
  exact hresolve

section

variable {related : Token → Token → Prop} {stops : Stop → Prop}

theorem Related.load {kinds : EnvId → EnvKind} {m m' : Machine} {lead : Array String}
    (hrelated : Related (tables m.locals m'.locals related stops) ⟨kinds, m, m', lead⟩)
    (program program' : List Stmt) :
    Related (tables (m.load program).locals (m'.load program').locals related stops)
      ⟨kinds, m.load program, m'.load program', lead⟩ := by
  have hle : (tables m.locals m'.locals related stops).Le
      (tables (m.load program).locals (m'.load program').locals related stops) :=
    ⟨fun htells => tells_load htells program, fun htells => tells_load htells program',
      fun htoken => htoken, fun hstop => hstop⟩
  exact hrelated.withLocals hle (fun hsees => hsees) fun hsees => hsees

theorem Settled.load {lines : Nat} {m : Machine} (hsettled : Settled lines m)
    (program : List Stmt) : Settled lines (m.load program) := by
  refine ⟨hsettled.output, ?_⟩
  intro related stops hrefl
  rcases hsettled.related related stops hrefl with ⟨kinds, hrelated, hhere⟩
  exact ⟨kinds, hrelated.load program program, hhere⟩

/-- A compiled program is alike to itself, if its tokens are related to themselves. -/
theorem alike_seen {source : String} {program : List Stmt}
    (hcompile : compile source = some program)
    (hrelated : ∀ t ∈ (scan source).tokens, related t t) {l l' : Locals} {k k' : NodeId}
    (hseen : Resolve.Seen l.Tells (resolve (Stmt.allNumbered k program)).findings)
    (hseen' : Resolve.Seen l'.Tells (resolve (Stmt.allNumbered k' program)).findings) :
    AlikeStmts (tables l l' related stops) false [] (Stmt.allNumbered k program)
      (Stmt.allNumbered k' program) := by
  rcases compile_eq_some.mp hcompile with ⟨hscan, htrees, _⟩
  have hgenuine : ∀ t ∈ (scan source).tokens, t.Genuine :=
    fun t ht => genuine_of_mem_scan ht
  have halike : Resolve.Seen l'.Tells
        (resolve (Stmt.allNumbered k' (Stmt.relabels (id : Token → Token) program))).findings →
      AlikeStmts (tables l l' related stops) false [] _ _ :=
    alike_relabels htrees hgenuine (g := id) (fun _ => rfl) (fun _ => rfl) hrelated hseen
  rw [Stmt.relabels_id] at halike
  exact halike hseen'

theorem alike_self {source : String} {program : List Stmt}
    (hcompile : compile source = some program)
    (hrelated : ∀ t ∈ (scan source).tokens, related t t) (m m' : Machine) :
    AlikeStmts (tables (m.load program).locals (m'.load program).locals related stops) false []
      (m.numbered program) (m'.numbered program) :=
  have hresolve := (compile_eq_some.mp hcompile).2.2
  alike_seen hcompile hrelated (seen_load hresolve m) (seen_load hresolve m')

theorem ends_load {kinds : EnvId → EnvKind} {m m' : Machine} {lead : Array String}
    {program program' : List Stmt}
    (hrelated : Related (tables m.locals m'.locals related stops) ⟨kinds, m, m', lead⟩)
    (hhere : Here ⟨kinds, m, m', lead⟩ [])
    (halike : AlikeStmts
      (tables (m.load program).locals (m'.load program').locals related stops) false []
      (m.numbered program) (m'.numbered program')) (n : Nat) :
    Ends (tables (m.load program).locals (m'.load program').locals related stops)
      ⟨kinds, m.load program, m'.load program', lead⟩ (fun _ completion => completion = .normal)
      (Eval.interpret n (m.numbered program) (m.load program))
      (Eval.interpret n (m'.numbered program') (m'.load program')) := by
  have hloaded : Here ⟨kinds, m.load program, m'.load program', lead⟩ [] := hhere
  exact agree_interpret n hloaded halike (hrelated.load program program')

end

/-!
# Runs
-/

theorem exists_twice {kinds : EnvId → EnvKind} {m : Machine} {st : Stage}
    (hgrows : Grows (Stage.twice kinds m) st) (hright : st.right = st.left) :
    ∃ kinds₁ m₁, st = Stage.twice kinds₁ m₁ := by
  have hlead : st.lead = #[] := hgrows.lead
  rcases st with ⟨kinds₁, left, right, lead⟩
  cases hright
  cases hlead
  exact ⟨kinds₁, left, rfl⟩

theorem Ends.twice {sides : Sides} {kinds : EnvId → EnvKind} {m : Machine}
    {post : Stage → α → Prop} {result result' : EStateM.Result Stop Machine α}
    (hends : Ends sides (Stage.twice kinds m) post result result') (hsame : result' = result) :
    ∃ kinds₁, Related sides (Stage.twice kinds₁ (Eval.state result)) ∧
      Grows (Stage.twice kinds m) (Stage.twice kinds₁ (Eval.state result)) ∧
      ∀ value m', result = .ok value m' → post (Stage.twice kinds₁ m') value := by
  cases hends with
  | ok hgrows hrelated hpost =>
      injection hsame with _ hright
      rcases exists_twice hgrows hright with ⟨kinds₁, m₁, rfl⟩
      refine ⟨kinds₁, hrelated, hgrows, ?_⟩
      intro value m' hvalue
      cases hvalue
      exact hpost
  | error hgrows hrelated | outOfFuel hgrows hrelated | native hgrows hrelated =>
      injection hsame with _ hright
      rcases exists_twice hgrows hright with ⟨kinds₁, m₁, rfl⟩
      exact ⟨kinds₁, hrelated, hgrows, by simp⟩

theorem Ends.ne_defect {sides : Sides} {st : Stage} {post : Stage → α → Prop}
    {result result' : EStateM.Result Stop Machine α} (hends : Ends sides st post result result')
    (hstops : ∀ d, ¬ sides.stops (.defect d)) (d : Defect) (m : Machine) :
    result ≠ .error (.defect d) m := by
  cases hends with
  | ok | error | outOfFuel => simp
  | native _ _ hstop =>
      intro heq
      injection heq with hdefect
      rw [hdefect] at hstop
      exact hstops d hstop

section

variable {lines : Nat} {m : Machine} {source : String} {program : List Stmt}

theorem interpretWith_ne_defect (hsettled : Settled lines m)
    (hcompile : compile source = some program) {watch : Expr → Eval Unit}
    (hwatch : ∀ sides, WatchesAlike sides watch watch) (n : Nat) (d : Defect) (m' : Machine) :
    Eval.interpretWith watch n (m.numbered program) (m.load program) ≠
      .error (.defect d) m' := by
  rcases hsettled.related (fun _ _ => True) (fun _ => False) (fun _ _ => trivial) with
    ⟨kinds, hrelated, hhere⟩
  have halike : AlikeStmts (tables _ _ (fun _ _ => True) fun _ => False) false [] _ _ :=
    alike_self hcompile (fun _ _ => trivial) m m
  have hloaded : Here (Stage.twice kinds (m.load program)) [] := hhere
  have hends := agree_interpretWith (hwatch _) n hloaded halike (hrelated.load program program)
  exact hends.ne_defect (fun _ => id) d m'

theorem settled_interpret (hsettled : Settled lines m) (hcompile : compile source = some program)
    (hlines : ∀ t ∈ (scan source).tokens, t.line ≤ lines) (n : Nat) :
    Settled lines (Session.machineAfter m n program) := by
  refine ⟨rfl, ?_⟩
  intro related stops hrefl
  rcases hsettled.related related stops hrefl with ⟨kinds, hrelated, hhere⟩
  have halike : AlikeStmts (tables _ _ related stops) false [] _ _ :=
    alike_self hcompile (fun t ht => hrefl t (hlines t ht)) m m
  rcases (ends_load hrelated hhere halike n).twice rfl with ⟨kinds₁, hrelated₁, hgrows, _⟩
  have hloaded : Here (Stage.twice kinds (m.load program)) [] := hhere
  rw [(Session.still_machineAfter m n program).2]
  exact ⟨kinds₁, hrelated₁.withOutput rfl, (hloaded.mono hgrows : Here _ [])⟩

end

end Lexical

theorem Session.natives_take (s : Session) (step : Step) {native : Native}
    (hnative : native ∈ (s.take step).machine.natives) :
    native ∈ s.machine.natives ∨ step = .native native := by
  have htaken := taken_take s step
  generalize (s.take step).machine = m at htaken hnative
  cases htaken with
  | native added =>
      rcases Array.mem_push.mp hnative with hold | rfl
      · exact Or.inl hold
      · exact Or.inr rfl
  | @run n _ program _ _ =>
      rw [(still_machineAfter s.machine n program).1] at hnative
      exact Or.inl hnative
  | failed _ _ => exact Or.inl hnative
  | idle _ => exact Or.inl hnative

theorem Session.Reachable.settled {s : Session} (hs : s.Reachable) :
    ∃ lines, Lexical.Settled lines s.machine := by
  induction hs with
  | start flags clock => exact ⟨0, Lexical.settled_initial clock⟩
  | @run s n source _ ih =>
      rcases ih with ⟨lines, hsettled⟩
      by_cases hstop : s.flags.error = true ∨ compile source = none
      · rcases Session.machine_run_eq hstop n with hmachine | ⟨program, hmachine⟩
        · rw [hmachine]
          exact ⟨lines, hsettled⟩
        · rw [hmachine]
          exact ⟨lines, hsettled.load program⟩
      · rw [not_or, Bool.not_eq_true] at hstop
        rcases Option.ne_none_iff_exists'.mp hstop.2 with ⟨program, hcompile⟩
        rcases exists_line_bound lines (scan source).tokens with ⟨bound, hle, hlines⟩
        rw [(Session.executed_run hstop.1 hcompile n).machine]
        exact ⟨bound, Lexical.settled_interpret (hsettled.mono hle) hcompile hlines n⟩
  | clearError _ ih => exact ih
  | clearRuntimeError _ ih => exact ih

/--
Resolution is sound.  From a reachable session a source that compiles is executed
without a defect: it ends normally, with a runtime error, or at the bound on the
depth of evaluation.  Each time a reference with a distance is evaluated its name
is bound at that distance, and for a superclass also `this` one environment
nearer, for otherwise the watched run would stop earlier than the plain one.
-/
theorem interpret_sound {s : Session} (hs : s.Reachable) {source : String} {program : List Stmt}
    (hcompile : compile source = some program) (n : Nat) :
    let numbered := s.machine.numbered program
    let loaded := s.machine.load program
    (∀ d m, Eval.interpret n numbered loaded ≠ .error (.defect d) m) ∧
      Eval.interpretWith Eval.watchNames n numbered loaded = Eval.interpret n numbered loaded := by
  intro numbered loaded
  rcases hs.settled with ⟨lines, hsettled⟩
  have hsafe := Lexical.interpretWith_ne_defect hsettled hcompile
    (fun _ => Lexical.watchesAlike_watchNames) n
  have hsame : Eval.interpretWith Eval.watchNames n numbered loaded =
      Eval.interpret n numbered loaded := by
    rcases Eval.refines_interpretWith Eval.refines_watchNames n numbered loaded with
      hsame | ⟨stop, m, ⟨d, rfl⟩, hstop⟩
    · exact hsame
    · exact absurd hstop (hsafe d m)
  change ∀ d m, Eval.interpretWith Eval.watchNames n numbered loaded ≠ _ at hsafe
  rw [hsame] at hsafe
  exact ⟨hsafe, hsame⟩

/-- The methods of a superclass that an earlier run declared are found. -/
theorem interpret_sound_superclass :
    let s := (Session.startWith {} (steadyClock 0)).run 20 "class A { m() { return this; } }"
    ∃ program, compile "class B < A { m() { return super.m(); } } print B().m();" = some program ∧
      let numbered := s.machine.numbered program
      let loaded := s.machine.load program
      (∀ d m, Eval.interpret 20 numbered loaded ≠ .error (.defect d) m) ∧
        Eval.interpretWith Eval.watchNames 20 numbered loaded =
          Eval.interpret 20 numbered loaded := by
  have hcompiles :
      (compile "class B < A { m() { return super.m(); } } print B().m();").isSome = true := by
    decide +kernel
  rcases Option.isSome_iff_exists.mp hcompiles with ⟨program, hcompile⟩
  exact ⟨program, hcompile, interpret_sound (.run 20 _ (.start {} _)) hcompile 20⟩

end Lox
