import Lox.Proofs.Scan.Tokens
import Lox.Proofs.Session.Outcome
import Lox.Proofs.Session.Reachable

/-!
# Sources one after the other

Two sources can be run one after the other or as one source with a newline
between them.  A program is only moved down by what stands in front of it, and
tokens on other lines make a difference to nothing but the lines of errors.

To see where an error comes from, the second program is compared with a copy of
itself that stands below all lines of earlier sources.  A token in an error of
that copy tells by its line whether it belongs to the copy.
-/

namespace Lox

theorem Grammar.program_append {greedy : Bool} {first second : List Stmt} {ts us : List Token}
    (hfirst : Program greedy first ts) (hsecond : Program greedy second us) :
    Program greedy (first ++ second) (ts ++ us) := by
  unfold Program at hfirst
  generalize hphrase : StmtPhrase.declarations first = phrase at hfirst
  induction hfirst generalizing first with
  | noDeclarations =>
      cases hphrase
      exact hsecond
  | moreDeclarations htree _ _ ih =>
      cases hphrase
      rw [List.append_assoc]
      exact .moreDeclarations htree (ih rfl)
  | _ => cases hphrase

/-- If the first program ends normally, the second one is executed on the machine it leaves. -/
theorem Eval.interpret_append {n : Nat} {first second : List Stmt} {m m' : Machine}
    (hfirst : interpret n first m = .ok .normal m') :
    interpret n (first ++ second) m = interpret n second m' := by
  unfold interpret at hfirst ⊢
  induction first generalizing m with
  | nil =>
      cases hfirst
      rfl
  | cons s first ih =>
      rw [List.cons_append, executeAll] at *
      change EStateM.bind _ _ _ = _ at hfirst
      change EStateM.bind _ _ _ = _
      unfold EStateM.bind at hfirst ⊢
      cases hs : execute n s m with
      | error stop m₁ =>
          rw [hs] at hfirst
          cases hfirst
      | ok completion m₁ =>
          simp only [hs] at hfirst ⊢
          cases completion with
          | normal => exact ih hfirst
          | returned value => cases hfirst

/-!
# Programs further down
-/

namespace Lexical

def movedProgram (lines : Nat) (program : List Stmt) : List Stmt :=
  Stmt.relabels (Token.down lines) program

theorem keepsSyntax_down (lines : Nat) : KeepsSyntax (Token.down lines) :=
  ⟨fun _ => rfl, fun _ _ => rfl⟩

/-- A token below the given lines, moved as if it stood below other lines instead. -/
def replaceLines (lines others : Nat) (t : Token) : Token :=
  if t.line ≤ lines then t else { t with line := t.line - (lines + 1) + others }

theorem keepsSyntax_replaceLines (lines others : Nat) :
    KeepsSyntax (replaceLines lines others) ∧
      ∀ t, (replaceLines lines others t).lexeme = t.lexeme := by
  unfold replaceLines
  refine ⟨⟨?_, ?_⟩, ?_⟩
  · intro t
    split <;> rfl
  · intro t _
    split <;> rfl
  · intro t
    split <;> rfl

theorem replaceLines_down (lines others : Nat) (t : Token) :
    replaceLines lines others (t.down (lines + 1)) = t.down others := by
  have hbelow : ¬ t.line + (lines + 1) ≤ lines := by omega
  simp only [replaceLines, Token.down, if_neg hbelow, Nat.add_sub_cancel]

theorem Ends.normal {sides : Sides} {st : Stage}
    {result result' : EStateM.Result Stop Machine Completion}
    (hends : Ends sides st (fun _ completion => completion = .normal) result result')
    (hstops : ∀ stop, ¬ sides.stops stop) (herror : Eval.error? result = none)
    (htimeout : Eval.isTimeout result = false) : ∃ m, result = .ok .normal m := by
  cases hends with
  | ok _ _ hnormal =>
      rw [hnormal]
      exact ⟨_, rfl⟩
  | error => cases herror
  | outOfFuel => cases htimeout
  | native _ _ hstop => exact absurd hstop (hstops _)

/-- What the resolver found out about both parts of a program is seen when it is loaded. -/
theorem seen_load_append {first second : List Stmt}
    (hfirst : (resolve (Stmt.allNumbered 0 first)).diagnostics = [])
    (hsecond : (resolve (Stmt.allNumbered 0 second)).diagnostics = []) (m : Machine) :
    let l := (m.load (first ++ second)).locals
    Resolve.Seen l.Tells (resolve (m.numbered first)).findings ∧
      Resolve.Seen l.Tells
        (resolve (Stmt.allNumbered (m.locals.size + Stmt.allPlaces first) second)).findings := by
  have hseen := seen_load (resolve_append_silent hfirst hsecond) m
  rw [Machine.numbered, Stmt.allNumbered_append, findings_resolve_append] at hseen
  exact Resolve.seen_append.mp hseen

section

variable {source : String} {trees : List Stmt} (hcompile : compile source = some trees)

include hcompile

theorem resolve_moved (lines : Nat) :
    (resolve (Stmt.allNumbered 0 (movedProgram lines trees))).diagnostics = [] :=
  (resolve_relabels_silent (g := Token.down lines) (fun _ => rfl) trees).mpr
    (compile_eq_some.mp hcompile).2.2

theorem compile_lower (lines : Nat) :
    compile (lower lines source) = some (movedProgram lines trees) := by
  rcases compile_eq_some.mp hcompile with ⟨hscan, htrees, _⟩
  rcases scan_lower hscan lines with ⟨hscan', htokens⟩
  have htrees' := program_relabels (keepsSyntax_down lines) htrees
  rw [← htokens] at htrees'
  exact compile_eq_some.mpr ⟨hscan', htrees', resolve_moved hcompile lines⟩

theorem compile_join {first : String} {program : List Stmt}
    (hfirst : compile first = some program) :
    compile (first ++ "\n" ++ source) =
      some (program ++ movedProgram (newlines first + 1) trees) := by
  rcases compile_eq_some.mp hfirst with ⟨hscanFirst, hprogram, hresolveFirst⟩
  rcases compile_eq_some.mp hcompile with ⟨hscan, htrees, _⟩
  rcases scan_join hscanFirst hscan with ⟨hscan', htokens⟩
  have htrees' := Grammar.program_append hprogram
    (program_relabels (keepsSyntax_down (newlines first + 1)) htrees)
  rw [← htokens] at htrees'
  exact compile_eq_some.mpr
    ⟨hscan', htrees', resolve_append_silent hresolveFirst (resolve_moved hcompile _)⟩

/-- The copy of a program below all lines is alike to the copy that stands elsewhere. -/
theorem alike_movedProgram (lines others : Nat) {l l' : Locals} {k k' : NodeId}
    (hseen : Resolve.Seen l.Tells
      (resolve (Stmt.allNumbered k (movedProgram (lines + 1) trees))).findings)
    (hseen' : Resolve.Seen l'.Tells
      (resolve (Stmt.allNumbered k' (movedProgram others trees))).findings) :
    AlikeStmts (tables l l' (fun t t' => t' = replaceLines lines others t) fun _ => False) false []
      (Stmt.allNumbered k (movedProgram (lines + 1) trees))
      (Stmt.allNumbered k' (movedProgram others trees)) := by
  rcases compile_eq_some.mp hcompile with ⟨hscan, htrees, _⟩
  rcases keepsSyntax_replaceLines lines others with ⟨hkeeps, hlexeme⟩
  have hdown := program_relabels (keepsSyntax_down (lines + 1)) htrees
  have hgenuine : ∀ t ∈ (scan source).tokens.map (Token.down (lines + 1)), t.Genuine := by
    intro t ht
    rcases List.mem_map.mp ht with ⟨u, hu, rfl⟩
    have hgenuine := genuine_of_mem_scan hu
    exact hgenuine
  have hsame : Stmt.relabels (replaceLines lines others) (movedProgram (lines + 1) trees) =
      movedProgram others trees := by
    have hboth := program_relabels hkeeps hdown
    rw [List.map_map] at hboth
    have hcomp : replaceLines lines others ∘ Token.down (lines + 1) = Token.down others :=
      funext (replaceLines_down lines others)
    rw [hcomp] at hboth
    exact program_unique (program_relabels (keepsSyntax_down others) htrees) hboth
  rw [← hsame] at hseen' ⊢
  apply alike_relabels hdown hgenuine hkeeps.kind hlexeme _ hseen hseen'
  exact fun _ _ => rfl

theorem seenAlike_movedProgram {lines : Nat} {m : Machine} (hsettled : Settled lines m)
    (others n : Nat) :
    SeenAlike (fun t t' => t' = replaceLines lines others t) #[]
      (Eval.interpret n (m.numbered (movedProgram (lines + 1) trees))
        (m.load (movedProgram (lines + 1) trees)))
      (Eval.interpret n (m.numbered (movedProgram others trees))
        (m.load (movedProgram others trees))) := by
  rcases hsettled.related (fun t t' => t' = replaceLines lines others t) (fun _ => False) (by
    intro t ht
    rw [replaceLines, if_pos ht]) with ⟨kinds, hrelated, hhere⟩
  have halike := alike_movedProgram hcompile lines others
    (seen_load (resolve_moved hcompile (lines + 1)) m) (seen_load (resolve_moved hcompile others) m)
  exact (ends_load hrelated hhere halike n).seenAlike fun _ => id

end

section

variable {first : String} {program : List Stmt} {lines n : Nat} {m m₁ : Machine}
variable (hfirst : compile first = some program) (hsettled : Settled lines m)
variable (hlines : ∀ t ∈ (scan first).tokens, t.line ≤ lines)
variable (hnormal : Eval.interpret n (m.numbered program) (m.load program) = .ok .normal m₁)

include hfirst hsettled hlines hnormal

theorem exists_behind {related : Token → Token → Prop} (hrefl : ∀ t, t.line ≤ lines → related t t)
    {rest : List Stmt} (hrest : (resolve (Stmt.allNumbered 0 rest)).diagnostics = []) :
    ∃ st : Stage, st.left = m₁ ∧
      Eval.interpret n (m.numbered program) (m.load (program ++ rest)) = .ok .normal st.right ∧
      st.right.output = m₁.output ∧ Here st [] ∧
      Related (tables m₁.locals (m.load (program ++ rest)).locals related fun _ => False) st := by
  rcases hsettled.related related (fun _ => False) hrefl with ⟨kinds, hrelated, hhere⟩
  have hresolve := (compile_eq_some.mp hfirst).2.2
  let loaded : Stage := ⟨kinds, m.load program, m.load (program ++ rest), #[]⟩
  have hloaded : Here loaded [] := hhere
  have halike : AlikeStmts (tables _ _ related fun _ => False) false [] _ _ :=
    alike_seen hfirst (fun t ht => hrefl t (hlines t ht)) (seen_load hresolve m)
      (seen_load_append hresolve hrest m).1
  have hends := agree_interpret n hloaded halike (hrelated.load program (program ++ rest))
  change Ends _ _ _ (Eval.interpret n (m.numbered program) (m.load program))
    (Eval.interpret n (m.numbered program) (m.load (program ++ rest))) at hends
  have hlocals : m₁.locals = (m.load program).locals := by
    have hstill := (Eval.still_interpret n (m.numbered program) (m.load program)).2
    rw [hnormal] at hstill
    exact hstill
  rw [hnormal] at hends
  generalize Eval.interpret n _ (m.load (program ++ rest)) = result at hends ⊢
  cases hends with
  | @ok st _ hgrows hrelated₁ _ =>
      refine ⟨st, rfl, rfl, ?_, hloaded.mono hgrows, hlocals ▸ hrelated₁⟩
      rw [hrelated₁.output, hgrows.lead]
      exact Array.empty_append

/-- A copy of a program runs alike behind the first one, also if both were loaded together. -/
theorem seenAlike_append {source : String} {trees : List Stmt}
    (hcompile : compile source = some trees) (others : Nat) :
    let behind := Session.machineAfter m n program
    let joined := program ++ movedProgram others trees
    SeenAlike (fun t t' => t' = replaceLines lines others t) m₁.output
      (Eval.interpret n (behind.numbered (movedProgram (lines + 1) trees))
        (behind.load (movedProgram (lines + 1) trees)))
      (Eval.interpret n (m.numbered joined) (m.load joined)) := by
  intro behind joined
  let related := fun t t' => t' = replaceLines lines others t
  have hrefl : ∀ t : Token, t.line ≤ lines → related t t := by
    intro t ht
    show t = replaceLines lines others t
    rw [replaceLines, if_pos ht]
  rcases exists_behind hfirst hsettled hlines hnormal hrefl (resolve_moved hcompile others) with
    ⟨st, rfl, hright, houtput, hhere, hrelated⟩
  let copy := movedProgram (lines + 1) trees
  have hbehind : behind = { st.left with output := #[] } := by
    show Session.machineAfter m n program = _
    rw [Session.machineAfter, hnormal]
    rfl
  have hlocals : st.right.locals = (m.load joined).locals := by
    have hstill := (Eval.still_interpret n (m.numbered program) (m.load joined)).2
    rw [hright] at hstill
    exact hstill
  -- what was printed goes to the lead, and the copy is loaded on the left
  let sides := tables (behind.load copy).locals (m.load joined).locals related fun _ => False
  have hle : (tables st.left.locals (m.load joined).locals related fun _ => False).Le sides := by
    refine ⟨fun htells => tells_load ?_ copy, id, id, id⟩
    rw [hbehind]
    exact htells
  have hsplit : Related sides ⟨st.kinds, behind.load copy, st.right, st.left.output⟩ := by
    have houtput' : st.right.output = st.left.output ++ #[] := by rw [houtput, Array.append_empty]
    have hsees : ∀ {node depth}, sides.sees' node depth → st.right.locals.Tells node depth := by
      rw [hlocals]
      exact id
    have hloaded := (hrelated.withOutput houtput').withLocals hle (fun htells => htells) hsees
    rw [hbehind] at hloaded ⊢
    exact hloaded
  have hhere' : Here ⟨st.kinds, behind.load copy, st.right, st.left.output⟩ [] := by
    rw [hbehind]
    exact hhere
  have halike := alike_movedProgram hcompile lines others
    (seen_load (resolve_moved hcompile (lines + 1)) behind)
    (seen_load_append (compile_eq_some.mp hfirst).2.2 (resolve_moved hcompile others) m).2
  have hends := agree_interpret n hhere' halike hsplit
  have hnumbered : m.numbered joined = m.numbered program ++
      Stmt.allNumbered (m.locals.size + Stmt.allPlaces program) (movedProgram others trees) :=
    Stmt.allNumbered_append _ _ _
  rw [hnumbered, Eval.interpret_append hright]
  exact hends.seenAlike fun _ => id

end

/-- An error that was raised at a token of a copy of a program, with its lines replaced. -/
def replaceErrorLines (lines others : Nat) (e : RuntimeError) : RuntimeError :=
  { e with token := replaceLines lines others e.token }

theorem SeenAlike.error?_eq {lines others : Nat} {lead : Array String}
    {result result' : EStateM.Result Stop Machine α}
    (hseen : SeenAlike (fun t t' => t' = replaceLines lines others t) lead result result') :
    Eval.error? result' = (Eval.error? result).map (replaceErrorLines lines others) := by
  have herror := hseen.error
  generalize Eval.error? result = error at herror
  generalize Eval.error? result' = error' at herror
  cases herror with
  | none => rfl
  | @some e e' halike =>
      rcases e' with ⟨token', cause'⟩
      cases halike.token
      cases halike.cause
      rfl

end Lexical

/-!
# Where an error comes from

A token of a source cannot be told from an equal token of an earlier source by
looking at it.  But it moves when the source is moved down.
-/

def RuntimeError.down (lines : Nat) (e : RuntimeError) : RuntimeError :=
  { e with token := e.token.down lines }

namespace Session

/-- A run of the source ends with an error at one of its own tokens. -/
def FailsInside (s : Session) (n : Nat) (source : String) (e : RuntimeError) : Prop :=
  ∀ lines, (s.run n (lower lines source)).runtimeErrors = s.runtimeErrors ++ [e.down lines]

/-- A run of the source ends with an error at a token of an earlier source. -/
def FailsOutside (s : Session) (n : Nat) (source : String) (e : RuntimeError) : Prop :=
  ∀ lines, (s.run n (lower lines source)).runtimeErrors = s.runtimeErrors ++ [e]

theorem FailsInside.not_failsOutside {s : Session} {n : Nat} {source : String}
    {e e' : RuntimeError} (hinside : s.FailsInside n source e) :
    ¬ s.FailsOutside n source e' := by
  intro houtside
  have herror : ∀ lines, e.down lines = e' := by
    intro lines
    simpa using (hinside lines).symm.trans (houtside lines)
  have hlines : e.token.line + 1 = e.token.line :=
    congrArg RuntimeError.line ((herror 1).trans (herror 0).symm)
  omega

/-- The runs of all copies of a source fail inside it, or they all fail outside it. -/
theorem fails_cases {s : Session} {n lines : Nat} {source : String} {error : Option RuntimeError}
    {errors : Nat → Option RuntimeError}
    (hruns : ∀ others, (s.run n (lower others source)).runtimeErrors =
      s.runtimeErrors ++ (errors others).toList)
    (herrors : ∀ others, errors others = error.map (Lexical.replaceErrorLines lines others)) :
    (∀ others, errors others = none) ∨
      ∃ e, (s.FailsInside n source e ∧ ∀ others, errors others = some (e.down others)) ∨
        (s.FailsOutside n source e ∧ ∀ others, errors others = some e) := by
  cases error with
  | none => exact Or.inl herrors
  | some e =>
      by_cases hline : e.token.line ≤ lines
      · have hstays : ∀ others, errors others = some e := by
          intro others
          rw [herrors, Option.map_some, Lexical.replaceErrorLines, Lexical.replaceLines,
            if_pos hline]
        refine Or.inr ⟨e, Or.inr ⟨?_, hstays⟩⟩
        intro others
        rw [hruns, hstays]
        rfl
      · have hmoves : ∀ others, errors others =
            some ((Lexical.replaceErrorLines lines 0 e).down others) := by
          intro others
          simp only [herrors, Option.map_some, Lexical.replaceErrorLines, Lexical.replaceLines,
            if_neg hline, RuntimeError.down, Token.down, Nat.add_zero]
        refine Or.inr ⟨_, Or.inl ⟨?_, hmoves⟩⟩
        intro others
        rw [hruns, hmoves]
        rfl

/-!
# Joining
-/

theorem exists_normal {s : Session} (hs : s.Reachable) (hflags : s.flags = {})
    {source : String} {program : List Stmt} (hcompile : compile source = some program) {n : Nat}
    (herror : (s.run n source).flags.runtimeError = false)
    (htimeout : (s.run n source).timeouts = s.timeouts) :
    ∃ m, Eval.interpret n (s.machine.numbered program) (s.machine.load program) =
      .ok .normal m := by
  have hexecuted := executed_run (by rw [hflags]) hcompile n
  rw [hexecuted.flags] at herror
  rw [hexecuted.timeouts] at htimeout
  rcases hs.settled with ⟨lines, hsettled⟩
  rcases hsettled.related (fun _ _ => True) (fun _ => False) (fun _ _ => trivial) with
    ⟨kinds, hrelated, hhere⟩
  have halike : Lexical.AlikeStmts (Lexical.tables _ _ (fun _ _ => True) fun _ => False)
      false [] _ _ := Lexical.alike_self hcompile (fun _ _ => trivial) s.machine s.machine
  have hends := Lexical.ends_load hrelated hhere halike n
  apply hends.normal fun _ => id
  · simpa [hflags] using herror
  · simpa using htimeout

/--
Splitting a program between two runs does not change it.  Let a source run to its
end without a runtime error.  If another source is run behind it, the same lines
are printed, the same globals are left, the same flags are set and the same
error is reported as if both were run as one source with a newline between them.
In the joined source an error stands further down by the lines of the first part
if it is at a token of the second part, and on the same line otherwise.
-/
theorem run_join {s : Session} (hs : s.Reachable) (hflags : s.flags = {})
    (first second : String) (n : Nat) (hfirst : (compile first).isSome = true)
    (hsecond : (compile second).isSome = true)
    (herror : (s.run n first).flags.runtimeError = false)
    (htimeout : (s.run n first).timeouts = s.timeouts) :
    let split := (s.run n first).run n second
    let joined := s.run n (first ++ "\n" ++ second)
    joined.printedLines = split.printedLines ∧
      joined.machine.shownGlobals = split.machine.shownGlobals ∧
      joined.flags = split.flags ∧ joined.timeouts = split.timeouts ∧
      (split.runtimeErrors = s.runtimeErrors ∧ joined.runtimeErrors = s.runtimeErrors ∨
        ∃ e, split.runtimeErrors = s.runtimeErrors ++ [e] ∧
          ((s.run n first).FailsInside n second e ∧
              joined.runtimeErrors = s.runtimeErrors ++ [e.down (newlines first + 1)] ∨
            (s.run n first).FailsOutside n second e ∧
              joined.runtimeErrors = s.runtimeErrors ++ [e])) := by
  intro split joined
  rcases Option.isSome_iff_exists.mp hfirst with ⟨program, hcompile⟩
  rcases Option.isSome_iff_exists.mp hsecond with ⟨trees, hcompile'⟩
  rcases exists_normal hs hflags hcompile herror htimeout with ⟨m, hm⟩
  have hclear : s.flags.error = false := by rw [hflags]
  -- the first source
  have hbefore := executed_run hclear hcompile n
  have hmachine : (s.run n first).machine = machineAfter s.machine n program := hbefore.machine
  rw [hm] at hbefore
  have hflags' : (s.run n first).flags = {} := by
    rw [hbefore.flags, hflags]
    rfl
  have hclear' : (s.run n first).flags.error = false := by rw [hflags']
  have hnoErrors : (s.run n first).runtimeErrors = s.runtimeErrors := by
    rw [hbefore.runtimeErrors]
    exact List.append_nil _
  -- the copies of the second source
  rcases hs.settled with ⟨lines₀, hsettled₀⟩
  rcases exists_line_bound lines₀ (scan first).tokens with ⟨lines, hle, hlines⟩
  have hsettled := hsettled₀.mono hle
  have hlower := fun others =>
    executed_run hclear' (Lexical.compile_lower hcompile' others) n
  rw [hmachine] at hlower
  have hseen := Lexical.seenAlike_movedProgram hcompile'
    (Lexical.settled_interpret hsettled hcompile hlines n)
  have hsplit : Executed (s.run n first) split _ := hlower 0
  -- the joined source has one of them behind printed lines
  have hjoined : Executed s joined _ :=
    executed_run hclear (Lexical.compile_join hcompile' hcompile) n
  have hseenJoined := Lexical.seenAlike_append hcompile hsettled hlines hm hcompile'
    (newlines first + 1)
  refine ⟨?_, ?_, ?_, ?_, ?_⟩
  · rw [hjoined.printedLines, hsplit.printedLines, hbefore.printedLines, hseenJoined.output,
      (hseen 0 n).output]
    simp [Eval.state]
  · rw [hjoined.machine, hsplit.machine]
    exact hseenJoined.globals.trans (hseen 0 n).globals.symm
  · rw [hjoined.flags, hsplit.flags, hseenJoined.error?_eq, (hseen 0 n).error?_eq, hflags, hflags']
    simp
  · rw [hjoined.timeouts, hsplit.timeouts, htimeout, hseenJoined.timeout, (hseen 0 n).timeout]
  · have herrors := hjoined.runtimeErrors
    rw [hseenJoined.error?_eq, ← (hseen (newlines first + 1) n).error?_eq] at herrors
    rcases fails_cases (fun others => (hlower others).runtimeErrors)
      (fun others => (hseen others n).error?_eq) with hnone | ⟨e, ⟨hfails, hsome⟩ | ⟨hfails, hsome⟩⟩
    · rw [hsplit.runtimeErrors, herrors, hnone, hnone, hnoErrors]
      exact Or.inl ⟨List.append_nil _, List.append_nil _⟩
    · rw [hsplit.runtimeErrors, herrors, hsome, hsome, hnoErrors]
      exact Or.inr ⟨e, rfl, Or.inl ⟨hfails, rfl⟩⟩
    · rw [hsplit.runtimeErrors, herrors, hsome, hsome, hnoErrors]
      exact Or.inr ⟨e, rfl, Or.inr ⟨hfails, rfl⟩⟩

/-- A function of the first source fails in the second one, joined or not. -/
theorem run_join_negation :
    let joined := (start (steadyClock 0)).run 20 "\nfun f(x) { return -x; }\nprint true;\nf(nil);"
    joined.printedLines = ["true"] ∧ joined.flags = ⟨false, true⟩ := by
  have hjoin := run_join (.start {} (steadyClock 0)) rfl "\nfun f(x) { return -x; }"
    "print true;\nf(nil);" 20 (by decide +kernel) (by decide +kernel) (by decide +kernel)
    (by decide +kernel)
  exact ⟨hjoin.1.trans (by decide +kernel), hjoin.2.2.1.trans (by decide +kernel)⟩

end Session
end Lox
