import Lox.Proofs.Binding.Renaming
import Lox.Proofs.Session.Outcome
import Lox.Proofs.Session.Reachable

/-!
# Locals can be renamed

A source and the source with renamed locals are both compared with the program
whose names carry their places: one is that program without the places, the
other one has the new names.  Lines do not change, so tokens on the same line are
related.
-/

namespace Lox
namespace Lexical

open Binding

def SameLine (t t' : Token) : Prop := t'.line = t.line

theorem exists_placedTrees {source : String} {program : List Stmt}
    (hcompile : compile source = some program) :
    ∃ trees, (scan source).diagnostics = [] ∧
      Grammar.Program true trees (placedTokens source) ∧
      (resolve (Stmt.allNumbered 0 trees)).diagnostics = [] ∧
      sourceVisits source = programVisits trees ∧
      program = Stmt.relabels Token.unplaced trees := by
  rcases compile_eq_some.mp hcompile with ⟨hscan, hbare, hresolve⟩
  have hparse := parse_map Token.keepsSyntax_unplaced (placedTokens source)
  rw [map_unplaced_placedTokens, parse_of_program hbare] at hparse
  have hsilent : (parse (placedTokens source)).reports = [] := by
    have hreports := congrArg Parsed.reports hparse
    exact List.map_eq_nil_iff.mp hreports.symm
  rcases program_of_silent hsilent with ⟨trees, hparsed, htrees⟩
  have hsame : program = Stmt.relabels Token.unplaced trees := by
    have hunplaced := program_relabels Token.keepsSyntax_unplaced htrees
    rw [map_unplaced_placedTokens] at hunplaced
    exact program_unique hunplaced hbare
  rw [hsame] at hresolve
  refine ⟨trees, hscan, htrees, ?_, ?_, hsame⟩
  · exact (resolve_relabels_silent Token.lexeme_unplaced trees).mp hresolve
  · rw [sourceVisits, hparsed]
    rfl

theorem visits_load (trees : List Stmt) (m : Machine) :
    stmtsVisits (m.load trees).locals.depth? [] (m.numbered trees) = programVisits trees := by
  have hlocals : (m.load trees).locals = m.locals.append (.ofProgram trees) :=
    m.locals.learn_eq_append trees
  have hshift := stmtsVisits_shift (m.load trees).locals.depth? m.locals.size [] 0 trees
  rw [Nat.zero_add, hlocals, funext (m.locals.depth?_append_right (.ofProgram trees))] at hshift
  rw [hlocals]
  exact hshift

theorem genuine_of_mem_placedTokens {source : String} {t : Token} (ht : t ∈ placedTokens source) :
    t.Genuine := by
  rcases exists_of_mem_placedTokens ht with ⟨u, k, _, hu, rfl⟩
  intro hkind
  rw [Token.kind_placed] at hkind ⊢
  rw [Token.lexeme_placed]
  exact genuine_of_mem_scan hu hkind

section

variable {source : String} {names : Nat → String} (hnames : RenamesLocals source names)

include hnames

theorem isName_rewritten {t : Token} (ht : t.Named (· ∈ placedTokens source)) :
    IsName (t.rewritten names).lexeme := by
  rcases ht with ⟨hkind, hmem⟩
  rw [Token.lexeme_rewritten, if_pos hkind]
  rcases exists_of_mem_placedTokens hmem with ⟨u, k, hentry, _, rfl⟩
  rw [Token.kind_placed] at hkind
  rw [Token.place_placed hkind]
  exact hnames.isName _ hentry hkind

theorem relates_rewritten (l l' : Locals) :
    Relates (tables l l' SameLine fun _ => False) l.depth? (· ∈ placedTokens source)
      (Token.rewritten names) where
  known hsees := Locals.Tells.depth?_eq hsees
  kind := Token.kind_rewritten names
  lexeme t ht := by rw [Token.lexeme_rewritten, if_neg ht]
  related t _ := Token.line_rewritten names t
  plain t ht :=
    ⟨not_reserved_of_ofWord ((genuine_of_mem_placedTokens ht.2).ofWord_of_identifier ht.1),
      not_reserved_of_ofWord (isName_rewritten hnames ht).2⟩
  this t ht hkind := (genuine_of_mem_placedTokens ht).lexeme_this hkind
  super t ht hkind := (genuine_of_mem_placedTokens ht).lexeme_super hkind

/-- The program with places is alike to the source and to the source with renamed locals. -/
theorem alike_renamed {program : List Stmt} (hcompile : compile source = some program)
    (m : Machine) :
    ∃ placed renamed, compile (rename names source) = some renamed ∧
      AlikeStmts (tables (m.load placed).locals (m.load program).locals SameLine fun _ => False)
        false [] (m.numbered placed) (m.numbered program) ∧
      AlikeStmts (tables (m.load placed).locals (m.load renamed).locals SameLine fun _ => False)
        false [] (m.numbered placed) (m.numbered renamed) := by
  rcases exists_placedTrees hcompile with ⟨trees, hscan, htrees, hresolve, hvisits, rfl⟩
  have hgenuine : ∀ t ∈ placedTokens source, t.Genuine :=
    fun t ht => genuine_of_mem_placedTokens ht
  have hbare : AlikeStmts (tables _ _ SameLine fun _ => False) false [] _ _ :=
    alike_relabels htrees hgenuine Token.kind_unplaced Token.lexeme_unplaced
      (fun t _ => Token.line_unplaced t) (seen_load hresolve m)
      (seen_load (compile_eq_some.mp hcompile).2.2 m)
  have hwellFormed :=
    Grammar.program_wellFormed htrees (p := (· ∈ placedTokens source)) fun t ht => ht
  let renamed := Stmt.relabels (Token.rewritten names) trees
  have hgood := hnames.allGood
  rw [hvisits, ← visits_load trees m] at hgood
  have halike := resolve_alike
    (relates_rewritten hnames (m.load trees).locals (m.load renamed).locals) hwellFormed
    (seen_load hresolve m) hgood
  have hsilent : (resolve (Stmt.allNumbered 0 renamed)).diagnostics = [] :=
    Resolve.silent_iff_diagnostics.mp (halike 0).1
  refine ⟨trees, renamed, ?_, hbare, (halike m.locals.size).2 (seen_load hsilent m)⟩
  rcases scan_rename hscan hnames.isName with ⟨hscan', htokens⟩
  have htrees' := program_relabels (Token.keepsSyntax_rewritten names) htrees
  rw [map_rewritten_placedTokens, ← htokens] at htrees'
  exact compile_eq_some.mpr ⟨hscan', htrees', hsilent⟩

end

theorem report_eq {error error' error'' : Option RuntimeError}
    (hfirst : Option.Rel (AlikeError SameLine) error error')
    (hsecond : Option.Rel (AlikeError SameLine) error error'') :
    error''.map (fun e => (e.message, e.line)) = error'.map fun e => (e.message, e.line) := by
  cases hfirst with
  | none =>
      cases hsecond
      rfl
  | some hfirst =>
      cases hsecond with
      | some hsecond =>
          have hmessage := congrArg RuntimeCause.message (hsecond.cause.trans hfirst.cause.symm)
          have hline := hsecond.token.trans hfirst.token.symm
          exact congrArg some (Prod.ext hmessage hline)

end Lexical

namespace Session

open Lexical Binding

/--
Locals can be renamed.  Let each local variable of a source get a fresh name of
its own, in its declaration and in the references that the resolver binds to it.
The source with the new names compiles too.  Run from the same session it prints
the same lines, leaves the same globals, sets the same flags and reports the same
error on the same line.
-/
theorem run_rename {s : Session} (hs : s.Reachable) {source : String}
    (hsource : (compile source).isSome = true) {names : Nat → String}
    (hnames : RenamesLocals source names) (n : Nat) :
    let before := s.run n source
    let behind := s.run n (rename names source)
    (compile (rename names source)).isSome = true ∧
      behind.printedLines = before.printedLines ∧
      behind.machine.shownGlobals = before.machine.shownGlobals ∧
      behind.flags = before.flags ∧ behind.timeouts = before.timeouts ∧
      behind.runtimeErrors.map (fun e => (e.message, e.line)) =
        before.runtimeErrors.map fun e => (e.message, e.line) := by
  intro before behind
  rcases Option.isSome_iff_exists.mp hsource with ⟨program, hcompile⟩
  rcases alike_renamed hnames hcompile s.machine with
    ⟨placed, renamed, hcompile', halike, halike'⟩
  refine ⟨Option.isSome_iff_exists.mpr ⟨renamed, hcompile'⟩, ?_⟩
  cases hflags : s.flags.error with
  | true =>
      have hbefore := looksLike_run hflags n source
      have hbehind := looksLike_run hflags n (rename names source)
      refine ⟨hbehind.printedLines.trans hbefore.printedLines.symm, ?_,
        hbehind.flags.trans hbefore.flags.symm, hbehind.timeouts.trans hbefore.timeouts.symm, ?_⟩
      · rw [hbehind.machine, hbefore.machine]
      · rw [hbehind.runtimeErrors, hbefore.runtimeErrors]
  | false =>
      have hbefore : Executed s before _ := executed_run hflags hcompile n
      have hbehind : Executed s behind _ := executed_run hflags hcompile' n
      rcases hs.settled with ⟨lines, hsettled⟩
      rcases hsettled.related SameLine (fun _ => False) (fun _ _ => rfl) with
        ⟨kinds, hrelated, hhere⟩
      have hseen := (ends_load hrelated hhere halike n).seenAlike fun _ => id
      have hseen' := (ends_load hrelated hhere halike' n).seenAlike fun _ => id
      have hreport := report_eq hseen.error hseen'.error
      have hfails := congrArg Option.isSome hreport
      rw [Option.isSome_map, Option.isSome_map] at hfails
      refine ⟨?_, ?_, ?_, ?_, ?_⟩
      · rw [hbehind.printedLines, hbefore.printedLines, hseen'.output, hseen.output]
      · rw [hbehind.machine, hbefore.machine]
        exact hseen'.globals.trans hseen.globals.symm
      · rw [hbehind.flags, hbefore.flags, hfails]
      · rw [hbehind.timeouts, hbefore.timeouts, hseen'.timeout, hseen.timeout]
      · rw [hbehind.runtimeErrors, hbefore.runtimeErrors, List.map_append, List.map_append,
          ← Option.toList_map, ← Option.toList_map, hreport]

/-- A local that hides a global gets another name. -/
theorem run_rename_hidden :
    let source := "var a = true; { var a = nil; print a; } print a;"
    let names := fun place => if place ∈ [7, 12] then "b" else "a"
    rename names source = "var a = true; { var b = nil; print b; } print a;" ∧
      ((start (steadyClock 0)).run 20 (rename names source)).printedLines = ["nil", "true"] := by
  intro source names
  have hcompiles : (compile source).isSome = true := by decide +kernel
  have hnames : RenamesLocals source names := by decide +kernel
  have hrename := run_rename (.start {} (steadyClock 0)) hcompiles hnames 20
  exact ⟨by decide +kernel, hrename.2.1.trans (by decide +kernel)⟩

end Session
end Lox
