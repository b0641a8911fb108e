import Lox.Proofs.Evaluate.NaturalProgram
import Lox.Proofs.Resolve.Table
import Lox.Proofs.Session.Steps

/-!
# Nodes under other numbers

The number of a node serves to find its distance and nothing else.  Two machines
are compared whose trees and tables differ by a relabelling that sends the next
numbers of the first machine to the next numbers of the second one.  They go on
to differ by it when both learn of a program and execute it, each with the
numbers that it gives to the nodes.

The nodes that a machine holds in its functions are old: the table has room for
their numbers.  A program that was loaded and not executed has therefore no node
on the machine, and whatever the table learnt of it is never looked at.
-/

namespace Lox

theorem keepsMeaning_node (ν : NodeId → NodeId) : KeepsMeaning { node := ν } :=
  ⟨fun _ => rfl, fun _ => rfl⟩

/-- A native function does not look at the numbers of nodes. -/
def Native.IgnoresNumbers (native : Native) : Prop := ∀ ν, native.Ignores { node := ν }

theorem Eval.Relabelled.state {g : Relabelling} {alike : σ → σ → Prop} {related : α → β → Prop}
    {result : EStateM.Result Stop σ α} {result' : EStateM.Result Stop σ β}
    (hends : Relabelled g alike related result result') :
    alike (Eval.state result) (Eval.state result') := by
  cases hends with
  | ok _ hs => exact hs
  | error hs => exact hs

/-!
# Tables
-/

namespace Locals

theorem size_append (l l' : Locals) : (l.append l').size = l.size + l'.size := Array.size_append

theorem depth?_of_size_le {l : Locals} {node : Nat} (hle : l.size ≤ node) :
    l.depth? node = none := by
  rw [depth?, Array.getElem?_eq_none hle]

theorem Relabelled.append {g : Relabelling} {l l' new new' : Locals} (hold : l.Relabelled g l')
    (hbelow : ∀ k < l.size, g.node k < l'.size) (hnext : ∀ i, g.node (l.size + i) = l'.size + i)
    (hnew : ∀ node, new'.depth? node = new.depth? node) :
    (l.append new).Relabelled g (l'.append new') := by
  intro node
  rcases Nat.lt_or_ge node l.size with hlt | hle
  · rw [depth?_append_left _ _ (hbelow node hlt), depth?_append_left _ _ hlt, hold]
  · obtain ⟨i, rfl⟩ : ∃ i, node = l.size + i := Nat.exists_eq_add_of_le hle
    rw [hnext, Nat.add_comm l'.size, Nat.add_comm l.size, depth?_append_right,
      depth?_append_right, hnew]

/-- The numbers that the table has room for stay, and no other number becomes one of them. -/
structure MovesNew (l : Locals) (ν : NodeId → NodeId) : Prop where
  old : ∀ k < l.size, ν k = k
  new : ∀ k, l.size ≤ k → l.size ≤ ν k

theorem MovesNew.of_le {l l' : Locals} {ν : NodeId → NodeId} (hν : l'.MovesNew ν)
    (hle : l.size ≤ l'.size) : l.MovesNew ν where
  old k hk := hν.old k (Nat.lt_of_lt_of_le hk hle)
  new k hk := by
    rcases Nat.lt_or_ge k l'.size with hlt | hge
    · rw [hν.old k hlt]
      exact hk
    · exact Nat.le_trans hle (hν.new k hge)

theorem MovesNew.relabelled {l : Locals} {ν : NodeId → NodeId} (hν : l.MovesNew ν) :
    l.Relabelled { node := ν } l := by
  intro node
  rcases Nat.lt_or_ge node l.size with hlt | hle
  · exact congrArg l.depth? (hν.old node hlt)
  · rw [depth?_of_size_le hle]
    exact depth?_of_size_le (hν.new node hle)

end Locals

/-!
# Machines
-/

namespace Machine

theorem load_eq_append (m : Machine) (program : List Stmt) :
    m.load program = { m with locals := m.locals.append (.ofProgram program) } := by
  rw [load, numbered, Locals.learn_eq_append]

/-- The second machine is the first one relabelled, and so it will be with further nodes. -/
structure Renumbered (g : Relabelling) (m m' : Machine) : Prop where
  machine : m.Relabelled g m'
  below : ∀ k < m.locals.size, g.node k < m'.locals.size
  next : ∀ i, g.node (m.locals.size + i) = m'.locals.size + i

theorem Relabelled.withLocals {g : Relabelling} {m m' : Machine} (hm : m.Relabelled g m')
    {l l' : Locals} (hlocals : l.Relabelled g l') :
    Relabelled g { m with locals := l } { m' with locals := l' } := by
  obtain ⟨fs, _, rfl, hfs, _, hnatives⟩ := hm
  exact ⟨fs, l', rfl, hfs, hlocals, hnatives⟩

theorem Relabelled.withoutOutput {g : Relabelling} {m m' : Machine} (hm : m.Relabelled g m') :
    Relabelled g { m with output := #[] } { m' with output := #[] } := by
  obtain ⟨fs, l, rfl, hrest⟩ := hm
  exact ⟨fs, l, rfl, hrest⟩

theorem Relabelled.output_eq {g : Relabelling} {m m' : Machine} (hm : m.Relabelled g m') :
    m'.output = m.output := by
  obtain ⟨fs, l, rfl, _⟩ := hm
  rfl

theorem Relabelled.shownGlobals_eq {g : Relabelling} (hg : KeepsMeaning g) {m m' : Machine}
    (hm : m.Relabelled g m') : m'.shownGlobals = m.shownGlobals := by
  have hbindings : m'.globalBindings = m.globalBindings := by
    obtain ⟨fs, l, rfl, _⟩ := hm
    rfl
  rw [shownGlobals, shownGlobals, hbindings]
  refine List.map_congr_left ?_
  rintro ⟨name, value⟩ _
  dsimp only
  rw [Eval.print_relabelled hg hm]

theorem Relabelled.addNative {g : Relabelling} {m m' : Machine} (hm : m.Relabelled g m')
    {native : Native} (hnative : native.Ignores g) :
    (m.addNative native).Relabelled g (m'.addNative native) := by
  obtain ⟨fs, l, rfl, hfs, hlocals, hnatives⟩ := hm
  refine ⟨fs, l, rfl, hfs, hlocals, ?_⟩
  intro other hother
  rcases Array.mem_push.mp hother with hother | rfl
  · exact hnatives other hother
  · exact hnative

namespace Renumbered

variable {g : Relabelling} {m m' : Machine}

theorem addNative (hm : m.Renumbered g m') {native : Native} (hnative : native.Ignores g) :
    (m.addNative native).Renumbered g (m'.addNative native) :=
  ⟨hm.machine.addNative hnative, hm.below, hm.next⟩

theorem numbered (hm : m.Renumbered g m') (program : List Stmt) :
    m'.numbered (Stmt.relabels g.token program) = Stmt.relabels g (m.numbered program) :=
  (Stmt.relabels_allNumbered program fun i _ => hm.next i).symm

theorem load (hg : KeepsMeaning g) (hm : m.Renumbered g m') (program : List Stmt) :
    (m.load program).Renumbered g (m'.load (Stmt.relabels g.token program)) := by
  rw [load_eq_append, load_eq_append, Locals.ofProgram_relabels hg.lexeme]
  have hlocals : m.locals.Relabelled g m'.locals := by
    obtain ⟨fs, l, hmachine, _, hlocals, _⟩ := hm.machine
    rw [hmachine]
    exact hlocals
  have hsize : ((Locals.ofProgram program).relabel g.token).size =
      (Locals.ofProgram program).size := Array.size_map
  refine ⟨hm.machine.withLocals (hlocals.append hm.below hm.next (Locals.depth?_relabel _ _)),
    ?_, ?_⟩
  · intro k hk
    rw [Locals.size_append, hsize]
    rw [Locals.size_append] at hk
    rcases Nat.lt_or_ge k m.locals.size with hlt | hle
    · exact Nat.lt_add_right _ (hm.below k hlt)
    · obtain ⟨i, rfl⟩ : ∃ i, k = m.locals.size + i := Nat.exists_eq_add_of_le hle
      rw [hm.next]
      exact Nat.add_lt_add_left (Nat.lt_of_add_lt_add_left hk) _
  · intro i
    rw [Locals.size_append, Locals.size_append, hsize, Nat.add_assoc, Nat.add_assoc, hm.next]

theorem interpret (hg : KeepsMeaning g) (hm : m.Renumbered g m') (n : Nat)
    (program : List Stmt) :
    Eval.Relabelled g (Renumbered g) Eq (Eval.interpret n program m)
      (Eval.interpret n (Stmt.relabels g program) m') := by
  have hends := Eval.natural_interpret hg n program m m' hm.machine
  have hstill := (Eval.still_interpret n program m).2
  have hstill' := (Eval.still_interpret n (Stmt.relabels g program) m').2
  have hbelow := hm.below
  have hnext := hm.next
  rw [← hstill, ← hstill'] at hbelow hnext
  generalize Eval.interpret n program m = result,
    Eval.interpret n (Stmt.relabels g program) m' = result' at hends hbelow hnext
  cases hends with
  | ok hvalue hmachine => exact .ok hvalue ⟨hmachine, hbelow, hnext⟩
  | error hmachine => exact .error ⟨hmachine, hbelow, hnext⟩

end Renumbered

/-!
# Old nodes
-/

def OldNodes (m : Machine) : Prop :=
  ∀ ν, m.locals.MovesNew ν → m.Relabelled { node := ν } m

theorem oldNodes_initial (clock : Nat → Number) : (initial clock).OldNodes := by
  intro ν hν
  refine ⟨#[], {}, rfl, ⟨rfl, fun _ => .none⟩, hν.relabelled, ?_⟩
  intro native hnative
  rw [List.mem_singleton.mp (Array.mem_toList_iff.mpr hnative)]
  exact Native.ignores_clock _

namespace OldNodes

variable {m : Machine}

theorem addNative (hm : m.OldNodes) {native : Native} (hnative : native.IgnoresNumbers) :
    (m.addNative native).OldNodes :=
  fun ν hν => (hm ν hν).addNative (hnative ν)

theorem load (hm : m.OldNodes) (program : List Stmt) : (m.load program).OldNodes := by
  intro ν hν
  refine (hm ν (hν.of_le ?_)).withLocals hν.relabelled
  rw [Machine.load, Locals.size_learn]
  exact Nat.le_add_right _ _

theorem machineAfter (hm : m.OldNodes) (n : Nat) (program : List Stmt) :
    (Session.machineAfter m n program).OldNodes := by
  intro ν hν
  rw [(Session.still_machineAfter m n program).2] at hν
  have hprogram : Stmt.relabels { node := ν } (m.numbered program) = m.numbered program := by
    have hsends : Relabelling.Sends { node := ν } m.locals.size m.locals.size
        (Stmt.allPlaces program) := by
      intro i hi
      apply hν.old
      rw [Machine.load, Locals.size_learn]
      exact Nat.add_lt_add_left hi _
    rw [numbered, Stmt.relabels_allNumbered program hsends, Stmt.relabels_id]
  have hends := Eval.natural_interpret (keepsMeaning_node ν) n (m.numbered program) _ _
    (hm.load program ν hν)
  rw [hprogram] at hends
  exact hends.state.withoutOutput

/--
On the machine that knows of a program the next nodes have numbers behind those of the
program, which no node on the machine has.
-/
theorem renumbered_load (hm : m.OldNodes) (program : List Stmt) :
    ∃ ν, (∀ k, ν k < m.locals.size ∨ (m.load program).locals.size ≤ ν k) ∧
      m.Renumbered { node := ν } (m.load program) := by
  let count := Stmt.allPlaces program
  let ν (k : Nat) : Nat := if k < m.locals.size then k else k + count
  have hold : ∀ k < m.locals.size, ν k = k := fun k hk => if_pos hk
  have hnew : ∀ k, m.locals.size ≤ k → ν k = k + count := fun k hk =>
    if_neg (Nat.not_lt.mpr hk)
  have hmoves : m.locals.MovesNew ν := by
    refine ⟨hold, fun k hk => ?_⟩
    rw [hnew k hk]
    exact Nat.le_add_right_of_le hk
  have hsize : (m.load program).locals.size = m.locals.size + count := Locals.size_learn _ _ _
  refine ⟨ν, ?_, ?_, ?_, ?_⟩
  · intro k
    rcases Nat.lt_or_ge k m.locals.size with hlt | hle
    · exact Or.inl ((hold k hlt).symm ▸ hlt)
    · rw [hnew k hle, hsize]
      exact Or.inr (Nat.add_le_add_right hle _)
  · have hlocals : m.locals.Relabelled { node := ν } (m.load program).locals := by
      intro k
      show (m.load program).locals.depth? (ν k) = m.locals.depth? k
      rcases Nat.lt_or_ge k m.locals.size with hlt | hle
      · rw [hold k hlt, load_eq_append]
        exact Locals.depth?_append_left _ _ hlt
      · have hle' : (m.load program).locals.size ≤ k + count := by
          rw [hsize]
          exact Nat.add_le_add_right hle _
        rw [hnew k hle, Locals.depth?_of_size_le hle, Locals.depth?_of_size_le hle']
    exact (hm ν hmoves).withLocals hlocals
  · intro k hk
    show ν k < _
    rw [hold k hk, hsize]
    exact Nat.lt_add_right _ hk
  · intro i
    show ν (m.locals.size + i) = _
    rw [hnew _ (Nat.le_add_right _ _), hsize, Nat.add_right_comm]

theorem renumbered_self (hm : m.OldNodes) : m.Renumbered {} m :=
  ⟨hm id ⟨fun _ _ => rfl, fun _ => id⟩, fun _ => id, fun _ => rfl⟩

end OldNodes

end Machine

theorem Session.oldNodes_run {s : Session} (hs : s.machine.OldNodes) (n : Nat)
    (source : String) : (s.run n source).machine.OldNodes := by
  have htake : (s.take (.act (.run n source))).machine.OldNodes :=
    holds_take (fun _ program hm => hm.load program)
      (fun _ n _ program _ hm => hm.machineAfter n program) nofun hs
  exact htake

theorem Session.oldNodes_takeAll (flags : Flags) (clock : Nat → Number) (steps : List Step)
    (hnatives : ∀ native, .native native ∈ steps → native.IgnoresNumbers) :
    ((startWith flags clock).takeAll steps).machine.OldNodes :=
  holds_takeAll Machine.OldNodes Machine.oldNodes_initial (fun _ program hm => hm.load program)
    (fun _ n _ program _ hm => hm.machineAfter n program) flags clock steps
    fun _ native hnative hm => hm.addNative (hnatives native hnative)

/-!
# Sessions
-/

/-- The event without the numbers of nodes; only the forms that defects show have them. -/
def Event.unnumbered : Event → Event
  | .halted stop => .halted (stop.relabel { node := fun _ => 0 })
  | event => event

namespace Session

/--
Sessions that have recorded the same, behind what was there before, and whose machines
differ by the numbers of nodes.  The flag of runtime errors is compared on request.
-/
structure Renumbered (strict : Prop) (ν : NodeId → NodeId) (old old' : List Event)
    (s s' : Session) : Prop where
  machine : s.machine.Renumbered { node := ν } s'.machine
  error : s'.flags.error = s.flags.error
  runtimeError : strict → s'.flags.runtimeError = s.flags.runtimeError
  trace : ∃ events events', s.trace.toList = old ++ events ∧ s'.trace.toList = old' ++ events' ∧
    events'.map Event.unnumbered = events.map Event.unnumbered

theorem foldl_find_numbered (k : Nat) (program : List Stmt) (s : Session) :
    (resolve (Stmt.allNumbered k program)).findings.foldl find s =
      (resolve (Stmt.allNumbered 0 program)).findings.foldl find s := by
  have hfind : ∀ (s : Session) (finding : Finding),
      s.find (finding.relabel id k) = s.find finding := by
    intro s finding
    cases finding with
    | defect d => exact congrArg (fun d => s.find (.defect d)) d.relabel_id
    | _ => rfl
  rw [findings_resolve_numbered, List.foldl_map]
  simp only [hfind]

namespace Renumbered

variable {strict : Prop} {ν : NodeId → NodeId} {old old' : List Event} {s s' : Session}

theorem recordAlike (hs : Renumbered strict ν old old' s s') {event event' : Event}
    (hevent : event'.unnumbered = event.unnumbered) :
    Renumbered strict ν old old' (s.record event) (s'.record event') where
  machine := hs.machine
  error := hs.error
  runtimeError := hs.runtimeError
  trace := by
    obtain ⟨events, events', htrace, htrace', hevents⟩ := hs.trace
    refine ⟨events ++ [event], events' ++ [event'], ?_, ?_, ?_⟩
    · rw [Session.record, Array.toList_push, htrace, List.append_assoc]
    · rw [Session.record, Array.toList_push, htrace', List.append_assoc]
    · rw [List.map_append, List.map_append, hevents, List.map_singleton, List.map_singleton, hevent]

theorem record (hs : Renumbered strict ν old old' s s') (event : Event) :
    Renumbered strict ν old old' (s.record event) (s'.record event) :=
  hs.recordAlike rfl

theorem report (hs : Renumbered strict ν old old' s s') (d : Diagnostic) :
    Renumbered strict ν old old' (s.report d) (s'.report d) where
  machine := hs.machine
  error := rfl
  runtimeError := hs.runtimeError
  trace := (hs.record (.diagnostic d)).trace

theorem foldl {α : Type} {f : Session → α → Session}
    (hf : ∀ {s s'} item, Renumbered strict ν old old' s s' →
      Renumbered strict ν old old' (f s item) (f s' item))
    (items : List α) (hs : Renumbered strict ν old old' s s') :
    Renumbered strict ν old old' (items.foldl f s) (items.foldl f s') := by
  induction items generalizing s s' with
  | nil => exact hs
  | cons item items ih => exact ih (hf item hs)

theorem reportAll (hs : Renumbered strict ν old old' s s') (ds : List Diagnostic) :
    Renumbered strict ν old old' (s.reportAll ds) (s'.reportAll ds) :=
  hs.foldl (fun d hs => hs.report d) ds

theorem scanned (hs : Renumbered strict ν old old' s s') (source : String) :
    Renumbered strict ν old old' (s.scanned source).2 (s'.scanned source).2 :=
  (hs.reportAll _).record _

theorem parsed (hs : Renumbered strict ν old old' s s') (tokens : Scanned) :
    Renumbered strict ν old old' (s.parsed tokens).2 (s'.parsed tokens).2 :=
  (hs.reportAll _).record _

theorem resolved (hs : Renumbered strict ν old old' s s') (program : List Stmt) :
    (s'.resolved program).1 = Stmt.relabels { node := ν } (s.resolved program).1 ∧
      Renumbered strict ν old old' (s.resolved program).2 (s'.resolved program).2 := by
  have hnumbered := hs.machine.numbered program
  have hload := hs.machine.load (keepsMeaning_node ν) program
  dsimp only at hnumbered hload
  rw [Stmt.relabels_id] at hnumbered hload
  have hloaded : Renumbered strict ν old old' { s with machine := s.machine.load program }
      { s' with machine := s'.machine.load program } :=
    ⟨hload, hs.error, hs.runtimeError, hs.trace⟩
  rw [resolved_eq, resolved_eq]
  refine ⟨hnumbered, ?_⟩
  rw [Machine.numbered, Machine.numbered, foldl_find_numbered,
    foldl_find_numbered s'.machine.locals.size]
  refine hloaded.foldl ?_ _
  intro s s' finding hs
  cases finding with
  | violation token rule => exact hs.report _
  | «local» node d => exact hs
  | «global» node name => exact hs.record _
  | defect d => exact hs.record _

theorem flush (hs : Renumbered strict ν old old' s s') {m m' : Machine}
    (hm : m.Renumbered { node := ν } m') :
    Renumbered strict ν old old' (s.flush m) (s'.flush m') where
  machine := ⟨hm.machine.withoutOutput, hm.below, hm.next⟩
  error := hs.error
  runtimeError := hs.runtimeError
  trace := by
    obtain ⟨events, events', htrace, htrace', hevents⟩ := hs.trace
    let printed := m.output.toList.map Event.printed
    refine ⟨events ++ printed, events' ++ printed, ?_, ?_, ?_⟩
    · rw [trace_flush, Array.toList_append, htrace, Array.toList_map, List.append_assoc]
    · rw [trace_flush, hm.machine.output_eq, Array.toList_append, htrace', Array.toList_map,
        List.append_assoc]
    · rw [List.map_append, List.map_append, hevents]

theorem stopped (hs : Renumbered strict ν old old' s s') (stop : Stop) :
    Renumbered strict ν old old' (s.stopped stop) (s'.stopped (stop.relabel { node := ν })) := by
  cases stop with
  | error e =>
      have hnoted := (hs.record (.note (.runtimeError e))).record (.runtimeError e)
      exact ⟨hs.machine, hs.error, fun _ => rfl, hnoted.trace⟩
  | defect d =>
      refine hs.recordAlike ?_
      exact congrArg Event.halted (Stop.relabel_relabel { node := ν } _ (.defect d))
  | outOfFuel => exact hs.record _

theorem execute (hs : Renumbered strict ν old old' s s') (n : Nat) (program : List Stmt) :
    Renumbered strict ν old old' (s.execute n program)
      (s'.execute n (Stmt.relabels { node := ν } program)) := by
  have hends := hs.machine.interpret (keepsMeaning_node ν) n program
  unfold Session.execute perform
  generalize Eval.interpret n program s.machine = result,
    Eval.interpret n (Stmt.relabels { node := ν } program) s'.machine = result' at hends ⊢
  cases hends with
  | ok _ hm => exact hs.flush hm
  | error hm => exact (hs.flush hm).stopped _

theorem run (hs : Renumbered strict ν old old' s s') (n : Nat) (source : String) :
    Renumbered strict ν old old' (s.run n source) (s'.run n source) := by
  have hparsed := (hs.scanned source).parsed (scan source)
  obtain ⟨hprogram, hresolved⟩ := hparsed.resolved ((parse (scan source).tokens).result.getD [])
  have hrun : ∀ s : Session, s.run n source =
      let parsed := (s.scanned source).2.parsed (scan source)
      let resolved := parsed.2.resolved ((parse (scan source).tokens).result.getD [])
      if parsed.2.flags.error then parsed.2.recordNote .notResolving
      else if resolved.2.flags.error then resolved.2.recordNote .notExecuting
      else resolved.2.execute n resolved.1 := fun _ => rfl
  rw [hrun, hrun]
  dsimp only
  rw [hparsed.error, hresolved.error, hprogram]
  split
  · exact hparsed.record _
  · split
    · exact hresolved.record _
    · exact hresolved.execute n _

theorem showTree (hs : Renumbered strict ν old old' s s') (source : String) :
    Renumbered strict ν old old' (s.showTree source) (s'.showTree source) := by
  have hparsed := (hs.scanned source).reportAll
    ((parseExpression (scan source).tokens).reports.map (Report.diagnostic (scan source).eof))
  unfold Session.showTree
  dsimp only [Session.scanned] at hparsed ⊢
  rw [hparsed.error]
  split
  · exact hparsed
  · split
    · exact hparsed
    · exact hparsed.record _

theorem clearRuntimeError (hs : Renumbered strict ν old old' s s') :
    Renumbered True ν old old' s.clearRuntimeError s'.clearRuntimeError :=
  ⟨hs.machine, hs.error, fun _ => rfl, hs.trace⟩

theorem take (hs : Renumbered True ν old old' s s') {step : Step}
    (hnative : ∀ native, step = .native native → native.IgnoresNumbers) :
    Renumbered True ν old old' (s.take step) (s'.take step) := by
  cases step with
  | native native =>
      exact ⟨hs.machine.addNative (hnative native rfl ν), hs.error, hs.runtimeError, hs.trace⟩
  | act action =>
      cases action with
      | run n source => exact hs.run n source
      | listTokens source =>
          exact (hs.scanned source).foldl (fun token hs => hs.record (.printed token.listing)) _
      | showTree source => exact hs.showTree source
      | clearError => exact ⟨hs.machine, rfl, hs.runtimeError, hs.trace⟩
      | clearRuntimeError => exact hs.clearRuntimeError

theorem takeAll (hs : Renumbered True ν old old' s s') {steps : List Step}
    (hnatives : ∀ native, .native native ∈ steps → native.IgnoresNumbers) :
    Renumbered True ν old old' (s.takeAll steps) (s'.takeAll steps) := by
  induction steps generalizing s s' with
  | nil => exact hs
  | cons step steps ih =>
      refine ih (hs.take ?_) fun native hnative => hnatives native (List.mem_cons_of_mem _ hnative)
      rintro native rfl
      exact hnatives native List.mem_cons_self

theorem promptLine (hs : Renumbered strict ν old old' s s') (n : Nat) (line : String) :
    Renumbered True ν old old' (s.promptLine n line) (s'.promptLine n line) := by
  have hrun := hs.run n line
  exact ⟨hrun.machine, rfl, fun _ => rfl, hrun.trace⟩

theorem dialogue (hs : Renumbered strict ν old old' s s') (n : Nat) (lines : List String) :
    Renumbered strict ν old old' (s.dialogue n lines) (s'.dialogue n lines) := by
  refine ((hs.foldl ?_ lines).record .prompt).record .endOfPrompt
  intro s s' line hs
  have hline := (hs.record .prompt).promptLine n line
  exact ⟨hline.machine, hline.error, fun _ => hline.runtimeError trivial, hline.trace⟩

end Renumbered

end Session

end Lox
