import Mathlib.Data.List.Pairwise
import Lox.Locals
import Lox.Proofs.Resolve.Located
import Lox.Syntax.Numbering

/-!
# The table of distances

The references of a numbered program have rising numbers, in the order in which
the resolver comes to them, so that no number stands at two positions.  When the
table has learnt of a program, it tells of every reference what the resolver found
there, and of older nodes what it told before.
-/

namespace Lox

open Position

/-!
# Numbers in order
-/

namespace Node

/-- The references in the nodes have rising numbers from the first one to before the last one. -/
inductive Numbers : Nat → List Node → Nat → Prop where
  | nil {k k' : Nat} : k ≤ k' → Numbers k [] k'
  | cons {k i j k' : Nat} {node : Node} {nodes : List Node} : Numbers k node.parts i →
      (∀ r ∈ node.reference?, i ≤ r.2.node ∧ r.2.node < j) → i ≤ j → Numbers j nodes k' →
      Numbers k (node :: nodes) k'

namespace Numbers

variable {k i k' : Nat} {nodes : List Node}

theorem refl (k : Nat) : Numbers k [] k := nil (Nat.le_refl k)

theorem plain {node : Node} (hnone : node.reference? = none) (hinner : Numbers k node.parts i)
    (houter : Numbers i nodes k') : Numbers k (node :: nodes) k' := by
  refine cons hinner ?_ (Nat.le_refl i) houter
  intro r hr
  rw [hnone] at hr
  cases hr

theorem single {node : Node} (hnone : node.reference? = none) (hinner : Numbers k node.parts k') :
    Numbers k [node] k' :=
  plain hnone hinner (refl k')

theorem reference {node : Node} {kind : ReferenceKind} {r : Reference}
    (hsome : node.reference? = some (kind, r)) (hinner : Numbers k node.parts i)
    (hnumber : r.node = i) : Numbers k [node] (i + 1) := by
  refine cons hinner ?_ (Nat.le_succ i) (refl _)
  intro r' hr'
  cases hsome.symm.trans hr'
  subst hnumber
  exact ⟨Nat.le_refl _, Nat.lt_succ_self _⟩

theorem le (hnumbers : Numbers k nodes k') : k ≤ k' := by
  induction hnumbers with
  | nil hle => exact hle
  | cons _ _ _ _ ihinner ihouter => omega

theorem lower (hnumbers : Numbers i nodes k') (hle : k ≤ i) : Numbers k nodes k' := by
  induction hnumbers generalizing k with
  | nil hle' => exact nil (Nat.le_trans hle hle')
  | cons _ hnode hle' houter ihinner _ => exact cons (ihinner hle) hnode hle' houter

theorem append {nodes' : List Node} (hfirst : Numbers k nodes i) (hsecond : Numbers i nodes' k') :
    Numbers k (nodes ++ nodes') k' := by
  induction hfirst with
  | nil hle => exact hsecond.lower hle
  | cons hinner hnode hle _ _ ih => exact cons hinner hnode hle (ih hsecond)

end Numbers

mutual

theorem numbers_expr (k : NodeId) :
    (e : Expr) → Numbers k [expr (e.numbered k)] (k + e.places)
  | .assign _ value => .reference rfl (numbers_expr k value) rfl
  | .binary left _ right
  | .logical left _ right => by
      rw [Expr.places, ← Nat.add_assoc]
      exact .single rfl ((numbers_expr k left).append (numbers_expr _ right))
  | .call callee _ arguments => by
      rw [Expr.places, ← Nat.add_assoc]
      exact .single rfl ((numbers_expr k callee).append (numbers_exprs _ arguments))
  | .conditional condition thenBranch elseBranch => by
      rw [Expr.places, ← Nat.add_assoc, ← Nat.add_assoc]
      exact .single rfl ((numbers_expr k condition).append
        ((numbers_expr _ thenBranch).append (numbers_expr _ elseBranch)))
  | .get object _ => .single rfl (numbers_expr k object)
  | .grouping inner => .single rfl (numbers_expr k inner)
  | .literal _ => .single rfl (.refl k)
  | .set object _ value => by
      rw [Expr.places, ← Nat.add_assoc]
      exact .single rfl ((numbers_expr k value).append (numbers_expr _ object))
  | .superRef _ _ | .thisRef _ | .var _ => .reference rfl (.refl k) rfl
  | .unary _ right => .single rfl (numbers_expr k right)
  | .misfit form => .single rfl (.nil (Nat.le_add_right k form.places))

theorem numbers_exprs (k : NodeId) :
    (es : List Expr) → Numbers k ((Expr.allNumbered k es).map expr) (k + Expr.allPlaces es)
  | [] => .refl k
  | e :: es => by
      rw [Expr.allPlaces, ← Nat.add_assoc]
      exact (numbers_expr k e).append (numbers_exprs _ es)

end

theorem numbers_optionalExpr (k : NodeId) (value : Option Expr) :
    Numbers k ((Expr.optionalNumbered k value).map expr).toList
      (k + Expr.optionalPlaces value) := by
  cases value with
  | none => exact .refl k
  | some e => exact numbers_expr k e

theorem numbers_params (k : NodeId) (params : List Token) :
    Numbers k (params.map parameter) k := by
  induction params with
  | nil => exact .refl k
  | cons _ _ ih => exact .plain rfl (.refl k) ih

mutual

theorem numbers_stmt (k : NodeId) :
    (s : Stmt) → Numbers k [stmt (s.numbered k)] (k + s.places)
  | .block body => by
      rw [Stmt.numbered, Stmt.places]
      exact .single rfl (numbers_stmts k body)
  | .classDecl _ none methods => by
      rw [Stmt.numbered, Stmt.places, ← Nat.add_assoc]
      exact .single rfl (.single rfl (numbers_functions _ methods))
  | .classDecl _ (some parent) methods => by
      rw [Stmt.numbered, Stmt.places, ← Nat.add_assoc]
      have hclause : Numbers k [expr (.var (parent.numbered k))] (k + 1) :=
        .reference rfl (.refl k) rfl
      exact .single rfl (.plain rfl hclause
        (.single rfl (.single rfl (numbers_functions _ methods))))
  | .expression inner | .print inner => by
      rw [Stmt.numbered, Stmt.places]
      exact .single rfl (numbers_expr k inner)
  | .funDecl f => by
      rw [Stmt.numbered, Stmt.places]
      exact .single rfl (numbers_function k false f)
  | .ifElse condition thenBranch none => by
      rw [Stmt.numbered, Stmt.places, ← Nat.add_assoc]
      exact .single rfl ((numbers_expr k condition).append (numbers_stmt _ thenBranch))
  | .ifElse condition thenBranch (some elseBranch) => by
      rw [Stmt.numbered, Stmt.places, ← Nat.add_assoc, ← Nat.add_assoc]
      exact .single rfl ((numbers_expr k condition).append
        ((numbers_stmt _ thenBranch).append (numbers_stmt _ elseBranch)))
  | .ret _ value | .varDecl _ value => by
      rw [Stmt.numbered, Stmt.places]
      exact .single rfl (numbers_optionalExpr k value)
  | .whileLoop condition body => by
      rw [Stmt.numbered, Stmt.places, ← Nat.add_assoc]
      exact .single rfl ((numbers_expr k condition).append (numbers_stmt _ body))
  | .misfit form => by
      rw [Stmt.numbered, Stmt.places]
      exact .single rfl (.nil (Nat.le_add_right k form.places))

theorem numbers_stmts (k : NodeId) :
    (ss : List Stmt) → Numbers k ((Stmt.allNumbered k ss).map stmt) (k + Stmt.allPlaces ss)
  | [] => by
      rw [Stmt.allNumbered, Stmt.allPlaces]
      exact .refl k
  | s :: ss => by
      rw [Stmt.allNumbered, Stmt.allPlaces, ← Nat.add_assoc]
      exact (numbers_stmt k s).append (numbers_stmts _ ss)

theorem numbers_function (k : NodeId) (method : Bool) :
    (f : Function) → Numbers k [function method (f.numbered k)] (k + f.places)
  | ⟨_, params, body⟩ => by
      rw [Function.numbered, Function.places]
      exact .single rfl ((numbers_params k params).append (numbers_stmts k body))

theorem numbers_functions (k : NodeId) :
    (fs : List Function) →
      Numbers k ((Function.allNumbered k fs).map (function true)) (k + Function.allPlaces fs)
  | [] => by
      rw [Function.allNumbered, Function.allPlaces]
      exact .refl k
  | f :: fs => by
      rw [Function.allNumbered, Function.allPlaces, ← Nat.add_assoc]
      exact (numbers_function k true f).append (numbers_functions _ fs)

end

section

variable {root : Node} {whole : Position} {i : Nat} {nodes : List Node}

/-- The number at a position that is in a node, or is the node, or is behind it. -/
theorem numberAt?_cases {k k' : Nat} {node : Node} {p : Position} {number : Nat}
    (hnode : ∀ r ∈ node.reference?, k ≤ r.2.node ∧ r.2.node < k')
    (hstands : root.Stands whole i (node :: nodes)) (hfrom : From whole i p)
    (hnumber : root.numberAt? p = some number) :
    p = i :: whole ∧ k ≤ number ∧ number < k' ∨ From (i :: whole) 0 p ∨
      From whole (i + 1) p := by
  rcases from_iff.mp hfrom with rfl | hfrom | hfrom
  · rw [numberAt?, referenceAt?, hstands.at?, Option.bind_some] at hnumber
    rcases Option.map_eq_some_iff.mp hnumber with ⟨r, hr, rfl⟩
    exact Or.inl ⟨rfl, hnode r hr⟩
  · exact Or.inr (Or.inl hfrom)
  · exact Or.inr (Or.inr hfrom)

theorem Numbers.bounds {k k' : Nat} (hnumbers : Numbers k nodes k') :
    ∀ {whole p : Position} {i number : Nat}, root.Stands whole i nodes → From whole i p →
      root.numberAt? p = some number → k ≤ number ∧ number < k' := by
  induction hnumbers with
  | nil _ =>
      intro whole p i number hstands hfrom hnumber
      rw [numberAt?, referenceAt?, hstands.at?_eq_none hfrom] at hnumber
      cases hnumber
  | cons hinner hnode hle houter ihinner ihouter =>
      intro whole p i number hstands hfrom hnumber
      have hle := hinner.le
      have hle' := houter.le
      rcases numberAt?_cases hnode hstands hfrom hnumber with ⟨_, hbounds⟩ | hfrom | hfrom
      · omega
      · have hbounds := ihinner hstands.inner hfrom hnumber
        omega
      · have hbounds := ihouter hstands.next hfrom hnumber
        omega

theorem Numbers.injective {k k' : Nat} (hnumbers : Numbers k nodes k') :
    ∀ {whole p q : Position} {i number : Nat}, root.Stands whole i nodes → From whole i p →
      From whole i q → root.numberAt? p = some number → root.numberAt? q = some number →
      p = q := by
  induction hnumbers with
  | nil _ =>
      intro whole p q i number hstands hp _ hnumber _
      rw [numberAt?, referenceAt?, hstands.at?_eq_none hp] at hnumber
      cases hnumber
  | @cons k j j' k' node nodes hinner hnode hle houter ihinner ihouter =>
      intro whole p q i number hstands hp hq hnumber hnumber'
      -- numbers in the node, at the node and behind it lie in three ranges
      have hinside : ∀ p, From (i :: whole) 0 p → root.numberAt? p = some number → number < j :=
        fun p hp hnumber => (hinner.bounds hstands.inner hp hnumber).2
      have hbehind : ∀ p, From whole (i + 1) p → root.numberAt? p = some number → j' ≤ number :=
        fun p hp hnumber => (houter.bounds hstands.next hp hnumber).1
      rcases numberAt?_cases hnode hstands hp hnumber with ⟨rfl, hlt, hlt'⟩ | hp | hp <;>
        rcases numberAt?_cases hnode hstands hq hnumber' with ⟨rfl, hlt, hlt'⟩ | hq | hq
      · rfl
      · have := hinside q hq hnumber'
        omega
      · have := hbehind q hq hnumber'
        omega
      · have := hinside p hp hnumber
        omega
      · exact ihinner hstands.inner hp hq hnumber hnumber'
      · have := hinside p hp hnumber
        have := hbehind q hq hnumber'
        omega
      · have := hbehind p hp hnumber
        omega
      · have := hbehind p hp hnumber
        have := hinside q hq hnumber'
        omega
      · exact ihouter hstands.next hp hq hnumber hnumber'

end

section

variable {k : Nat} {program : List Stmt} {p q : Position} {number : Nat}

theorem from_of_numberAt? {body : List Stmt}
    (hnumber : (Node.program body).numberAt? p = some number) : From [] 0 p := by
  rcases eq_nil_or_from p with rfl | hfrom
  · cases hnumber
  · exact hfrom

theorem numberAt?_bounds
    (hnumber : (Node.program (Stmt.allNumbered k program)).numberAt? p = some number) :
    k ≤ number ∧ number < k + Stmt.allPlaces program :=
  (numbers_stmts k program).bounds (stands_program _) (from_of_numberAt? hnumber) hnumber

theorem numberAt?_injective
    (hp : (Node.program (Stmt.allNumbered k program)).numberAt? p = some number)
    (hq : (Node.program (Stmt.allNumbered k program)).numberAt? q = some number) : p = q :=
  (numbers_stmts k program).injective (stands_program _) (from_of_numberAt? hp)
    (from_of_numberAt? hq) hp hq

end

end Node

/-!
# What a table tells
-/

namespace Locals

/-- The table knows a node, and how many scopes out its name is bound. -/
def Tells (l : Locals) (node : NodeId) (depth : Option Nat) : Prop :=
  ∃ cell, l.cells[node]? = some cell ∧ cell.map Distance.depth = depth

variable {l : Locals} {findings : List Finding} {node : NodeId}

theorem Tells.depth?_eq {depth : Option Nat} (htells : l.Tells node depth) :
    l.depth? node = depth := by
  rcases htells with ⟨cell, hcell, rfl⟩
  rw [depth?, hcell]
  cases cell <;> rfl

theorem size_foldl_find (findings : List Finding) (l : Locals) :
    (findings.foldl find l).size = l.size := by
  induction findings generalizing l with
  | nil => rfl
  | cons finding findings ih =>
      rw [List.foldl_cons, ih]
      cases finding with
      | «local» node distance => exact Array.size_setIfInBounds
      | _ => rfl

@[simp]
theorem size_learn (l : Locals) (count : Nat) (findings : List Finding) :
    (l.learn count findings).size = l.size + count := by
  rw [learn, size_foldl_find, size, extend, Array.size_append, Array.size_replicate]
  rfl

theorem cells_foldl_find_of_not_mem (hnone : ∀ d, .local node d ∉ findings) :
    (findings.foldl find l).cells[node]? = l.cells[node]? := by
  induction findings generalizing l with
  | nil => rfl
  | cons finding findings ih =>
      rw [List.foldl_cons, ih fun d hd => hnone d (List.mem_cons_of_mem _ hd)]
      cases finding with
      | «local» other distance =>
          have hne : other ≠ node := by
            rintro rfl
            exact hnone distance List.mem_cons_self
          exact Array.getElem?_setIfInBounds_ne hne
      | _ => rfl

theorem cells_foldl_find {d : Distance} (hmem : .local node d ∈ findings)
    (honly : ∀ d', .local node d' ∈ findings → d' = d) (hlt : node < l.size) :
    (findings.foldl find l).cells[node]? = some (some d) := by
  induction findings generalizing l with
  | nil => cases hmem
  | cons finding findings ih =>
      have hrest : ∀ d', .local node d' ∈ findings → d' = d := fun d' hd' =>
        honly d' (List.mem_cons_of_mem _ hd')
      rw [List.foldl_cons]
      by_cases hlater : .local node d ∈ findings
      · refine ih hlater hrest ?_
        have hsize := size_foldl_find [finding] l
        rw [List.foldl_cons, List.foldl_nil] at hsize
        rw [hsize]
        exact hlt
      · rcases List.mem_cons.mp hmem with rfl | hmem
        · rw [cells_foldl_find_of_not_mem fun d' hd' => hlater (hrest d' hd' ▸ hd')]
          exact Array.getElem?_setIfInBounds_self_of_lt hlt
        · exact absurd hmem hlater

theorem cells_extend_of_lt {count : Nat} (hlt : node < l.size) :
    (l.extend count).cells[node]? = l.cells[node]? :=
  Array.getElem?_append_left hlt

theorem cells_extend_of_le {count : Nat} (hle : l.size ≤ node) (hlt : node < l.size + count) :
    (l.extend count).cells[node]? = some none := by
  rw [extend, Array.getElem?_append_right hle, Array.getElem?_replicate, if_pos]
  exact (Nat.sub_lt_iff_lt_add hle).mpr (Nat.add_comm _ _ ▸ hlt)

end Locals

/-!
# The table of a program
-/

namespace Finding

def number? : Finding → Option Nat
  | .local node _ => some node
  | .global node _ => some node
  | _ => none

end Finding

/-- Names are looked up at nodes with rising numbers, from the first one to before the last one. -/
structure Rising (k : Nat) (findings : List Finding) (k' : Nat) : Prop where
  rising : (findings.filterMap Finding.number?).Pairwise (· < ·)
  bounds : ∀ n ∈ findings.filterMap Finding.number?, k ≤ n ∧ n < k'

namespace Rising

variable {k i k' : Nat} {findings findings' : List Finding}

theorem nil : Rising k [] k' := ⟨.nil, nofun⟩

theorem append (hfirst : Rising k findings i) (hsecond : Rising i findings' k') (hle : k ≤ i)
    (hle' : i ≤ k') : Rising k (findings ++ findings') k' := by
  constructor
  · rw [List.filterMap_append, List.pairwise_append]
    refine ⟨hfirst.rising, hsecond.rising, ?_⟩
    intro n hn n' hn'
    exact Nat.lt_of_lt_of_le (hfirst.bounds n hn).2 (hsecond.bounds n' hn').1
  · intro n hn
    rw [List.filterMap_append, List.mem_append] at hn
    rcases hn with hn | hn
    · have hbounds := hfirst.bounds n hn
      omega
    · have hbounds := hsecond.bounds n hn
      omega

theorem eq_of_number? (hrising : Rising k findings k') {a b : Finding} {n : Nat}
    (ha : a ∈ findings) (hb : b ∈ findings) (hna : a.number? = some n)
    (hnb : b.number? = some n) : a = b := by
  by_contra hne
  have hpairs : findings.Pairwise fun a b => ¬ (a.number? = some n ∧ b.number? = some n) := by
    refine (List.pairwise_filterMap.mp hrising.rising).imp ?_
    rintro a b hlt ⟨hna, hnb⟩
    exact Nat.lt_irrefl n (hlt n hna n hnb)
  have hsymm : Std.Symm fun a b : Finding => ¬ (a.number? = some n ∧ b.number? = some n) :=
    ⟨fun _ _ hnot hboth => hnot hboth.symm⟩
  exact hpairs.forall ha hb hne ⟨hna, hnb⟩

theorem tail {finding : Finding} (hrising : Rising k (finding :: findings) k') :
    Rising k findings k' := by
  rcases hrising with ⟨hpairs, hbounds⟩
  rw [List.filterMap_cons] at hpairs hbounds
  cases hnumber : finding.number? with
  | none =>
      rw [hnumber] at hpairs hbounds
      exact ⟨hpairs, hbounds⟩
  | some n =>
      rw [hnumber] at hpairs hbounds
      exact ⟨hpairs.of_cons, fun n hn => hbounds n (List.mem_cons_of_mem _ hn)⟩

theorem tail_local {n : Nat} {d : Distance} (hrising : Rising k (.local n d :: findings) k') :
    k ≤ n ∧ n < k' ∧ Rising (n + 1) findings k' := by
  rcases hrising with ⟨hpairs, hbounds⟩
  rcases List.pairwise_cons.mp hpairs with ⟨hlt, hpairs⟩
  rcases hbounds n List.mem_cons_self with ⟨hle, hlt'⟩
  exact ⟨hle, hlt', hpairs, fun n' hn' =>
    ⟨hlt n' hn', (hbounds n' (List.mem_cons_of_mem _ hn')).2⟩⟩

end Rising

/-!
# The distances of a table
-/

namespace Locals

theorem distances_foldl_find {findings : List Finding} {l : Locals} {old : List (Option Distance)}
    {room : Nat} (hcells : l.cells.toList = old ++ List.replicate room none)
    (hrising : Rising old.length findings (old.length + room)) :
    (findings.foldl find l).distances =
      old.filterMap id ++ findings.filterMap Finding.distance? := by
  induction findings generalizing l old room with
  | nil => simp [distances, hcells]
  | cons finding findings ih =>
      cases finding with
      | «local» n d =>
          rcases hrising.tail_local with ⟨hle, hlt, htail⟩
          obtain ⟨before, rfl⟩ : ∃ before, n = old.length + before := Nat.exists_eq_add_of_le hle
          obtain ⟨behind, rfl⟩ : ∃ behind, room = before + (behind + 1) :=
            Nat.exists_eq_add_of_lt (Nat.lt_of_add_lt_add_left hlt)
          have hcells' : (l.insert (old.length + before) d).cells.toList =
              (old ++ List.replicate before none ++ [some d]) ++ List.replicate behind none := by
            rw [insert, Array.toList_setIfInBounds, hcells, List.replicate_add,
              List.replicate_succ]
            simp
          have hfound := ih hcells' (by simpa [Nat.add_assoc, Nat.add_comm 1] using htail)
          rw [List.foldl_cons]
          simp only [find] at hfound ⊢
          rw [hfound]
          simp [Finding.distance?]
      | _ => exact ih hcells hrising.tail

/-- The distances of a program are listed behind those that were there. -/
theorem distances_learn (l : Locals) {count : Nat} {findings : List Finding}
    (hrising : Rising l.size findings (l.size + count)) :
    (l.learn count findings).distances =
      l.distances ++ findings.filterMap Finding.distance? := by
  have hcells : (l.extend count).cells.toList = l.cells.toList ++ List.replicate count none := by
    rw [extend, Array.toList_append, Array.toList_replicate]
  exact distances_foldl_find hcells hrising

end Locals

theorem Node.rising_violations (ctx : Context) (S : Scopes) (node : Node) (k : Nat) :
    Rising k (node.violations ctx S) k := by
  have hnone : (node.violations ctx S).filterMap Finding.number? = [] := by
    rw [List.filterMap_eq_nil_iff]
    intro finding hfinding
    rcases Option.map_eq_some_iff.mp (Option.mem_toList.mp hfinding) with ⟨broken, _, rfl⟩
    rfl
  constructor
  · rw [hnone]
    exact .nil
  · rw [hnone]
    nofun

theorem Node.rising_lookups (ctx : Context) (S : Scopes) {node : Node} {k k' : Nat}
    (hnode : ∀ r ∈ node.reference?, k ≤ r.2.node ∧ r.2.node < k') :
    Rising k (node.lookups ctx S) k' := by
  have hnumbers : ∀ n ∈ (node.lookups ctx S).filterMap Finding.number?, k ≤ n ∧ n < k' := by
    intro n hn
    rcases List.mem_filterMap.mp hn with ⟨finding, hfinding, hnumber⟩
    cases hreference : node.reference? with
    | none => simp [lookups, hreference] at hfinding
    | some r =>
        have hbounds := hnode r hreference
        simp only [lookups, hreference, Option.elim_some] at hfinding
        split at hfinding
        · cases hfinding
        · rcases mem_reference_findings.mp hfinding with ⟨d, _, rfl⟩ | ⟨_, rfl⟩
          · cases hnumber
            exact hbounds
          · cases hnumber
            exact hbounds
  refine ⟨?_, hnumbers⟩
  have hlength : ((node.lookups ctx S).filterMap Finding.number?).length ≤ 1 :=
    Nat.le_trans (List.length_filterMap_le _ _) node.length_lookups
  rcases h : (node.lookups ctx S).filterMap Finding.number? with _ | ⟨n, _ | ⟨_, _⟩⟩
  · exact .nil
  · exact List.pairwise_singleton _ _
  · rw [h] at hlength
    simp at hlength

theorem Walk.rising {ctx : Context} {S U : Scopes} {nodes : List Node} {findings : List Finding}
    (hwalk : Walk ctx S nodes U findings) :
    ∀ {k k' : Nat}, Node.Numbers k nodes k' → Rising k findings k' := by
  induction hwalk with
  | nil =>
      intro k k' hnumbers
      exact .nil
  | @cons ctx S T U node nodes inner outer _ _ ihinner ihouter =>
      intro k k' hnumbers
      cases hnumbers with
      | cons hinner hnode hle houter =>
          have hlookups := (Node.rising_lookups ctx S hnode).append (ihouter houter) hle houter.le
          have hrest := (ihinner hinner).append hlookups hinner.le (Nat.le_trans hle houter.le)
          exact (node.rising_violations ctx S k).append hrest (Nat.le_refl k)
            (Nat.le_trans hinner.le (Nat.le_trans hle houter.le))

theorem rising_resolve (k : Nat) (program : List Stmt) :
    Rising k (resolve (Stmt.allNumbered k program)).findings (k + Stmt.allPlaces program) :=
  (walk_resolve _).rising (Node.numbers_stmts k program)

namespace Locals

section

variable {l : Locals} {count : Nat} {findings : List Finding}

theorem cells_learn_of_lt {node : Nat} (hrising : Rising l.size findings (l.size + count))
    (hlt : node < l.size) : (l.learn count findings).cells[node]? = l.cells[node]? := by
  rw [learn, cells_foldl_find_of_not_mem, cells_extend_of_lt hlt]
  intro d hd
  have hle := (hrising.bounds node (List.mem_filterMap.mpr ⟨_, hd, rfl⟩)).1
  omega

theorem Tells.learn {node : NodeId} {depth : Option Nat} (htells : l.Tells node depth)
    (hrising : Rising l.size findings (l.size + count)) :
    (l.learn count findings).Tells node depth := by
  rcases htells with ⟨cell, hcell, hdepth⟩
  have hlt : node < l.size := (Array.getElem?_eq_some_iff.mp hcell).1
  exact ⟨cell, (cells_learn_of_lt hrising hlt).trans hcell, hdepth⟩

theorem cells_learn_local {node : NodeId} {d : Distance}
    (hrising : Rising l.size findings (l.size + count)) (hmem : .local node d ∈ findings) :
    (l.learn count findings).cells[node]? = some (some d) := by
  refine cells_foldl_find hmem ?_ ?_
  · intro d' hd'
    cases hrising.eq_of_number? hmem hd' rfl rfl
    rfl
  · have hlt := (hrising.bounds node (List.mem_filterMap.mpr ⟨_, hmem, rfl⟩)).2
    rw [size, extend, Array.size_append, Array.size_replicate]
    exact hlt

theorem cells_learn_none {node : Nat} (hle : l.size ≤ node) (hlt : node < l.size + count)
    (hnone : ∀ d, .local node d ∉ findings) :
    (l.learn count findings).cells[node]? = some none := by
  rw [learn, cells_foldl_find_of_not_mem hnone, cells_extend_of_le hle hlt]

end

end Locals

section

variable {program : List Stmt}

theorem mem_findings_iff {finding : Finding} :
    finding ∈ (resolve program).findings ↔ ∃ p, (Node.program program).Finds p finding := by
  rcases located_resolve program with ⟨located, hfindings, _, hmem⟩
  rw [← hfindings, List.mem_map]
  constructor
  · rintro ⟨⟨p, found⟩, hfound, rfl⟩
    exact ⟨p, (hmem p found).mp hfound⟩
  · rintro ⟨p, hfinds⟩
    exact ⟨(p, finding), (hmem p finding).mpr hfinds, rfl⟩

/-- The table that has learnt of a program tells what was found in it. -/
theorem seen_learn (l : Locals) (hsilent : Resolve.Silent
      (resolve (Stmt.allNumbered l.size program)).findings) :
    Resolve.Seen (l.learn (Stmt.allPlaces program)
        (resolve (Stmt.allNumbered l.size program)).findings).Tells
      (resolve (Stmt.allNumbered l.size program)).findings := by
  intro finding hfinding
  have hrising := rising_resolve l.size program
  cases finding with
  | violation token rule => cases hsilent _ hfinding
  | «local» node d => exact ⟨some d, Locals.cells_learn_local hrising hfinding, rfl⟩
  | «global» node name =>
      have hbounds := hrising.bounds node (List.mem_filterMap.mpr ⟨_, hfinding, rfl⟩)
      refine ⟨none, Locals.cells_learn_none hbounds.1 hbounds.2 ?_, rfl⟩
      intro d hd
      cases hrising.eq_of_number? hfinding hd rfl rfl
  | defect d =>
      rcases mem_findings_iff.mp hfinding with ⟨p, hfinds⟩
      cases hfinds

end

end Lox
