/-
  File:      ObjectFlow/Proofs/Dataflow/LivePaths.lean
  Subject:   LIVE IS WHAT SOME PATH READS BEFORE WRITING IT: the live variables of a method, said of
             the paths of its control flow graph.

  Paths start anywhere, also where control never comes from the entry, and need not lead to the
  exit. A statement that both reads and writes a variable reads it first.

  * `MethodFlow.ReadFirst`: some path from a node reads a variable before any statement writes it;
  * `readFirst_iff`: what that says of one node and the nodes behind it;
  * `mem_of_readFirst`: what a path reads is live at its start, by induction on the path;
  * `readFirst_of_mem`: what is live is read on a path, because every visit keeps that;
  * `live_iff_read_first`: the two together, for every order of visits.
-/
import Mathlib.Logic.Relation
import ObjectFlow.Proofs.Dataflow.UselessAssignments

namespace ObjectFlow

/-! ## 1. Paths -/

namespace MethodFlow

/-- The statement of the node reads the variable. -/
def Reads (flow : MethodFlow) (v : VarId) (n : Nat) : Prop :=
  ∃ stmt, flow.stmtAt? n = some stmt ∧ v ∈ stmt.uses

/-- The statement of the node writes the variable. -/
def Writes (flow : MethodFlow) (v : VarId) (n : Nat) : Prop :=
  ∃ stmt, flow.stmtAt? n = some stmt ∧ stmt.defined? = some v

/-- One step of a path, out of a node that does not write the variable. -/
def Passes (flow : MethodFlow) (v : VarId) (n n' : Nat) : Prop :=
  n' ∈ flow.graph.successors n ∧ ¬ flow.Writes v n

/-- **Some path from the node reads the variable before any statement writes it.** -/
def ReadFirst (flow : MethodFlow) (v : VarId) (n : Nat) : Prop :=
  ∃ last, Relation.ReflTransGen (flow.Passes v) n last ∧ flow.Reads v last

/-- The variable is read at once, or not written and read from a successor on. -/
theorem readFirst_iff {flow : MethodFlow} {v : VarId} {n : Nat} :
    flow.ReadFirst v n ↔ flow.Reads v n ∨
      (¬ flow.Writes v n ∧ ∃ n' ∈ flow.graph.successors n, flow.ReadFirst v n') := by
  constructor
  · intro ⟨last, hpath, hreads⟩
    rcases hpath.cases_head with rfl | ⟨n', ⟨hnext, hspared⟩, hpath⟩
    · exact .inl hreads
    · exact .inr ⟨hspared, n', hnext, last, hpath, hreads⟩
  · intro h
    rcases h with hreads | ⟨hspared, n', hnext, last, hpath, hreads⟩
    · exact ⟨n, .refl, hreads⟩
    · exact ⟨last, .head ⟨hnext, hspared⟩ hpath, hreads⟩

end MethodFlow

namespace Liveness

variable {p : Program} {m : MethodId}

/-! ## 2. Nodes of a method -/

/-- A node with a statement lies between entry and exit. -/
theorem exists_of_stmtAt? {n : Nat} {stmt : Stmt} (h : (p.flowOf m).stmtAt? n = some stmt) :
    ∃ i, n = i + 1 ∧ (p.methodAt m).stmts[i]? = some stmt := by
  cases n with
  | zero =>
    have hnone : (p.flowOf m).stmtAt? 0 = none := by
      simp [MethodFlow.stmtAt?, MethodFlow.indexOf?, MethodFlow.entry]
    rw [hnone] at h
    cases h
  | succ i => exact ⟨i, rfl, (stmtAt?_ofStmts m i).symm.trans h⟩

/-- Only nodes before the exit have successors. -/
theorem lt_of_mem_successors (hp : p.JumpsInside) {n n' : Nat}
    (h : n' ∈ (p.flowOf m).graph.successors n) :
    n < (p.methodAt m).stmts.length + 1 ∧ n' < (p.flowOf m).graph.nodeCount := by
  obtain ⟨e, he, rfl⟩ := List.mem_map.mp h
  rcases Nat.lt_or_ge n ((p.methodAt m).stmts.length + 2) with hn | hn
  · obtain ⟨he, hsource⟩ := (mem_outEdges_ofStmts hn).mp he
    obtain ⟨hlt, -, htarget⟩ := ends_of_mem_bodyEdges (hp.targetsInside m) he
    exact ⟨hsource ▸ hlt, htarget⟩
  · have hnone : (p.flowOf m).graph.outEdges n = [] := by
      simp [Program.flowOf, MethodFlow.ofStmts, FlowGraph.ofEdges, FlowGraph.groupBy, hn]
    rw [hnone] at he
    exact absurd he List.not_mem_nil

/-- Facts start at the exit. -/
theorem isStart_iff {n : Nat} :
    (p.flowOf m).graph.isStart .backward n = true ↔ n = (p.methodAt m).stmts.length + 1 :=
  beq_iff_eq

/-- **What arrives at a node is what its successors have for output.** -/
theorem mem_joined {output : Nat → IdSet} {n i : Nat} :
    i ∈ (problem p (p.flowOf m)).joined (p.flowOf m).graph output n ↔
      ∃ n' ∈ (p.flowOf m).graph.successors n, i ∈ output n' := by
  have hfold : ∀ (edges : List (FlowEdge EdgeKind)) (a : IdSet),
      i ∈ (edges.map fun e => output e.target).foldl IdSet.union a ↔
        i ∈ a ∨ ∃ e ∈ edges, i ∈ output e.target := by
    intro edges
    induction edges with
    | nil => simp
    | cons e edges ih =>
      intro a
      rw [List.map_cons, List.foldl_cons, ih, IdSet.mem_union]
      simp [or_assoc]
  refine (hfold _ .empty).trans ?_
  simp [FlowGraph.successors, IdSet.not_mem_empty, FlowGraph.arriving, problem]

/-! ## 3. The facts of a result -/

section Results

variable {order : VisitOrder} {allowance : Nat} {live : MethodFacts IdSet}

/-- The facts at the two sides of a node. -/
theorem facts_eq (hp : p.JumpsInside) (hlive : analyzeWithin p m order allowance = some live)
    {n : Nat} (hn : n < (p.flowOf m).graph.nodeCount) :
    live.facts.in? n = some ((problem p (p.flowOf m)).outputAt live.facts n) ∧
      live.facts.out? n = some ((problem p (p.flowOf m)).inputAt live.facts n) := by
  obtain ⟨-, hsolves⟩ := solves_of_analyzeWithin hp hlive
  have hsome : ∀ {a : Array IdSet}, a.size = (p.flowOf m).graph.nodeCount →
      a[n]? = some (a.getD n .empty) := by
    intro a ha
    rw [Array.getD_eq_getD_getElem?, Array.getElem?_eq_getElem (ha.symm ▸ hn)]
    rfl
  unfold Facts.in? Facts.out?
  rw [hsolves.direction]
  exact ⟨hsome hsolves.outputs, hsome hsolves.inputs⟩

/-- **After a node is live what is live before a successor**; behind the exit there is none. -/
theorem mem_inputAt_iff (hp : p.JumpsInside) (hlive : analyzeWithin p m order allowance = some live)
    {n i : Nat} (hn : n < (p.flowOf m).graph.nodeCount) :
    i ∈ (problem p (p.flowOf m)).inputAt live.facts n ↔
      ∃ n' ∈ (p.flowOf m).graph.successors n,
        i ∈ (problem p (p.flowOf m)).outputAt live.facts n' := by
  obtain ⟨-, hsolves⟩ := solves_of_analyzeWithin hp hlive
  cases hexit : (p.flowOf m).graph.isStart .backward n with
  | true =>
    rw [(hsolves.boundary n hn hexit).1]
    refine iff_of_false IdSet.not_mem_empty fun ⟨n', hnext, _⟩ => ?_
    have hlt := (lt_of_mem_successors hp hnext).1
    rw [isStart_iff] at hexit
    omega
  | false =>
    rw [hsolves.input n hn hexit]
    exact mem_joined

/-- Before a node is live what its statement makes of what is live after it. -/
theorem outputAt_eq (hp : p.JumpsInside) (hlive : analyzeWithin p m order allowance = some live)
    {n : Nat} (hn : n < (p.methodAt m).stmts.length + 1) :
    (problem p (p.flowOf m)).outputAt live.facts n =
      transferAt p (p.flowOf m) n ((problem p (p.flowOf m)).inputAt live.facts n) := by
  obtain ⟨-, hsolves⟩ := solves_of_analyzeWithin hp hlive
  refine hsolves.output n (Nat.lt_succ_of_lt hn) (Bool.eq_false_iff.mpr fun hexit => ?_)
  exact Nat.ne_of_lt hn (isStart_iff.mp hexit)

/-! ## 4. What a path reads is live -/

/-- What the statement of a node reads is live before it. -/
theorem mem_of_reads (hp : p.JumpsInside) (hlive : analyzeWithin p m order allowance = some live)
    {v : VarId} {n : Nat} (hreads : (p.flowOf m).Reads v n) :
    localIndex p v ∈ (problem p (p.flowOf m)).outputAt live.facts n := by
  obtain ⟨stmt, hstmt, hv⟩ := hreads
  obtain ⟨i, rfl, hi⟩ := exists_of_stmtAt? hstmt
  rw [outputAt_eq hp hlive (Nat.succ_lt_succ (List.getElem?_eq_some_iff.mp hi).1), transferAt,
    hstmt]
  exact mem_transferStmt.mpr (.inr (List.mem_map_of_mem hv))

/-- What is live before a successor is live before a node that does not write it. -/
theorem mem_of_passes (hfilled : p.Filled) (hp : p.JumpsInside)
    (hlive : analyzeWithin p m order allowance = some live) {v : VarId}
    (hv : v ∈ (p.methodAt m).vars) {n n' : Nat} (hpasses : (p.flowOf m).Passes v n n')
    (hnext : localIndex p v ∈ (problem p (p.flowOf m)).outputAt live.facts n') :
    localIndex p v ∈ (problem p (p.flowOf m)).outputAt live.facts n := by
  obtain ⟨hedge, hspared⟩ := hpasses
  have hlt := (lt_of_mem_successors hp hedge).1
  have hafter := (mem_inputAt_iff hp hlive (Nat.lt_succ_of_lt hlt)).mpr ⟨n', hedge, hnext⟩
  rw [outputAt_eq hp hlive hlt, transferAt]
  cases hstmt : (p.flowOf m).stmtAt? n with
  | none => exact hafter
  | some stmt =>
    obtain ⟨i, rfl, hi⟩ := exists_of_stmtAt? hstmt
    refine mem_transferStmt.mpr (.inl ⟨hafter, fun x hx => ?_⟩)
    exact DeadCode.localIndex_ne hfilled hi hv hx fun heq => hspared ⟨stmt, hstmt, heq ▸ hx⟩

/-- **What a path reads before it is written is live where the path starts.** -/
theorem mem_of_readFirst (hfilled : p.Filled) (hp : p.JumpsInside)
    (hlive : analyzeWithin p m order allowance = some live) {v : VarId}
    (hv : v ∈ (p.methodAt m).vars) {n : Nat} (h : (p.flowOf m).ReadFirst v n) :
    localIndex p v ∈ (problem p (p.flowOf m)).outputAt live.facts n := by
  obtain ⟨last, hpath, hreads⟩ := h
  -- along the path from its end to its start
  induction hpath using Relation.ReflTransGen.head_induction_on with
  | refl => exact mem_of_reads hp hlive hreads
  | head hpasses _ ih => exact mem_of_passes hfilled hp hlive hv hpasses ih

/-! ## 5. What is live is read on a path -/

/-- All numbers in a set are of variables that are read first from the node on. -/
def ReadFirstAt (p : Program) (m : MethodId) (n : Nat) (live : IdSet) : Prop :=
  ∀ i ∈ live, ∃ v ∈ (p.methodAt m).vars, localIndex p v = i ∧ (p.flowOf m).ReadFirst v n

/-- **Computing a node from such sets gives such a set**, so every visit of the analysis keeps
    them. -/
theorem readFirst_closed (hfilled : p.Filled) (hp : p.JumpsInside) (m : MethodId) :
    (problem p (p.flowOf m)).Closed (p.flowOf m).graph (transferAt p (p.flowOf m))
      (ReadFirstAt p m) where
  boundary _ _ _ i hi := absurd hi IdSet.not_mem_empty
  initial _ _ i hi := absurd hi IdSet.not_mem_empty
  node output houtput n hn _ i hi := by
    have hnext : i ∈ (problem p (p.flowOf m)).joined (p.flowOf m).graph output n →
        ∃ v ∈ (p.methodAt m).vars, localIndex p v = i ∧
          ∃ n' ∈ (p.flowOf m).graph.successors n, (p.flowOf m).ReadFirst v n' := by
      intro hi
      obtain ⟨n', hn', hi⟩ := mem_joined.mp hi
      obtain ⟨v, hv, hvi, hread⟩ := houtput n' (lt_of_mem_successors hp hn').2 i hi
      exact ⟨v, hv, hvi, n', hn', hread⟩
    unfold transferAt at hi
    cases hstmt : (p.flowOf m).stmtAt? n with
    | none =>
      rw [hstmt] at hi
      obtain ⟨v, hv, hvi, hread⟩ := hnext hi
      refine ⟨v, hv, hvi, MethodFlow.readFirst_iff.mpr (.inr ⟨fun ⟨stmt, h, _⟩ => ?_, hread⟩)⟩
      rw [hstmt] at h
      cases h
    | some stmt =>
      rw [hstmt] at hi
      rcases mem_transferStmt.mp hi with ⟨hi, hspared⟩ | hi
      · obtain ⟨v, hv, hvi, hread⟩ := hnext hi
        refine ⟨v, hv, hvi, MethodFlow.readFirst_iff.mpr (.inr ⟨fun ⟨stmt', h, hdef⟩ => ?_, hread⟩)⟩
        rw [hstmt] at h
        cases h
        exact hspared v hdef hvi.symm
      · obtain ⟨v, hv, rfl⟩ := List.mem_map.mp hi
        obtain ⟨k, rfl, hk⟩ := exists_of_stmtAt? hstmt
        exact ⟨v, DeadCode.mem_vars_of_stmt hfilled hk (.inr hv), rfl,
          MethodFlow.readFirst_iff.mpr (.inl ⟨stmt, hstmt, hv⟩)⟩

/-- **What is live is read on some path before it is written.** -/
theorem readFirst_of_mem (hfilled : p.Filled) (hp : p.JumpsInside)
    (hlive : analyzeWithin p m order allowance = some live) {v : VarId}
    (hv : v ∈ (p.methodAt m).vars) {n : Nat} (hn : n < (p.flowOf m).graph.nodeCount)
    (h : localIndex p v ∈ (problem p (p.flowOf m)).outputAt live.facts n) :
    (p.flowOf m).ReadFirst v n := by
  obtain ⟨⟨facts, _⟩, hrun, rfl⟩ := Option.map_eq_some_iff.mp hlive
  obtain ⟨w, hw, hwv, hread⟩ :=
    (readFirst_closed hfilled hp m).of_solveWithin (admissible hp m) hrun n hn _ h
  rwa [← DeadCode.localIndex_inj hfilled.coherent hw hv hwv]

end Results

/-- **Live variables are exactly those some path reads before writing them.** For every accepted
    program and method the analysis ends in every order of visits, always with the same facts:
    before a node are live the variables that some path from the node reads before any statement
    writes them, after it those that are live before a successor. -/
theorem live_iff_read_first {source : String} (hp : Program.ofSource source = .ok p)
    (m : MethodId) :
    ∃ live : MethodFacts IdSet,
      (∀ order, ∃ k, ∀ allowance, k ≤ allowance → analyzeWithin p m order allowance = some live) ∧
      (∀ order allowance r, analyzeWithin p m order allowance = some r → r = live) ∧
      live.flow = p.flowOf m ∧
      ∀ n < (p.flowOf m).graph.nodeCount, ∃ before after,
        live.facts.in? n = some before ∧ live.facts.out? n = some after ∧
        ∀ v ∈ (p.methodAt m).vars,
          (localIndex p v ∈ before ↔ (p.flowOf m).ReadFirst v n) ∧
          (localIndex p v ∈ after ↔ ∃ n' ∈ (p.flowOf m).graph.successors n, ∃ next,
            live.facts.in? n' = some next ∧ localIndex p v ∈ next) := by
  have hinside := Program.jumpsInside_of_ofSource hp
  have hfilled := Program.filled_of_ofSource hp
  obtain ⟨k, live, hlive⟩ := exists_analyzeWithin hinside m .fifo
  have hrun := hlive k (Nat.le_refl k)
  refine ⟨live, fun order => ?_, fun order allowance r hr => eq_of_analyzeWithin hinside hr hrun,
    (solves_of_analyzeWithin hinside hrun).1, fun n hn => ?_⟩
  · obtain ⟨k', live', hlive'⟩ := exists_analyzeWithin hinside m order
    refine ⟨k', fun allowance hle => ?_⟩
    rw [hlive' allowance hle, eq_of_analyzeWithin hinside (hlive' allowance hle) hrun]
  · obtain ⟨hin, hout⟩ := facts_eq hinside hrun hn
    refine ⟨_, _, hin, hout, fun v hv => ⟨⟨fun h => ?_, fun h => ?_⟩, ?_⟩⟩
    · exact readFirst_of_mem hfilled hinside hrun hv hn h
    · exact mem_of_readFirst hfilled hinside hrun hv h
    · rw [mem_inputAt_iff hinside hrun hn]
      refine exists_congr fun n' => and_congr_right fun hn' => ?_
      rw [(facts_eq hinside hrun (lt_of_mem_successors hinside hn').2).1]
      simp

/-- The loop never ends, so control reaches neither the statements behind it nor the exit. -/
def spinning : String :=
  "class Main \x7b
    static method int main(int n, int k) \x7b
      var int a, b;
      again: a = n;
      n = a + k;
      goto again;
      b = n;
      return b;
    \x7d
  \x7d"

set_option maxRecDepth 2000 in
/-- Around the loop `n` and `k` are live and `a` is not; behind it, where control never is, `n` is
    read before anything writes it. -/
theorem live_iff_read_first_spinning :
    ∃ p live, Program.ofSource spinning = .ok p ∧ analyzeWithin p 0 .lifo 40 = some live ∧
      (live.facts.in? 1).map (·.elems) = some [0, 1] ∧
      (p.flowOf 0).ReadFirst 1 1 ∧ ¬ (p.flowOf 0).ReadFirst 2 1 ∧
      (p.flowOf 0).ReadFirst 0 4 ∧ ¬ (p.flowOf 0).ReadFirst 1 4 := by
  obtain ⟨p, hp, h⟩ := Program.exists_of_any_ofSource spinning
    (fun p => (analyzeWithin p 0 .lifo 40).any fun live : MethodFacts IdSet => decide (
      (p.flowOf 0).graph.nodeCount = 7 ∧ (p.methodAt 0).vars = [0, 1, 2, 3] ∧
      (∀ v : Nat, v < 4 → localIndex p v = v) ∧
      (live.facts.in? 1).map (·.elems) = some [0, 1] ∧
      (live.facts.in? 4).map (·.elems) = some [0])) (by
    have htext : spinning.toList = _ := String.toList_ofList
    rw [Program.ofSource, lex_eq htext]
    decide +kernel)
  obtain ⟨live, hlive, h⟩ := (Option.any_eq_true _ _).mp h
  obtain ⟨hcount, hvars, hlocal, hfirst, hbehind⟩ := of_decide_eq_true h
  obtain ⟨live', -, hsame, -, hiff⟩ := live_iff_read_first hp 0
  obtain rfl := hsame _ _ _ hlive
  have hread : ∀ {n v : Nat} {elems : List Nat}, n < 7 → v < 4 →
      (live.facts.in? n).map (·.elems) = some elems →
      ((p.flowOf 0).ReadFirst v n ↔ v ∈ elems) := by
    intro n v elems hn hv helems
    obtain ⟨before, _, hin, _, hbefore⟩ := hiff n (hcount.symm ▸ hn)
    have hmem : v ∈ (p.methodAt 0).vars := by
      rw [hvars]
      simp
      omega
    rw [hin] at helems
    obtain rfl := Option.some.inj helems
    rw [← (hbefore v hmem).1, hlocal v hv]
    rfl
  exact ⟨p, live, hp, hlive, hfirst, (hread (by decide) (by decide) hfirst).mpr (by decide),
    fun hr => absurd ((hread (by decide) (by decide) hfirst).mp hr) (by decide),
    (hread (by decide) (by decide) hbehind).mpr (by decide),
    fun hr => absurd ((hread (by decide) (by decide) hbehind).mp hr) (by decide)⟩

end Liveness

end ObjectFlow
