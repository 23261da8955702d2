/-
  File:      ObjectFlow/Proofs/Dataflow/ProgramEquations.lean
  Subject:   THE FLOW EQUATIONS OF CONSTANT PROPAGATION ACROSS METHODS, and where they fail.

  The fact before a node is the join of what arrives over its edges, whatever the order of visits
  and whatever the pointer analysis found. The exit of the entry method makes one exception: its
  fact is computed after the last visit, so where the entry method is itself called nothing
  arrives over the return edges (`recursive`).
-/
import ObjectFlow.Dataflow.ProgramConstants
import ObjectFlow.Program.Reader
import ObjectFlow.Proofs.ControlFlow.SupergraphLayout
import ObjectFlow.Proofs.Dataflow.Inputs

namespace ObjectFlow

namespace ProgramConstants

/-! ## 1. What arrives -/

/-- What arrives at a node, given the facts after all nodes. -/
def arrives (p : Program) (graph : Supergraph) (out : Nat → ConstFact) (n : Nat) : ConstFact :=
  ((graph.graph.inEdges n).map fun e => transferEdge p graph e (out e.source)).foldl
    FactMap.join .empty

namespace Result

/-- The fact after a node. -/
def outAt (r : Result) (n : Nat) : ConstFact := (r.facts.out? n).getD .empty

/-- The fact a node gives to the nodes behind it: nothing, if it is the exit of the entry
    method. -/
def given (r : Result) (n : Nat) : ConstFact :=
  if r.graph.methodExit? r.graph.entryMethod = some n then .empty else r.outAt n

end Result

/-! ## 2. The graph and its loads -/

section Promises

variable {p : Program} {entry : MethodId} {points : PlainResult} {graph : Supergraph}

theorem stmtAt?_of_mem_accesses {place? : Stmt → Option Place} {a : Nat × Place}
    (ha : a ∈ accesses p graph place?) :
    a.1 < graph.graph.nodeCount ∧ ∃ site, graph.siteOf? a.1 = some site := by
  obtain ⟨n, hn, ha⟩ := List.mem_filterMap.mp ha
  obtain ⟨place, hplace, rfl⟩ := Option.map_eq_some_iff.mp ha
  obtain ⟨stmt, hstmt, -⟩ := Option.bind_eq_some_iff.mp hplace
  obtain ⟨site, hsite, -⟩ := Option.bind_eq_some_iff.mp hstmt
  exact ⟨List.mem_range.mp hn, site, hsite⟩

/-- The loads that wait for a store are statements. -/
theorem site_of_mem_loadsOf {store load : Nat}
    (h : load ∈ (links p graph points).loadsOf store) :
    load < graph.graph.nodeCount ∧ ∃ site, graph.siteOf? load = some site := by
  obtain ⟨pair, hpair, rfl⟩ := List.mem_map.mp h
  obtain ⟨a, ha, hpair⟩ := List.mem_flatMap.mp (List.mem_of_mem_filter hpair)
  obtain ⟨b, -, rfl⟩ := List.mem_map.mp hpair
  exact stmtAt?_of_mem_accesses ha

/-- **What the solver is promised holds of the control flow of every program.** -/
theorem bounded (hp : p.JumpsInside)
    (hgraph : Supergraph.ofCalls? p points.calls entry = some graph) :
    (problem p graph (links p graph points)).Bounded graph.graph where
  coherent := Supergraph.coherent_of_ofCalls? hp hgraph
  dependents _ _ hm := by
    obtain ⟨hlt, site, hsite⟩ := site_of_mem_loadsOf hm
    exact ⟨hlt, Supergraph.isInner_of_siteOf? hgraph hsite⟩
  finish n m hn hm := by
    have hn := (Supergraph.isExit_iff hgraph).mp hn
    rw [(Supergraph.isExit_iff hgraph).mp hm] at hn
    exact (Option.some.inj hn).symm

end Promises

/-! ## 3. Results -/

section Results

variable {p : Program} {entry : MethodId} {points : PlainResult} {order : VisitOrder}
  {allowance : Nat} {r : Result}

theorem of_analyzeWithin (h : analyzeWithin p entry points order allowance = some r) :
    Supergraph.ofCalls? p points.calls entry = some r.graph ∧ ∃ memory,
      (problem p r.graph (links p r.graph points)).solveWithin r.graph.graph order [] allowance =
        some (r.facts, memory) := by
  obtain ⟨graph, hgraph, h⟩ := Option.bind_eq_some_iff.mp h
  obtain ⟨⟨facts, memory⟩, hfacts, h⟩ := Option.bind_eq_some_iff.mp h
  cases h
  exact ⟨hgraph, memory, hfacts⟩

/-- The exit of the entry method is the node computed last. -/
theorem isLast_iff (hgraph : Supergraph.ofCalls? p points.calls entry = some r.graph) {n : Nat} :
    (problem p r.graph (links p r.graph points)).isLast r.graph.graph n = true ↔
      r.graph.methodExit? r.graph.entryMethod = some n := by
  obtain ⟨hentry, hranges, -⟩ := Supergraph.of_ofCalls? hgraph
  rw [hentry]
  refine Bool.and_eq_true_iff.trans ⟨fun h => (Supergraph.isExit_iff hgraph).mp h.1, fun h => ?_⟩
  refine ⟨(Supergraph.isExit_iff hgraph).mpr h, ?_⟩
  refine (Bool.not_eq_true' _).mpr (Bool.eq_false_iff.mpr fun hstart => ?_)
  have hstart := (Supergraph.isEntry_iff hgraph).mp hstart
  obtain ⟨range, hrange, hexit⟩ := Option.map_eq_some_iff.mp h
  unfold Supergraph.methodEntry? at hstart
  rw [hrange] at hstart
  have hmem := hranges ▸ mem_of_rangeOf? hrange
  exact (MethodRange.ends_lt hmem).2.2 ((Option.some.inj hstart).trans hexit.symm)

/-- **The fact before every node is the join of what arrives from what the nodes before it
    give.** -/
theorem in?_eq_arrives (hp : p.JumpsInside)
    (h : analyzeWithin p entry points order allowance = some r) {n : Nat}
    (hn : n < r.graph.graph.nodeCount) (hentry : r.graph.methodEntry? entry ≠ some n) :
    r.facts.in? n = some (arrives p r.graph r.given n) := by
  obtain ⟨hgraph, memory, hrun⟩ := of_analyzeWithin h
  obtain ⟨hdirection, hinputs, -, hinput⟩ :=
    DataflowProblem.inputAt_of_solveWithin (bounded hp hgraph) hrun
  have hin : r.facts.in? n =
      some ((problem p r.graph (links p r.graph points)).inputAt r.facts n) := by
    unfold Facts.in? DataflowProblem.inputAt
    rw [hdirection, Array.getD_eq_getD_getElem?]
    show r.facts.inputs[n]? = _
    rw [Array.getElem?_eq_getElem (hinputs.symm ▸ hn)]
    rfl
  have hgiven : (problem p r.graph (links p r.graph points)).given r.graph.graph r.facts =
      r.given := by
    funext m
    unfold DataflowProblem.given Result.given Result.outAt Facts.out? DataflowProblem.outputAt
    rw [hdirection, Array.getD_eq_getD_getElem?]
    exact if_congr (isLast_iff hgraph) rfl rfl
  have hstart : r.graph.graph.isEntry n = false :=
    Bool.eq_false_iff.mpr fun hstart => hentry ((Supergraph.isEntry_iff hgraph).mp hstart)
  rw [hin, hinput n hn hstart, hgiven]
  rfl

end Results

/-- **The facts before all nodes satisfy the flow equations**, but for return edges out of the entry
    method: over those nothing arrives. The equations hold as they stand at every node without
    such an edge. -/
theorem program_constants_solve {source : String} {p : Program}
    (hp : Program.ofSource source = .ok p) {entry : MethodId} {points : PlainResult}
    {order : VisitOrder} {allowance : Nat} {r : Result}
    (h : analyzeWithin p entry points order allowance = some r) {n : Nat}
    (hn : n < r.graph.graph.nodeCount) (hentry : r.graph.methodEntry? entry ≠ some n) :
    r.facts.in? n = some (arrives p r.graph r.given n) ∧
      ((∀ e ∈ r.graph.graph.inEdges n, r.graph.methodExit? entry ≠ some e.source) →
        r.facts.in? n = some (arrives p r.graph r.outAt n)) := by
  have hin := in?_eq_arrives (Program.jumpsInside_of_ofSource hp) h hn hentry
  refine ⟨hin, fun hnot => ?_⟩
  have hmethod := (Supergraph.of_ofCalls? (of_analyzeWithin h).1).1
  rw [hin]
  unfold arrives
  congr 2
  refine List.map_congr_left fun e he => ?_
  unfold Result.given
  rw [hmethod, if_neg (hnot e he)]

/-- A call whose result is its argument. -/
def calling : String :=
  "class A \x7b
    static method int same(int x) \x7b return x; \x7d
    static method void main() \x7b
      var int k, r;
      k = 2;
      r = staticinvoke <A: int same(int)>(k);
      k = r;
    \x7d
  \x7d"

set_option maxRecDepth 2000 in
/-- The result arrives behind the call, over the return edge. -/
theorem program_constants_solve_calling :
    ∃ p points r, Program.ofSource calling = .ok p ∧
      Plain.analyzeWithin p {} Plugin.none () 40 1 = some (points, ()) ∧
      analyzeWithin p 1 points .lifo 40 = some r ∧
      r.facts.in? 3 = some (arrives p r.graph r.outAt 3) ∧
      (arrives p r.graph r.outAt 3).get 2 = .const 2 := by
  obtain ⟨p, hp, h⟩ := Program.exists_of_any_ofSource calling
    (fun p => (Plain.analyzeWithin p {} Plugin.none () 40 1).any fun points =>
      (analyzeWithin p 1 points.1 .lifo 40).any fun r : Result => decide (
        3 < r.graph.graph.nodeCount ∧ r.graph.methodEntry? 1 ≠ some 3 ∧
        (∀ e ∈ r.graph.graph.inEdges 3, r.graph.methodExit? 1 ≠ some e.source) ∧
        (arrives p r.graph r.outAt 3).get 2 = .const 2)) (by
    have htext : calling.toList = _ := String.toList_ofList
    rw [Program.ofSource, lex_eq htext]
    decide +kernel)
  obtain ⟨⟨points, _⟩, hpoints, h⟩ := (Option.any_eq_true _ _).mp h
  obtain ⟨r, hr, h⟩ := (Option.any_eq_true _ _).mp h
  obtain ⟨hn, hentry, hnot, hvalue⟩ := of_decide_eq_true h
  exact ⟨p, points, r, hp, hpoints, hr, (program_constants_solve hp hr hn hentry).2 hnot, hvalue⟩

/-- The entry method calls itself and always returns one. -/
def recursive : String :=
  "class Main \x7b
    static method int main(int n) \x7b
      var int r, k;
      k = 1;
      if n == k goto base;
      r = staticinvoke <Main: int main(int)>(k);
      nop;
      base: return k;
    \x7d
  \x7d"

set_option maxRecDepth 2000 in
/-- **Where the entry method is called the equations may fail**: behind the call the facts say
    nothing of the result, while one arrives over the return edge. -/
theorem recursive_result_is_lost :
    ∃ p points r, Program.ofSource recursive = .ok p ∧
      Plain.analyzeWithin p {} Plugin.none () 40 0 = some (points, ()) ∧
      analyzeWithin p 0 points .fifo 60 = some r ∧
      4 < r.graph.graph.nodeCount ∧ r.graph.methodEntry? 0 ≠ some 4 ∧
      (r.facts.in? 4).map (·.get 1) = some .undefined ∧
      (arrives p r.graph r.outAt 4).get 1 = .const 1 ∧
      r.facts.in? 4 ≠ some (arrives p r.graph r.outAt 4) := by
  obtain ⟨p, hp, h⟩ := Program.exists_of_any_ofSource recursive
    (fun p => (Plain.analyzeWithin p {} Plugin.none () 40 0).any fun points =>
      (analyzeWithin p 0 points.1 .fifo 60).any fun r : Result => decide (
        4 < r.graph.graph.nodeCount ∧ r.graph.methodEntry? 0 ≠ some 4 ∧
        (r.facts.in? 4).map (·.get 1) = some .undefined ∧
        (arrives p r.graph r.outAt 4).get 1 = .const 1)) (by
    have htext : recursive.toList = _ := String.toList_ofList
    rw [Program.ofSource, lex_eq htext]
    decide +kernel)
  obtain ⟨⟨points, _⟩, hpoints, h⟩ := (Option.any_eq_true _ _).mp h
  obtain ⟨r, hr, h⟩ := (Option.any_eq_true _ _).mp h
  obtain ⟨hn, hentry, hlost, hvalue⟩ := of_decide_eq_true h
  refine ⟨p, points, r, hp, hpoints, hr, hn, hentry, hlost, hvalue, fun hin => ?_⟩
  rw [hin, Option.map_some, hvalue] at hlost
  cases hlost

end ProgramConstants

end ObjectFlow
