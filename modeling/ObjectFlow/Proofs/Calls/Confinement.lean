/-
  File:      ObjectFlow/Proofs/Calls/Confinement.lean
  Subject:   CALL GRAPHS ARE CONFINED TO WHAT IS REACHABLE: each edge leads from a call in a reachable
             method to a reachable method, whichever analysis built the graph.

  While the pointer analysis runs this does not hold: an edge may be found before its caller is
  reached. It holds of the result, because the result is the least solution of its rules and the
  part of a solution that lies in reachable methods is closed under them.

  * `CallGraph.Confined`: what is said of a call graph;
  * `Solution.confine`, `Solution.Closed.confine`: the part of a solution in reachable methods;
  * `Built`, `confined_of_built`: the three ways a call graph is built, and what holds of each.
-/
import ObjectFlow.Proofs.Calls.HierarchyClosure
import ObjectFlow.Proofs.PointsTo.Contextual
import ObjectFlow.Proofs.PointsTo.Parts
import ObjectFlow.Proofs.PointsTo.Plain

namespace ObjectFlow

/-- **Confined call graphs**: every edge leads from a call in a reachable method to a reachable
    method, and nothing is listed twice. -/
structure CallGraph.Confined (g : PlainCallGraph) (p : Program) : Prop where
  once : g.Once
  sites : ∀ e ∈ g.edges, e.site.method ∈ g.reachable ∧ ∃ i, p.stmt? e.site = some (.call i)
  callees : ∀ e ∈ g.edges, e.callee ∈ g.reachable

/-! ## 1. The part of a solution in reachable methods -/

namespace Solution

variable {K O : Type} {p : Program} {heap : HeapPolicy} {A : Abstraction K O} {start : MethodId}
  {S : Solution K O}

/-- The calls at call statements of reachable methods, and what is said of the variables of
    reachable methods. -/
def confine (p : Program) (S : Solution K O) : Solution K O where
  reachable := S.reachable
  calls a b := S.calls a b ∧ S.reachable ⟨a.context, a.item.method⟩ ∧
    ∃ i, p.stmt? a.item = some (.call i)
  pointsTo x o := S.pointsTo x o ∧ ∀ c v, x = .var c v → S.reachable ⟨c, (p.varAt v).method⟩

/-- **The part is closed under the rules.** -/
theorem Closed.confine (hp : p.Filled) (hS : S.Closed p heap A start) :
    (S.confine p).Closed p heap A start := by
  have hpart : S.confine p = S.part p S.reachable fun a _ =>
      S.reachable ⟨a.context, a.item.method⟩ ∧ ∃ i, p.stmt? a.item = some (.call i) := by
    ext <;> simp [Solution.confine, Solution.part]
  rw [hpart]
  exact hS.part hp hS.entry (fun hcall hsite => ⟨hsite.1, hS.callee hcall⟩)
    (fun hsite _ hstmt _ => ⟨hsite, _, hstmt⟩) (fun _ hsite hstmt _ _ => ⟨hsite, _, hstmt⟩)

/-- **In the least solution every call is one of a reachable method, to a reachable method.** -/
theorem of_calls (hp : p.Filled) (hS : S.Closed p heap A start)
    (hleast : ∀ T : Solution K O, T.Closed p heap A start → S ≤ T) {a : Qualified K Site}
    {b : Qualified K MethodId} (hab : S.calls a b) :
    S.reachable ⟨a.context, a.item.method⟩ ∧ (∃ i, p.stmt? a.item = some (.call i)) ∧
      S.reachable b :=
  have hconfined := (hleast _ (hS.confine hp)).2.1 a b hab
  ⟨hconfined.2.1, hconfined.2.2, hS.callee hab⟩

end Solution

/-! ## 2. Call graphs of results -/

namespace Plain

variable {p : Program} {options : PointsToOptions} {allowance : Nat} {entry : MethodId}
  {r : PlainResult}

theorem solution_le (h : analyzeWithin p options Plugin.none () allowance entry = some (r, ()))
    {S : Solution Unit HeapObject} (hS : S.Closed p options.heap abstraction entry) :
    r.solution ≤ S := by
  obtain ⟨s, rfl, hw, -⟩ := run_of_analyzeWithin h
  rw [result_solution (hw S hS)]
  exact (hw S hS).solution_le

theorem confined_calls (hp : p.Filled)
    (h : analyzeWithin p options Plugin.none () allowance entry = some (r, ())) :
    r.calls.Confined p := by
  have honce : r.calls.Once := by
    obtain ⟨s, rfl, -⟩ := run_of_analyzeWithin h
    exact CallGraph.once_rename s.calls _ _
  have hcall : ∀ e ∈ r.calls.edges, r.calls.hasMethod e.site.method = true ∧
      (∃ i, p.stmt? e.site = some (.call i)) ∧ r.calls.hasMethod e.callee = true := by
    intro e he
    have hab : r.solution.calls ⟨(), e.site⟩ ⟨(), e.callee⟩ :=
      CallGraph.hasEdge_iff.mpr ⟨e, he, rfl, rfl⟩
    exact Solution.of_calls hp (solution_closed h) (fun T hT => solution_le h hT) hab
  refine ⟨honce, fun e he => ?_, fun e he => ?_⟩
  · obtain ⟨hmethod, hstmt, -⟩ := hcall e he
    exact ⟨CallGraph.hasMethod_iff.mp hmethod, hstmt⟩
  · exact CallGraph.hasMethod_iff.mp (hcall e he).2.2

end Plain

namespace ContextSensitive

variable {p : Program} {options : PointsToOptions} {allowance : Nat} {entry : MethodId}
  {r : ContextResult}

/-- **With contexts too a call is one of a reachable method, to a reachable method**, each under
    the context the edge gives. -/
theorem of_mem_edges (hp : p.Filled)
    (h : analyzeWithin p options Plugin.none () allowance entry = some (r, ()))
    {e : ContextCallEdge ContextId} (he : e ∈ r.calls.edges) :
    r.solution.reachable ⟨r.contextOf e.site.context, e.site.item.method⟩ ∧
      (∃ i, p.stmt? e.site.item = some (.call i)) ∧
      r.solution.reachable ⟨r.contextOf e.callee.context, e.callee.item⟩ := by
  obtain ⟨⟨s, _⟩, hrun, hend⟩ := Option.map_eq_some_iff.mp h
  cases hend
  obtain ⟨hw, hclosed⟩ := run_least (reading_faithful p options.selector)
    (named_empty options.heap) hrun
  have hab : (result s).solution.calls ⟨(result s).contextOf e.site.context, e.site.item⟩
      ⟨(result s).contextOf e.callee.context, e.callee.item⟩ := ⟨e, he, rfl, rfl⟩
  rw [result_solution (hw _ hclosed)] at hab ⊢
  exact Solution.of_calls hp hclosed (fun T hT => (hw T hT).solution_le) hab

theorem confined_forget_calls (hp : p.Filled)
    (h : analyzeWithin p options Plugin.none () allowance entry = some (r, ())) :
    r.forget.calls.Confined p := by
  have hreach : ∀ {c m}, r.solution.reachable ⟨c, m⟩ → m ∈ r.forget.calls.reachable := by
    intro c m ⟨n, hn, hm⟩
    cases hm
    exact CallGraph.hasMethod_iff.mp (CallGraph.hasMethod_rename.mpr
      (.inr ⟨n, CallGraph.hasMethod_iff.mp hn, rfl⟩))
  -- every edge is one under some contexts
  have hedge : ∀ e ∈ r.forget.calls.edges,
      ∃ e' ∈ r.calls.edges, e'.site.item = e.site ∧ e'.callee.item = e.callee :=
    fun e he => CallGraph.hasEdge_rename.mp (CallGraph.hasEdge_iff.mpr ⟨e, he, rfl, rfl⟩)
  refine ⟨CallGraph.once_rename r.calls _ _, fun e he => ?_, fun e he => ?_⟩
  · obtain ⟨e', he', hsite, -⟩ := hedge e he
    obtain ⟨hmethod, hstmt, -⟩ := of_mem_edges hp h he'
    rw [← hsite]
    exact ⟨hreach hmethod, hstmt⟩
  · obtain ⟨e', he', -, hcallee⟩ := hedge e he
    rw [← hcallee]
    exact hreach (of_mem_edges hp h he').2.2

end ContextSensitive

namespace ClassHierarchy

theorem confined_callGraph {p : Program} (hp : p.Filled) (entry : MethodId) :
    (callGraph p entry).Confined p := by
  refine ⟨once_callGraph p entry, fun e he => ?_, fun e he => ?_⟩
  · obtain ⟨hmethod, i, hi, -⟩ := (mem_edges_callGraph hp).mp he
    exact ⟨CallGraph.hasMethod_iff.mp hmethod, i, Program.invoke?_eq_some_iff.mp hi⟩
  · have hcall := of_hasEdge hp.coherent (CallGraph.hasEdge_iff.mpr ⟨e, he, rfl, rfl⟩)
    exact CallGraph.hasMethod_iff.mp hcall.2

end ClassHierarchy

/-! ## 3. Every call graph that is built -/

/-- **The call graphs that are built** for a program and the method to start from: of the class
    hierarchy, of a pointer analysis without contexts, and of one whose contexts are forgotten. -/
inductive Built (p : Program) (start : MethodId) : PlainCallGraph → Prop
  | hierarchy : Built p start (ClassHierarchy.callGraph p start)
  | plain {options : PointsToOptions} {allowance : Nat} {r : PlainResult}
      (run : Plain.analyzeWithin p options Plugin.none () allowance start = some (r, ())) :
      Built p start r.calls
  | contexts {options : PointsToOptions} {allowance : Nat} {r : ContextResult}
      (run : ContextSensitive.analyzeWithin p options Plugin.none () allowance start =
        some (r, ())) : Built p start r.forget.calls

/-- **Every call graph that is built is confined.** -/
theorem confined_of_built {p : Program} (hp : p.Filled) {start : MethodId} {g : PlainCallGraph}
    (h : Built p start g) : g.Confined p := by
  cases h with
  | hierarchy => exact ClassHierarchy.confined_callGraph hp start
  | plain run => exact Plain.confined_calls hp run
  | contexts run => exact ContextSensitive.confined_forget_calls hp run

end ObjectFlow
