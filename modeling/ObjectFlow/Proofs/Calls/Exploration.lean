/-
  File:      ObjectFlow/Proofs/Calls/Exploration.lean
  Subject:   THE CALL GRAPH OF THE CLASS HIERARCHY IS EXPLORED TO ITS END.

  Methods are taken from a queue that is always the tail of the list of reachable methods: what
  stands before it is done, and the bound on the number of methods taken is never met before the
  queue is empty.

  * `mem_edgesOf`: the edges of the calls in a method;
  * `Explored`: a call graph with some methods done and others queued;
  * `Explored.step`, `explored_explore`: one method, and the whole exploration;
  * `hasEdge_of_target`, `of_hasEdge`: the finished graph has an edge for each method that a call
    in a reachable method may reach, and no edge from or to a method that is not reachable.
-/
import Mathlib.Data.List.Nodup
import Mathlib.Data.List.Perm.Subperm
import ObjectFlow.Proofs.Numbering
import ObjectFlow.Proofs.Program.WellFormed

namespace ObjectFlow

namespace ClassHierarchy

variable {p : Program} {entry : MethodId}

/-! ## 1. The edges of a method -/

theorem mem_edgesOf {m : MethodId} {e : CallEdge Site MethodId} :
    e ∈ edgesOf p m ↔ e.site.method = m ∧
      ∃ i, p.invoke? e.site = some i ∧ e.kind = i.kind ∧ e.callee ∈ targets p i := by
  unfold edgesOf
  rw [List.mem_flatMap]
  constructor
  · intro ⟨(site, stmt), hsite, he⟩
    obtain ⟨rfl, hstmt⟩ := Program.mem_sitesOf.mp hsite
    cases hi : stmt.invoke? with
    | none =>
      simp only [hi] at he
      exact absurd he List.not_mem_nil
    | some i =>
      simp only [hi] at he
      obtain ⟨callee, hcallee, rfl⟩ := List.mem_map.mp he
      refine ⟨rfl, i, ?_, rfl, hcallee⟩
      rw [Program.invoke?, hstmt]
      exact hi
  · intro ⟨hm, i, hi, hkind, hcallee⟩
    obtain ⟨stmt, hstmt, hcall⟩ := Option.bind_eq_some_iff.mp hi
    refine ⟨(e.site, stmt), Program.mem_sitesOf.mpr ⟨hm, hstmt⟩, ?_⟩
    simp only [hcall]
    refine List.mem_map.mpr ⟨e.callee, hcallee, ?_⟩
    rw [← hkind]

/-! ## 2. Adding edges -/

/-- What is added for one edge. -/
def addCall (g : PlainCallGraph) (e : CallEdge Site MethodId) : PlainCallGraph :=
  (g.addEdge e).addReachable e.callee

theorem hasMethod_foldl_addCall {edges : List (CallEdge Site MethodId)} {g : PlainCallGraph}
    {m : MethodId} :
    (edges.foldl addCall g).hasMethod m = true ↔
      g.hasMethod m = true ∨ ∃ e ∈ edges, m = e.callee :=
  holds_foldl_iff (P := fun g : PlainCallGraph => g.hasMethod m = true) (fun g e => by
    rw [addCall, CallGraph.hasMethod_addReachable, CallGraph.hasMethod_addEdge]) edges g

theorem hasEdge_foldl_addCall {edges : List (CallEdge Site MethodId)} {g : PlainCallGraph}
    {site : Site} {m : MethodId} :
    (edges.foldl addCall g).hasEdge site m = true ↔
      g.hasEdge site m = true ∨ ∃ e ∈ edges, e.site = site ∧ e.callee = m :=
  holds_foldl_iff (P := fun g : PlainCallGraph => g.hasEdge site m = true) (fun g e => by
    rw [addCall, CallGraph.hasEdge, CallGraph.edges_addReachable]
    exact CallGraph.hasEdge_addEdge) edges g

theorem reachable_addCall (g : PlainCallGraph) (e : CallEdge Site MethodId) :
    (addCall g e).reachable =
      if g.hasMethod e.callee then g.reachable else g.reachable.push e.callee := by
  have hedge : (g.addEdge e).reachable = g.reachable := by
    unfold CallGraph.addEdge
    split <;> rfl
  rw [addCall, CallGraph.addReachable, CallGraph.hasMethod_addEdge]
  split
  · exact hedge
  · show (g.addEdge e).reachable.push e.callee = _
    rw [hedge]

/-- Methods are only added behind those that are known, each once. -/
theorem reachable_foldl_addCall (edges : List (CallEdge Site MethodId)) (g : PlainCallGraph)
    (h : g.reachable.toList.Nodup) :
    ∃ fresh, (edges.foldl addCall g).reachable.toList = g.reachable.toList ++ fresh ∧
      (edges.foldl addCall g).reachable.toList.Nodup := by
  induction edges generalizing g with
  | nil => exact ⟨[], (List.append_nil _).symm, h⟩
  | cons e edges ih =>
    have hfirst : ∃ fresh, (addCall g e).reachable.toList = g.reachable.toList ++ fresh ∧
        (addCall g e).reachable.toList.Nodup := by
      rw [reachable_addCall]
      split
      · exact ⟨[], (List.append_nil _).symm, h⟩
      · rename_i hnew
        rw [CallGraph.hasMethod_iff] at hnew
        refine ⟨[e.callee], by simp, ?_⟩
        rw [Array.toList_push]
        exact List.Nodup.append h (List.nodup_singleton _)
          (List.disjoint_singleton.mpr (by simpa using hnew))
    obtain ⟨fresh, hfresh, hnodup⟩ := hfirst
    obtain ⟨more, hmore, hnodup'⟩ := ih (addCall g e) hnodup
    refine ⟨fresh ++ more, ?_, hnodup'⟩
    rw [List.foldl_cons, hmore, hfresh, List.append_assoc]

/-! ## 3. The exploration -/

/-- The methods in `done` have been taken from the queue, those in `queue` are still in it. -/
structure Explored (p : Program) (entry : MethodId) (done queue : List MethodId)
    (g : PlainCallGraph) : Prop where
  reachable : g.reachable.toList = done ++ queue
  nodup : g.reachable.toList.Nodup
  inRange : ∀ m ∈ g.reachable, m = entry ∨ m < p.methods.size
  entry : g.hasMethod entry = true
  /-- The edges of methods that are done are there, and no others. -/
  edges : ∀ {site m}, g.hasEdge site m = true ↔
    ∃ n ∈ done, ∃ e ∈ edgesOf p n, e.site = site ∧ e.callee = m
  callees : ∀ {site m}, g.hasEdge site m = true → g.hasMethod m = true

theorem reachable_addEntry_empty (entry : MethodId) :
    (CallGraph.addEntry ({} : PlainCallGraph) entry).reachable = #[entry] := by
  simp [CallGraph.addEntry, CallGraph.addReachable, CallGraph.hasMethod]

theorem hasEdge_addEntry_empty {entry m : MethodId} {site : Site} :
    ¬(CallGraph.addEntry ({} : PlainCallGraph) entry).hasEdge site m = true := by
  simp [CallGraph.addEntry, CallGraph.addReachable, CallGraph.hasMethod, CallGraph.hasEdge]

/-- The graph with which the exploration starts. -/
theorem explored_start (p : Program) (entry : MethodId) :
    Explored p entry [] [entry] (CallGraph.addEntry {} entry) where
  reachable := by rw [reachable_addEntry_empty]; rfl
  nodup := by
    rw [reachable_addEntry_empty]
    exact List.nodup_singleton entry
  inRange m hm := .inl (by simpa [reachable_addEntry_empty] using hm)
  entry := CallGraph.hasMethod_addEntry.mpr (.inr rfl)
  edges {site m} := by
    constructor
    · intro h
      exact absurd h hasEdge_addEntry_empty
    · intro ⟨n, hn, _⟩
      exact absurd hn List.not_mem_nil
  callees h := absurd h hasEdge_addEntry_empty

/-- **One method more is done**: its edges are there, and the methods they reach first are
    queued. -/
theorem Explored.step (hp : p.Coherent) {done queue : List MethodId} {m : MethodId}
    {g : PlainCallGraph} (h : Explored p entry done (m :: queue) g) :
    Explored p entry (done ++ [m])
      (queue ++ ((edgesOf p m).foldl addCall g).reachable.toList.drop g.reachable.toList.length)
      ((edgesOf p m).foldl addCall g) := by
  obtain ⟨fresh, hfresh, hnodup⟩ := reachable_foldl_addCall (edgesOf p m) g h.nodup
  have hedges : ∀ {site callee}, ((edgesOf p m).foldl addCall g).hasEdge site callee = true ↔
      ∃ n ∈ done ++ [m], ∃ e ∈ edgesOf p n, e.site = site ∧ e.callee = callee := by
    intro site callee
    rw [hasEdge_foldl_addCall, h.edges]
    constructor
    · intro hcase
      rcases hcase with ⟨n, hn, he⟩ | he
      · exact ⟨n, List.mem_append_left _ hn, he⟩
      · exact ⟨m, List.mem_append_right _ List.mem_cons_self, he⟩
    · intro ⟨n, hn, he⟩
      rcases List.mem_append.mp hn with hn | hn
      · exact .inl ⟨n, hn, he⟩
      · exact .inr (List.mem_singleton.mp hn ▸ he)
  refine ⟨?_, hnodup, fun n hn => ?_, ?_, hedges, fun {site callee} he => ?_⟩
  · rw [hfresh, List.drop_left, h.reachable]
    simp
  · rcases hasMethod_foldl_addCall.mp (CallGraph.hasMethod_iff.mpr hn) with hold | ⟨e, he, rfl⟩
    · exact h.inRange n (CallGraph.hasMethod_iff.mp hold)
    · obtain ⟨-, i, -, -, hcallee⟩ := mem_edgesOf.mp he
      exact .inr (hp.of_foundFor (.inr (.inr (.inr hcallee)))).1
  · exact hasMethod_foldl_addCall.mpr (.inl h.entry)
  · rcases hasEdge_foldl_addCall.mp he with hold | ⟨e, hmem, -, rfl⟩
    · exact hasMethod_foldl_addCall.mpr (.inl (h.callees hold))
    · exact hasMethod_foldl_addCall.mpr (.inr ⟨e, hmem, rfl⟩)

/-- There are no more reachable methods than the bound allows for. -/
theorem Explored.length_le {done queue : List MethodId} {g : PlainCallGraph}
    (h : Explored p entry done queue g) : (done ++ queue).length ≤ p.methods.size + 1 := by
  have hsubset : g.reachable.toList ⊆ entry :: List.range p.methods.size := by
    intro m hm
    rcases h.inRange m (Array.mem_toList_iff.mp hm) with rfl | hlt
    · exact List.mem_cons_self
    · exact List.mem_cons_of_mem _ (List.mem_range.mpr hlt)
  have hle := (List.subperm_of_subset h.nodup hsubset).length_le
  rw [h.reachable] at hle
  simpa using hle

/-- **The exploration ends with an empty queue.** -/
theorem explored_explore (hp : p.Coherent) (bound : Nat) {done queue : List MethodId}
    {g : PlainCallGraph} (h : Explored p entry done queue g)
    (hbound : p.methods.size + 1 ≤ done.length + bound) :
    ∃ all, Explored p entry all [] (explore p bound queue g) := by
  induction bound generalizing done queue g with
  | zero =>
    have hle := h.length_le
    rw [List.length_append] at hle
    have hempty : queue = [] := List.length_eq_zero_iff.mp (by omega)
    subst hempty
    exact ⟨done, h⟩
  | succ bound ih =>
    cases queue with
    | nil => exact ⟨done, h⟩
    | cons m queue =>
      refine ih (h.step hp) ?_
      rw [List.length_append, List.length_singleton]
      omega

theorem exists_explored (hp : p.Coherent) (entry : MethodId) :
    ∃ all, Explored p entry all [] (callGraph p entry) :=
  explored_explore hp _ (explored_start p entry) (by simp)

/-! ## 4. The finished graph -/

theorem hasMethod_entry (hp : p.Coherent) (entry : MethodId) :
    (callGraph p entry).hasMethod entry = true := by
  obtain ⟨all, h⟩ := exists_explored hp entry
  exact h.entry

/-- Every method that a call in a reachable method may reach is called there. -/
theorem hasEdge_of_target (hp : p.Coherent) {site : Site} {i : Invoke} {m : MethodId}
    (hsite : (callGraph p entry).hasMethod site.method = true) (hi : p.invoke? site = some i)
    (hm : m ∈ targets p i) : (callGraph p entry).hasEdge site m = true := by
  obtain ⟨all, h⟩ := exists_explored hp entry
  have hdone : site.method ∈ all := by
    have hmem := Array.mem_toList_iff.mpr (CallGraph.hasMethod_iff.mp hsite)
    rwa [h.reachable, List.append_nil] at hmem
  exact h.edges.mpr ⟨site.method, hdone, ⟨i.kind, site, m⟩,
    mem_edgesOf.mpr ⟨rfl, i, hi, rfl, hm⟩, rfl, rfl⟩

/-- Edges lead from reachable methods to reachable methods. -/
theorem of_hasEdge (hp : p.Coherent) {site : Site} {m : MethodId}
    (h : (callGraph p entry).hasEdge site m = true) :
    (callGraph p entry).hasMethod site.method = true ∧
      (callGraph p entry).hasMethod m = true := by
  obtain ⟨all, hall⟩ := exists_explored hp entry
  refine ⟨?_, hall.callees h⟩
  obtain ⟨n, hn, e, he, rfl, -⟩ := hall.edges.mp h
  obtain ⟨rfl, -⟩ := mem_edgesOf.mp he
  refine CallGraph.hasMethod_iff.mpr (Array.mem_toList_iff.mp ?_)
  rw [hall.reachable]
  exact List.mem_append_left _ hn

end ClassHierarchy

end ObjectFlow
