/-
  File:      ObjectFlow/Proofs/ControlFlow/SupergraphEdges.lean
  Subject:   THE EDGES OF A WHOLE PROGRAM are those of its methods and those of its calls, each once,
             and every node lists the edges that begin and end there.

  * `FlowGraph.edges`, `edges_ofEdges`: the edges a graph lists at its nodes;
  * `Supergraph.ownEdges`, `Supergraph.callEdges`: the edges within a method and around a call;
  * `edges_perm`: together they are all edges;
  * `Supergraph.Exact`, `supergraph_exact`: the graph of every call graph that is built.
-/
import Mathlib.Data.List.Perm.Basic
import ObjectFlow.Proofs.Calls.Confinement
import ObjectFlow.Proofs.ControlFlow.SupergraphNodes

namespace ObjectFlow

/-! ## 1. Edges grouped by one of their ends -/

/-- Grouping a list by keys that are listed once keeps what has one of these keys. -/
theorem flatMap_filter_perm {α κ : Type} [DecidableEq κ] (key : α → κ) {ks : List κ}
    (hks : ks.Nodup) (l : List α) :
    (ks.flatMap fun k => l.filter (key · = k)).Perm (l.filter (key · ∈ ks)) := by
  induction ks with
  | nil => simp
  | cons k ks ih =>
    obtain ⟨hnew, hnodup⟩ := List.nodup_cons.mp hks
    -- what has one of the keys either has the first or one of the others
    have hfirst : (l.filter (key · ∈ k :: ks)).filter (key · = k) = l.filter (key · = k) := by
      rw [List.filter_filter]
      refine List.filter_congr fun a _ => ?_
      by_cases ha : key a = k <;> simp [ha]
    have hothers : (l.filter (key · ∈ k :: ks)).filter (fun a => !decide (key a = k)) =
        l.filter (key · ∈ ks) := by
      rw [List.filter_filter]
      refine List.filter_congr fun a _ => ?_
      by_cases ha : key a = k
      · simp [ha, hnew]
      · simp [ha]
    have hsplit := List.filter_append_perm (fun a => decide (key a = k))
      (l.filter (key · ∈ k :: ks))
    rw [hfirst, hothers] at hsplit
    rw [List.flatMap_cons]
    exact ((ih hnodup).append_left _).trans hsplit

/-- Grouping a list by all its keys keeps it. -/
theorem flatMap_filter_perm_self {α κ : Type} [DecidableEq κ] (key : α → κ) {ks : List κ}
    (hks : ks.Nodup) {l : List α} (h : ∀ a ∈ l, key a ∈ ks) :
    (ks.flatMap fun k => l.filter (key · = k)).Perm l := by
  have hall : l.filter (key · ∈ ks) = l :=
    List.filter_eq_self.mpr fun a ha => decide_eq_true (h a ha)
  exact (flatMap_filter_perm key hks l).trans (.of_eq hall)

namespace FlowGraph

variable {κ : Type}

/-- The edges that a graph lists at their sources. -/
def edges (g : FlowGraph κ) : List (FlowEdge κ) := g.nodes.flatMap g.outEdges

theorem getD_groupBy {n i : Nat} (key : FlowEdge κ → Nat) (edges : List (FlowEdge κ)) (hi : i < n) :
    (groupBy n key edges).getD i [] = edges.filter (key · = i) := by
  unfold groupBy
  rw [Array.getD_eq_getD_getElem?, Array.getElem?_map,
    Array.getElem?_eq_getElem (by simpa using hi)]
  simp

/-- **A graph lists at its nodes the edges it was made of**, each as often at its source as at its
    target. -/
theorem edges_ofEdges {n : Nat} {l : List (FlowEdge κ)} (isEntry isExit : Nat → Bool)
    (h : ∀ e ∈ l, e.source < n ∧ e.target < n) :
    (ofEdges n l isEntry isExit).edges.Perm l ∧
      ((ofEdges n l isEntry isExit).nodes.flatMap (ofEdges n l isEntry isExit).inEdges).Perm l := by
  have hgroup : ∀ key : FlowEdge κ → Nat, (∀ e ∈ l, key e < n) →
      ((List.range n).flatMap fun i => (groupBy n key l).getD i []).Perm l := by
    intro key hkey
    have hsame : ((List.range n).flatMap fun i => (groupBy n key l).getD i []) =
        (List.range n).flatMap fun i => l.filter (key · = i) :=
      List.flatMap_congr fun i hi => getD_groupBy key l (List.mem_range.mp hi)
    rw [hsame]
    exact flatMap_filter_perm_self key List.nodup_range fun e he => List.mem_range.mpr (hkey e he)
  exact ⟨hgroup FlowEdge.source fun e he => (h e he).1,
    hgroup FlowEdge.target fun e he => (h e he).2⟩

end FlowGraph

/-! ## 2. Edges within methods and around calls -/

namespace Supergraph

/-- The first node of a method. -/
def baseOf (s : Supergraph) (m : MethodId) : Nat := (s.methodEntry? m).getD 0

/-- An edge of a method's own graph as an edge of the program: it leads around a call, and is of
    its kind elsewhere. -/
def ownEdge (s : Supergraph) (p : Program) (m : MethodId) (e : FlowEdge EdgeKind) :
    FlowEdge SuperEdge where
  source := s.baseOf m + e.source
  target := s.baseOf m + e.target
  kind := if (((p.flowOf m).stmtAt? e.source).bind (·.invoke?)).isSome then .callToReturn
    else .normal e.kind

/-- **The edges within a method.** -/
def ownEdges (s : Supergraph) (p : Program) (m : MethodId) : List (FlowEdge SuperEdge) :=
  (p.flowOf m).graph.edges.map (s.ownEdge p m)

/-- **The edges of a call**: one from the call into the method it reaches, and one from the exit of
    that method to each node behind the call. -/
def callEdges (s : Supergraph) (p : Program) (c : CallEdge Site MethodId) :
    List (FlowEdge SuperEdge) :=
  let flow := p.flowOf c.site.method
  let callee := p.flowOf c.callee
  let node := flow.nodeOf c.site.index
  { source := s.baseOf c.site.method + node
    target := s.baseOf c.callee + callee.entry
    kind := .call c.site c.callee } ::
  (flow.graph.successors node).map fun next =>
    { source := s.baseOf c.callee + callee.exit
      target := s.baseOf c.site.method + next
      kind := .ret c.site c.callee }

end Supergraph

/-! ## 3. Calls by node -/

/-- The call at a node of a method. -/
def MethodRange.callAt? (r : MethodRange) (node : Nat) : Option Site :=
  match r.flow.indexOf? node, (r.flow.stmtAt? node).bind (·.invoke?) with
  | some i, some _ => some ⟨r.flow.method, i⟩
  | _, _ => none

theorem getElem?_stmts_flowOf (p : Program) (m : MethodId) (i : Nat) :
    (p.flowOf m).stmts[i]? = p.stmt? ⟨m, i⟩ := by
  simp [Program.flowOf, MethodFlow.ofStmts, MethodDecl.stmts, Program.stmt?]

/-- The call at a node is that of the statement one before it. -/
theorem callAt?_eq_some_iff {p : Program} {ms : List MethodId} {base node : Nat} {r : MethodRange}
    (hr : r ∈ layOut p base ms) {site : Site} : r.callAt? node = some site ↔
      site.method = r.flow.method ∧ node = site.index + 1 ∧
        ∃ i, p.stmt? site = some (.call i) := by
  have hflow := flow_of_mem_layOut hr
  have hstmt : ∀ {i}, r.flow.indexOf? node = some i →
      (r.flow.stmtAt? node).bind (·.invoke?) = p.invoke? ⟨r.flow.method, i⟩ := by
    intro i hi
    unfold MethodFlow.stmtAt? Program.invoke?
    rw [hi, Option.bind_some, hflow, getElem?_stmts_flowOf]
    rfl
  unfold MethodRange.callAt?
  constructor
  · intro h
    split at h
    · rename_i i inv hi hinv
      cases h
      rw [hstmt hi] at hinv
      exact ⟨rfl, (MethodFlow.indexOf?_eq_some_iff.mp hi).1, inv,
        Program.invoke?_eq_some_iff.mp hinv⟩
    · cases h
  · intro ⟨hmethod, hnode, inv, hcall⟩
    obtain ⟨m, i⟩ := site
    cases hmethod
    have hnode : node = i + 1 := hnode
    have hlt : i < r.flow.stmts.size := by
      have hget := getElem?_stmts_flowOf p r.flow.method i
      rw [hcall, ← hflow] at hget
      exact (Array.getElem?_eq_some_iff.mp hget).1
    have hi : r.flow.indexOf? node = some i :=
      MethodFlow.indexOf?_eq_some_iff.mpr ⟨hnode, Nat.ne_of_lt hlt⟩
    rw [hi, hstmt hi, Program.invoke?_eq_some_iff.mpr hcall]

/-- The calls of all methods, in the order of their nodes. -/
def callSites (ranges : List MethodRange) : List Site :=
  ranges.flatMap fun r => (List.range r.size).flatMap fun node => (r.callAt? node).toList

theorem mem_callSites {p : Program} {ms : List MethodId} {site : Site} (hm : site.method ∈ ms)
    (hcall : ∃ i, p.stmt? site = some (.call i)) : site ∈ callSites (layOut p 0 ms) := by
  obtain ⟨r, hr⟩ : ∃ r, rangeOf? (layOut p 0 ms) site.method = some r := exists_rangeOf? hm
  have hmem := mem_of_rangeOf? hr
  have hmethod := method_of_rangeOf? hr
  have hlt : site.index < r.flow.stmts.size := by
    obtain ⟨i, hi⟩ := hcall
    have hget := getElem?_stmts_flowOf p r.flow.method site.index
    rw [hmethod, hi, ← hmethod, ← flow_of_mem_layOut hmem] at hget
    exact (Array.getElem?_eq_some_iff.mp hget).1
  have hsize := size_of_mem_layOut hmem
  refine List.mem_flatMap.mpr ⟨r, hmem, List.mem_flatMap.mpr
    ⟨site.index + 1, List.mem_range.mpr (by omega), Option.mem_toList.mpr ?_⟩⟩
  exact (callAt?_eq_some_iff hmem).mpr ⟨hmethod.symm, rfl, hcall⟩

/-- No call is found at two nodes. -/
theorem nodup_callSites {p : Program} {ms : List MethodId} (h : ms.Nodup) :
    (callSites (layOut p 0 ms)).Nodup := by
  have hdistinct : (layOut p 0 ms).Pairwise fun r r' => r.flow.method ≠ r'.flow.method := by
    refine List.pairwise_map.mp (?_ : ((layOut p 0 ms).map (·.flow.method)).Nodup)
    rwa [methods_layOut]
  unfold callSites
  refine List.nodup_flatMap.mpr ⟨fun r hr => List.nodup_flatMap.mpr ⟨fun node _ => ?_, ?_⟩, ?_⟩
  · cases r.callAt? node <;> simp
  · refine List.nodup_range.imp fun {n n'} hne => fun site hn hn' => hne ?_
    have hnode := ((callAt?_eq_some_iff hr).mp (Option.mem_toList.mp hn)).2.1
    have hnode' := ((callAt?_eq_some_iff hr).mp (Option.mem_toList.mp hn')).2.1
    rw [hnode, hnode']
  · refine hdistinct.imp_of_mem fun {r r'} hr hr' hne => fun site hn hn' => hne ?_
    obtain ⟨n, -, hn⟩ := List.mem_flatMap.mp hn
    obtain ⟨n', -, hn'⟩ := List.mem_flatMap.mp hn'
    have hmethod := ((callAt?_eq_some_iff hr).mp (Option.mem_toList.mp hn)).1
    have hmethod' := ((callAt?_eq_some_iff hr').mp (Option.mem_toList.mp hn')).1
    rw [← hmethod, hmethod']

/-! ## 4. All edges -/

namespace Supergraph

variable {p : Program} {calls : PlainCallGraph} {entry : MethodId} {s : Supergraph}
  {r : MethodRange}

theorem baseOf_eq (hnodup : calls.reachable.toList.Nodup)
    (h : ofCalls? p calls entry = some s) (hr : r ∈ s.ranges) :
    s.baseOf r.flow.method = r.base := by
  unfold baseOf methodEntry?
  rw [(mem_rangeOf?_iff hnodup h).mpr ⟨hr, rfl⟩]
  rfl

/-- Every callee has a place in the graph. -/
theorem exists_rangeOf?_callee (hcalls : calls.Confined p) (h : ofCalls? p calls entry = some s)
    {c : CallEdge Site MethodId} (hc : c ∈ calls.edges) :
    ∃ r, rangeOf? s.ranges c.callee = some r := by
  rw [(of_ofCalls? h).2.1]
  exact exists_rangeOf? (Array.mem_toList_iff.mpr (hcalls.callees c hc))

/-- The edges of the calls at a site, where all callees have a place. -/
theorem flatMap_calleesOf (hcalls : calls.Confined p) (h : ofCalls? p calls entry = some s)
    (hr : r ∈ s.ranges) {i : Nat} :
    ((calls.calleesOf ⟨r.flow.method, i⟩).flatMap fun callee =>
      match rangeOf? s.ranges callee with
      | none => []
      | some callee' =>
        ({ source := r.base + (i + 1), target := callee'.entry
           kind := SuperEdge.call ⟨r.flow.method, i⟩ callee } : FlowEdge SuperEdge) ::
          (r.flow.graph.outEdges (i + 1)).map fun e =>
            { source := callee'.exit, target := r.base + e.target
              kind := SuperEdge.ret ⟨r.flow.method, i⟩ callee }) =
      (calls.edges.toList.filter (·.site = ⟨r.flow.method, i⟩)).flatMap (s.callEdges p) := by
  unfold CallGraph.calleesOf
  rw [List.flatMap_map]
  refine List.flatMap_congr fun c hc => ?_
  obtain ⟨hmem, hsite⟩ := List.mem_filter.mp hc
  obtain ⟨r', hr'⟩ := exists_rangeOf?_callee hcalls h (Array.mem_toList_iff.mp hmem)
  obtain ⟨hmem', hmethod⟩ := (mem_rangeOf?_iff hcalls.once.reachable h).mp hr'
  have hranges := (of_ofCalls? h).2.1
  have hflow := flow_of_mem_layOut (hranges ▸ hr)
  have hflow' := flow_of_mem_layOut (hranges ▸ hmem')
  have hbase := baseOf_eq hcalls.once.reachable h hr
  have hbase' := baseOf_eq hcalls.once.reachable h hmem'
  rw [hmethod] at hflow' hbase'
  unfold callEdges FlowGraph.successors
  rw [hr', of_decide_eq_true hsite, hbase, hbase', ← hflow, ← hflow']
  simp only [List.map_map]
  rfl

/-- **The edges out of a node of a method** are its own ones, and those of the calls there. -/
theorem nodeEdges_eq (hp : p.JumpsInside) (hcalls : calls.Confined p)
    (h : ofCalls? p calls entry = some s) (hr : r ∈ s.ranges) {node : Nat}
    (hnode : node < r.size) : nodeEdges calls s.ranges r node =
      (r.flow.graph.outEdges node).map (s.ownEdge p r.flow.method) ++
        (r.callAt? node).toList.flatMap fun site =>
          (calls.edges.toList.filter (·.site = site)).flatMap (s.callEdges p) := by
  have hranges := (of_ofCalls? h).2.1
  have hmem := hranges ▸ hr
  have hflow := flow_of_mem_layOut hmem
  have hbase := baseOf_eq hcalls.once.reachable h hr
  have hout : ∀ e ∈ r.flow.graph.outEdges node, e.source = node := by
    rw [hflow]
    unfold MethodRange.size at hnode
    rw [hflow] at hnode
    exact fun e he => ((hp.coherent r.flow.method).outOf node hnode e he).1
  have hown : ∀ kind : EdgeKind → SuperEdge,
      (∀ k, kind k = if ((r.flow.stmtAt? node).bind (·.invoke?)).isSome then .callToReturn
        else .normal k) →
      (r.flow.graph.outEdges node).map (fun e =>
        { source := r.base + e.source, target := r.base + e.target, kind := kind e.kind }) =
      (r.flow.graph.outEdges node).map (s.ownEdge p r.flow.method) := by
    intro kind hkind
    refine List.map_congr_left fun e he => ?_
    unfold ownEdge
    rw [hbase, hout e he, ← hflow, hkind]
  unfold nodeEdges MethodRange.callAt?
  simp only
  cases hcall : (r.flow.stmtAt? node).bind (·.invoke?) with
  | none =>
    rw [← hown .normal fun k => by rw [hcall]; rfl]
    cases r.flow.indexOf? node <;> exact (List.append_nil _).symm
  | some inv =>
    rw [← hown (fun _ => .callToReturn) fun k => by rw [hcall]; rfl]
    cases hindex : r.flow.indexOf? node with
    | none =>
      unfold MethodFlow.stmtAt? at hcall
      rw [hindex] at hcall
      cases hcall
    | some i =>
      obtain ⟨rfl, -⟩ := MethodFlow.indexOf?_eq_some_iff.mp hindex
      refine congrArg₂ (· ++ ·) rfl ((flatMap_calleesOf hcalls h hr).trans ?_)
      exact (List.append_nil _).symm

/-- The edges of the methods' own graphs, method by method. -/
theorem flatMap_ownEdge (h : ofCalls? p calls entry = some s) :
    (s.ranges.flatMap fun r => (List.range r.size).flatMap fun node =>
        (r.flow.graph.outEdges node).map (s.ownEdge p r.flow.method)) =
      calls.reachable.toList.flatMap (s.ownEdges p) := by
  have hranges := (of_ofCalls? h).2.1
  have hmethods : s.ranges.map (·.flow.method) = calls.reachable.toList := by
    rw [hranges, methods_layOut]
  rw [← hmethods, List.flatMap_map]
  refine List.flatMap_congr fun r hr => ?_
  have hflow := flow_of_mem_layOut (hranges ▸ hr)
  unfold ownEdges FlowGraph.edges FlowGraph.nodes MethodRange.size
  rw [List.map_flatMap, ← hflow]

/-- The edges of the calls, call site by call site. -/
theorem flatMap_callEdges (hcalls : calls.Confined p) (h : ofCalls? p calls entry = some s) :
    (s.ranges.flatMap fun r => (List.range r.size).flatMap fun node =>
        (r.callAt? node).toList.flatMap fun site =>
          (calls.edges.toList.filter (·.site = site)).flatMap (s.callEdges p)).Perm
      (calls.edges.toList.flatMap (s.callEdges p)) := by
  have hranges := (of_ofCalls? h).2.1
  have hsites : ((callSites s.ranges).flatMap fun site =>
      calls.edges.toList.filter (·.site = site)).Perm calls.edges.toList := by
    rw [hranges]
    refine flatMap_filter_perm_self CallEdge.site (nodup_callSites hcalls.once.reachable)
      fun c hc => ?_
    obtain ⟨hmethod, hstmt⟩ := hcalls.sites c (Array.mem_toList_iff.mp hc)
    exact mem_callSites (Array.mem_toList_iff.mpr hmethod) hstmt
  have hgrouped := hsites.flatMap_right (s.callEdges p)
  unfold callSites at hgrouped
  simp only [List.flatMap_assoc] at hgrouped
  exact hgrouped

/-- **All edges are those within the reachable methods and those of the call edges.** -/
theorem edges_perm (hp : p.JumpsInside) (hcalls : calls.Confined p)
    (h : ofCalls? p calls entry = some s) :
    (s.ranges.flatMap fun r => (List.range r.size).flatMap (nodeEdges calls s.ranges r)).Perm
      (calls.reachable.toList.flatMap (s.ownEdges p) ++
        calls.edges.toList.flatMap (s.callEdges p)) := by
  have hnodes : (s.ranges.flatMap fun r =>
        (List.range r.size).flatMap (nodeEdges calls s.ranges r)) =
      s.ranges.flatMap fun r => (List.range r.size).flatMap fun node =>
        (r.flow.graph.outEdges node).map (s.ownEdge p r.flow.method) ++
          (r.callAt? node).toList.flatMap fun site =>
            (calls.edges.toList.filter (·.site = site)).flatMap (s.callEdges p) :=
    List.flatMap_congr fun r hr => List.flatMap_congr fun node hnode =>
      nodeEdges_eq hp hcalls h hr (List.mem_range.mp hnode)
  rw [hnodes, ← flatMap_ownEdge h]
  refine (List.Perm.flatMap_left _ fun r _ => (List.flatMap_append_perm _ _ _).symm).trans ?_
  refine (List.flatMap_append_perm _ _ _).symm.trans ?_
  exact (flatMap_callEdges hcalls h).append_left _

/-! ## 5. Exact graphs -/

/-- **The graph of a call graph is exact**: methods fill the nodes one behind the other in the order
    they were found, statements and their nodes determine each other, both ends of an edge list
    it, and the edges are those within the reachable methods and those of the call edges. -/
structure Exact (s : Supergraph) (p : Program) (calls : PlainCallGraph) : Prop where
  flows : s.ranges.map (·.flow) = calls.reachable.toList.map p.flowOf
  sizes : ∀ r ∈ s.ranges, r.size = r.flow.stmts.size + 2
  consecutive : ∀ {i r}, s.ranges[i]? = some r → r.base = ((s.ranges.take i).map (·.size)).sum
  count : s.graph.nodeCount = (s.ranges.map (·.size)).sum
  located : ∀ n < s.graph.nodeCount, ∃! r, r ∈ s.ranges ∧ r.Holds n
  nodes : ∀ {site n}, s.nodeOf? site = some n ↔ s.siteOf? n = some site
  /-- Every reachable method has its entry, its exit and its statements in the graph. -/
  places : ∀ m ∈ calls.reachable, s.methodEntry? m = some (s.baseOf m) ∧
    s.methodExit? m = some (s.baseOf m + (p.flowOf m).exit) ∧
    ∀ i < (p.flowOf m).stmts.size, s.nodeOf? ⟨m, i⟩ = some (s.baseOf m + (p.flowOf m).nodeOf i)
  coherent : s.graph.Coherent
  bothEnds : (s.graph.nodes.flatMap s.graph.inEdges).Perm s.graph.edges
  edges : s.graph.edges.Perm
    (calls.reachable.toList.flatMap (s.ownEdges p) ++ calls.edges.toList.flatMap (s.callEdges p))

theorem exists_unique_range (h : ofCalls? p calls entry = some s) {n : Nat}
    (hn : n < s.graph.nodeCount) : ∃! r, r ∈ s.ranges ∧ r.Holds n := by
  obtain ⟨-, hranges, hgraph⟩ := of_ofCalls? h
  rw [hgraph, hranges] at hn
  obtain ⟨r, hr, hholds⟩ := exists_holds (Nat.zero_le n) hn
  rw [hranges]
  exact ⟨r, ⟨hr, hholds⟩, fun r' ⟨hr', hholds'⟩ =>
    eq_of_holds (layOut_pairwise p _ 0) hr' hr hholds' hholds⟩

theorem places_of_mem_reachable (hnodup : calls.reachable.toList.Nodup)
    (h : ofCalls? p calls entry = some s) {m : MethodId} (hm : m ∈ calls.reachable) :
    s.methodEntry? m = some (s.baseOf m) ∧
      s.methodExit? m = some (s.baseOf m + (p.flowOf m).exit) ∧
      ∀ i < (p.flowOf m).stmts.size,
        s.nodeOf? ⟨m, i⟩ = some (s.baseOf m + (p.flowOf m).nodeOf i) := by
  have hranges := (of_ofCalls? h).2.1
  obtain ⟨r, hr⟩ : ∃ r, rangeOf? s.ranges m = some r := by
    rw [hranges]
    exact exists_rangeOf? (Array.mem_toList_iff.mpr hm)
  obtain ⟨hmem, rfl⟩ := (mem_rangeOf?_iff hnodup h).mp hr
  have hflow := flow_of_mem_layOut (hranges ▸ hmem)
  rw [baseOf_eq hnodup h hmem, ← hflow]
  unfold methodEntry? methodExit? nodeOf?
  simp only [hr]
  exact ⟨rfl, rfl, fun i hi => if_pos hi⟩

theorem exact_of_ofCalls? (hp : p.JumpsInside) (hcalls : calls.Confined p)
    (h : ofCalls? p calls entry = some s) : s.Exact p calls := by
  obtain ⟨-, hranges, hgraph⟩ := of_ofCalls? h
  have hlisted := FlowGraph.edges_ofEdges (fun n => s.methodEntry? entry = some n)
    (fun n => s.methodExit? entry = some n) (ends_of_ofCalls? hp h)
  rw [← hgraph] at hlisted
  exact {
    flows := by rw [hranges, flows_layOut]
    sizes := fun r hr => size_of_mem_layOut (hranges ▸ hr)
    consecutive := fun {i r} hi => by
      rw [hranges] at hi ⊢
      exact (base_layOut hi).trans (Nat.zero_add _)
    count := by
      rw [hgraph]
      exact (layOutEnd_eq 0 s.ranges).trans (Nat.zero_add _)
    located := fun n hn => exists_unique_range h hn
    nodes := nodeOf?_eq_some_iff hcalls.once.reachable h
    places := fun m hm => places_of_mem_reachable hcalls.once.reachable h hm
    coherent := coherent_of_ofCalls? hp h
    bothEnds := hlisted.2.trans hlisted.1.symm
    edges := hlisted.1.trans (edges_perm hp hcalls h) }

end Supergraph

/-- **The graph of every call graph that is built is exact**: the call graph is confined, so for
    each reachable entry method the graph of the whole program exists, misses no callee, and has
    exactly the nodes and edges that the methods and calls give. -/
theorem supergraph_exact {source : String} {p : Program} (hp : Program.ofSource source = .ok p)
    {start : MethodId} {calls : PlainCallGraph} (hcalls : Built p start calls) :
    calls.Confined p ∧ ∀ entry ∈ calls.reachable, ∃ s,
      Supergraph.ofCalls? p calls entry = some s ∧ s.entryMethod = entry ∧ s.Exact p calls := by
  have hconfined := confined_of_built (Program.filled_of_ofSource hp) hcalls
  refine ⟨hconfined, fun entry hentry => ?_⟩
  have hsome : ∃ s, Supergraph.ofCalls? p calls entry = some s := by
    unfold Supergraph.ofCalls?
    rw [if_pos (CallGraph.hasMethod_iff.mpr hentry)]
    exact ⟨_, rfl⟩
  obtain ⟨s, hs⟩ := hsome
  exact ⟨s, hs, (Supergraph.of_ofCalls? hs).1,
    Supergraph.exact_of_ofCalls? (Program.jumpsInside_of_ofSource hp) hconfined hs⟩

/-- A method that calls back the one that called it with its last statement, and calls one that
    has no statement. -/
def callingBack : String :=
  "class Main \x7b
    static method void main() \x7b
      staticinvoke <Main: void turn()>();
      return;
    \x7d
    static method void turn() \x7b
      staticinvoke <Main: void rest()>();
      staticinvoke <Main: void main()>();
    \x7d
    static method void rest() \x7b \x7d
  \x7d"

set_option maxRecDepth 4000 in
/-- Seven edges lead within the three methods, and two more belong to each of the three calls. -/
theorem supergraph_exact_calling_back :
    ∃ p r s, Program.ofSource callingBack = .ok p ∧
      Plain.analyzeWithin p {} Plugin.none () 30 0 = some (r, ()) ∧
      Supergraph.ofCalls? p r.calls 0 = some s ∧ r.calls.edges.size = 3 ∧
      s.graph.nodeCount = 10 ∧ s.graph.edges.length = 13 ∧ s.Exact p r.calls := by
  obtain ⟨p, hp, hrun⟩ := Program.exists_of_any_ofSource callingBack (fun p =>
      (Plain.analyzeWithin p {} Plugin.none () 30 0).any fun points : PlainResult × Unit =>
        decide (0 ∈ points.1.calls.reachable) && decide (points.1.calls.edges.size = 3) &&
          (Supergraph.ofCalls? p points.1.calls 0).all fun s : Supergraph =>
            decide (s.graph.nodeCount = 10 ∧ s.graph.edges.length = 13)) (by
    have htext : callingBack.toList = _ := String.toList_ofList
    rw [Program.ofSource, lex_eq htext]
    decide +kernel)
  obtain ⟨⟨r, _⟩, hr, htest⟩ := (Option.any_eq_true _ _).mp hrun
  simp only [Bool.and_eq_true, decide_eq_true_eq] at htest
  obtain ⟨⟨hentry, hedges⟩, hcounts⟩ := htest
  obtain ⟨-, hexact⟩ := supergraph_exact hp (.plain hr)
  obtain ⟨s, hs, -, hs'⟩ := hexact 0 hentry
  rw [hs, Option.all_some, decide_eq_true_eq] at hcounts
  exact ⟨p, r, s, hp, hr, hs, hedges, hcounts.1, hcounts.2, hs'⟩

end ObjectFlow
