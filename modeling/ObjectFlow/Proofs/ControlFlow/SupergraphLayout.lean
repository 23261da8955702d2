/-
  File:      ObjectFlow/Proofs/ControlFlow/SupergraphLayout.lean
  Subject:   THE CONTROL FLOW OF A WHOLE PROGRAM IS COHERENT: methods lie side by side, every edge
             runs between nodes of reached methods, and no statement lies on entry or exit of the
             entry method.
-/
import ObjectFlow.ControlFlow.Supergraph
import ObjectFlow.Proofs.ControlFlow.MethodGraph

namespace ObjectFlow

/-! ## 1. Ranges -/

/-- The first node behind ranges that start at `base`. -/
def layOutEnd (base : Nat) (ranges : List MethodRange) : Nat :=
  ranges.foldl (fun n r => n + r.size) base

theorem le_layOutEnd (base : Nat) (ranges : List MethodRange) : base ≤ layOutEnd base ranges := by
  unfold layOutEnd
  induction ranges generalizing base with
  | nil => exact Nat.le_refl base
  | cons r ranges ih => exact (Nat.le_add_right base r.size).trans (ih _)

/-- A range is that of a method and lies between the first node and the last. -/
theorem of_mem_layOut {p : Program} {ms : List MethodId} {base : Nat} {r : MethodRange}
    (hr : r ∈ layOut p base ms) :
    base ≤ r.base ∧ r.base + r.size ≤ layOutEnd base (layOut p base ms) ∧
      ∃ m ∈ ms, r.flow = p.flowOf m := by
  induction ms generalizing base with
  | nil => cases hr
  | cons m ms ih =>
    rcases List.mem_cons.mp hr with rfl | hr
    · exact ⟨Nat.le_refl base, le_layOutEnd _ _, m, List.mem_cons_self, rfl⟩
    · obtain ⟨hbase, hend, m', hm', hflow⟩ := ih hr
      exact ⟨(Nat.le_add_right _ _).trans hbase, hend, m', List.mem_cons_of_mem m hm', hflow⟩

/-- **Methods lie one behind the other.** -/
theorem layOut_pairwise (p : Program) (ms : List MethodId) (base : Nat) :
    (layOut p base ms).Pairwise fun r r' => r.base + r.size ≤ r'.base := by
  induction ms generalizing base with
  | nil => exact .nil
  | cons m ms ih =>
    exact List.pairwise_cons.mpr ⟨fun r' hr' => (of_mem_layOut hr').1, ih _⟩

/-- A node lies in a range. -/
def MethodRange.Holds (r : MethodRange) (n : Nat) : Prop := r.base ≤ n ∧ n < r.base + r.size

theorem eq_of_holds {ranges : List MethodRange}
    (hranges : ranges.Pairwise fun r r' => r.base + r.size ≤ r'.base) {r r' : MethodRange}
    (hr : r ∈ ranges) (hr' : r' ∈ ranges) {n : Nat} (h : r.Holds n) (h' : r'.Holds n) :
    r = r' := by
  induction hranges with
  | nil => cases hr
  | cons hlt _ ih =>
    obtain ⟨hlow, hhigh⟩ := h
    obtain ⟨hlow', hhigh'⟩ := h'
    rcases List.mem_cons.mp hr with rfl | hmem
    · rcases List.mem_cons.mp hr' with rfl | hmem'
      · rfl
      · have hle := hlt r' hmem'
        omega
    · rcases List.mem_cons.mp hr' with rfl | hmem'
      · have hle := hlt r hmem
        omega
      · exact ih hmem hmem'

theorem mem_of_rangeOf? {ranges : List MethodRange} {m : MethodId} {r : MethodRange}
    (h : rangeOf? ranges m = some r) : r ∈ ranges :=
  List.mem_of_find?_eq_some h

theorem method_of_rangeOf? {ranges : List MethodRange} {m : MethodId} {r : MethodRange}
    (h : rangeOf? ranges m = some r) : r.flow.method = m := by
  have hfound := List.find?_some h
  exact of_decide_eq_true hfound

/-! ## 2. Edges -/

/-- Entry and exit are two nodes of a range. -/
theorem MethodRange.ends_lt {p : Program} {ms : List MethodId} {r : MethodRange}
    (hr : r ∈ layOut p 0 ms) : r.entry < r.base + r.size ∧ r.exit < r.base + r.size ∧
      r.entry ≠ r.exit := by
  obtain ⟨-, -, m, -, hflow⟩ := of_mem_layOut hr
  unfold MethodRange.entry MethodRange.exit MethodRange.size
  rw [hflow]
  simp [Program.flowOf, MethodFlow.ofStmts, MethodFlow.entry, MethodFlow.exit, FlowGraph.ofEdges]

/-- **Edges run between nodes of the laid out methods.** -/
theorem ends_of_mem_nodeEdges {p : Program} (hp : p.JumpsInside) {calls : CallGraph Site MethodId}
    {ms : List MethodId} {r : MethodRange} (hr : r ∈ layOut p 0 ms) {node : Nat}
    (hnode : node < r.size) {e : FlowEdge SuperEdge}
    (he : e ∈ nodeEdges calls (layOut p 0 ms) r node) :
    e.source < layOutEnd 0 (layOut p 0 ms) ∧ e.target < layOutEnd 0 (layOut p 0 ms) := by
  have hwithin : ∀ {r' : MethodRange}, r' ∈ layOut p 0 ms → ∀ {n}, n < r'.base + r'.size →
      n < layOutEnd 0 (layOut p 0 ms) :=
    fun hr' _ hn => Nat.lt_of_lt_of_le hn (of_mem_layOut hr').2.1
  have hout : ∀ e' ∈ r.flow.graph.outEdges node, e'.source = node ∧ e'.target < r.size := by
    obtain ⟨-, -, m, -, hflow⟩ := of_mem_layOut hr
    unfold MethodRange.size at hnode ⊢
    rw [hflow] at hnode ⊢
    exact (hp.coherent m).outOf node hnode
  have hown : ∀ kind : EdgeKind → SuperEdge, e ∈ (r.flow.graph.outEdges node).map (fun e' =>
      ⟨r.base + e'.source, r.base + e'.target, kind e'.kind⟩) →
      e.source < layOutEnd 0 (layOut p 0 ms) ∧ e.target < layOutEnd 0 (layOut p 0 ms) := by
    intro kind he
    obtain ⟨e', he', rfl⟩ := List.mem_map.mp he
    obtain ⟨hsource, htarget⟩ := hout e' he'
    rw [hsource]
    exact ⟨hwithin hr (Nat.add_lt_add_left hnode _), hwithin hr (Nat.add_lt_add_left htarget _)⟩
  unfold nodeEdges at he
  simp only at he
  split at he
  · rcases List.mem_append.mp he with he | he
    · exact hown (fun _ => .callToReturn) he
    · -- around a call: into the callee, and back from its exit
      obtain ⟨callee, -, he⟩ := List.mem_flatMap.mp he
      cases hcallee : rangeOf? (layOut p 0 ms) callee with
      | none =>
        rw [hcallee] at he
        cases he
      | some r' =>
        rw [hcallee] at he
        have hr' := mem_of_rangeOf? hcallee
        obtain ⟨hentry, hexit, -⟩ := MethodRange.ends_lt hr'
        rcases List.mem_cons.mp he with rfl | he
        · exact ⟨hwithin hr (Nat.add_lt_add_left hnode _), hwithin hr' hentry⟩
        · obtain ⟨e', he', rfl⟩ := List.mem_map.mp he
          exact ⟨hwithin hr' hexit, hwithin hr (Nat.add_lt_add_left (hout e' he').2 _)⟩
  · exact hown .normal he

/-! ## 3. Graphs -/

namespace Supergraph

variable {p : Program} {calls : CallGraph Site MethodId} {entry : MethodId} {s : Supergraph}

/-- How the graph of a call graph is built. -/
theorem of_ofCalls? (h : ofCalls? p calls entry = some s) :
    s.entryMethod = entry ∧ s.ranges = layOut p 0 calls.reachable.toList ∧
      s.graph = .ofEdges (layOutEnd 0 s.ranges)
        (s.ranges.flatMap fun r => (List.range r.size).flatMap (nodeEdges calls s.ranges r))
        (fun n => s.methodEntry? entry = some n) (fun n => s.methodExit? entry = some n) := by
  unfold ofCalls? at h
  split at h
  · cases h
    exact ⟨rfl, rfl, rfl⟩
  · cases h

/-- The edges lead between nodes of the graph. -/
theorem ends_of_ofCalls? (hp : p.JumpsInside) (h : ofCalls? p calls entry = some s) :
    ∀ e ∈ s.ranges.flatMap fun r => (List.range r.size).flatMap (nodeEdges calls s.ranges r),
      e.source < layOutEnd 0 s.ranges ∧ e.target < layOutEnd 0 s.ranges := by
  intro e he
  obtain ⟨r, hr, he⟩ := List.mem_flatMap.mp he
  obtain ⟨node, hnode, he⟩ := List.mem_flatMap.mp he
  rw [(of_ofCalls? h).2.1] at hr he ⊢
  exact ends_of_mem_nodeEdges hp hr (List.mem_range.mp hnode) he

theorem coherent_of_ofCalls? (hp : p.JumpsInside) (h : ofCalls? p calls entry = some s) :
    s.graph.Coherent := by
  rw [(of_ofCalls? h).2.2]
  exact FlowGraph.coherent_ofEdges _ _ (ends_of_ofCalls? hp h)

theorem isEntry_iff (h : ofCalls? p calls entry = some s) {n : Nat} :
    s.graph.isEntry n = true ↔ s.methodEntry? entry = some n := by
  rw [(of_ofCalls? h).2.2]
  exact decide_eq_true_iff

theorem isExit_iff (h : ofCalls? p calls entry = some s) {n : Nat} :
    s.graph.isExit n = true ↔ s.methodExit? entry = some n := by
  rw [(of_ofCalls? h).2.2]
  exact decide_eq_true_iff

/-- A statement is a node of the graph. -/
theorem lt_of_siteOf? (h : ofCalls? p calls entry = some s) {n : Nat} {site : Site}
    (hsite : s.siteOf? n = some site) : n < s.graph.nodeCount := by
  obtain ⟨-, hranges, hgraph⟩ := of_ofCalls? h
  obtain ⟨r, hr, -⟩ := Option.bind_eq_some_iff.mp hsite
  have hmem : r ∈ s.ranges := List.mem_of_find?_eq_some hr
  have hholds := List.find?_some hr
  simp only [Bool.and_eq_true, decide_eq_true_eq] at hholds
  have hend : r.base + r.size ≤ layOutEnd 0 s.ranges := by
    rw [hranges] at hmem ⊢
    exact (of_mem_layOut hmem).2.1
  rw [hgraph]
  exact Nat.lt_of_lt_of_le hholds.2 hend

/-- Entry and exit of a method are no statements. -/
theorem siteOf?_eq_none (h : ofCalls? p calls entry = some s) {m : MethodId} {n : Nat}
    (hn : s.methodEntry? m = some n ∨ s.methodExit? m = some n) : s.siteOf? n = none := by
  obtain ⟨r, hr, hbound⟩ : ∃ r ∈ s.ranges, n = r.entry ∨ n = r.exit := by
    rcases hn with hn | hn <;> obtain ⟨r, hr, rfl⟩ := Option.map_eq_some_iff.mp hn
    · exact ⟨r, mem_of_rangeOf? hr, .inl rfl⟩
    · exact ⟨r, mem_of_rangeOf? hr, .inr rfl⟩
  have hranges := (of_ofCalls? h).2.1
  have hends := MethodRange.ends_lt (hranges ▸ hr)
  have hholds : r.Holds n := by
    rcases hbound with rfl | rfl
    · exact ⟨Nat.le_add_right _ _, hends.1⟩
    · exact ⟨Nat.le_add_right _ _, hends.2.1⟩
  refine Option.bind_eq_none_iff.mpr fun r' hr' => ?_
  -- ranges do not overlap, so the node is found in the range it bounds
  have hholds' : r'.Holds n := by
    have hfound := List.find?_some hr'
    simp only [Bool.and_eq_true, decide_eq_true_eq] at hfound
    exact hfound
  have hsame : r' = r := by
    refine eq_of_holds ?_ (List.mem_of_find?_eq_some hr') hr hholds' hholds
    rw [hranges]
    exact layOut_pairwise p _ 0
  subst hsame
  have hindex : r'.flow.indexOf? (n - r'.base) = none := by
    refine if_pos ?_
    rcases hbound with rfl | rfl
    · exact .inl (Nat.add_sub_cancel_left _ _)
    · exact .inr (Nat.add_sub_cancel_left _ _)
  rw [hindex]
  rfl

/-- **Statements are inner nodes.** -/
theorem isInner_of_siteOf? (h : ofCalls? p calls entry = some s) {n : Nat} {site : Site}
    (hsite : s.siteOf? n = some site) : DataflowProblem.isInner s.graph n = true := by
  have hnot : ∀ {b : Bool}, (b = true → s.siteOf? n = none) → b = false := by
    refine fun hb => Bool.eq_false_iff.mpr fun htrue => ?_
    rw [hb htrue] at hsite
    cases hsite
  unfold DataflowProblem.isInner
  rw [hnot fun hentry => siteOf?_eq_none h (.inl ((isEntry_iff h).mp hentry)),
    hnot fun hexit => siteOf?_eq_none h (.inr ((isExit_iff h).mp hexit))]
  rfl

end Supergraph

end ObjectFlow
