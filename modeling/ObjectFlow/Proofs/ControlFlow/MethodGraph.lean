/-
  File:      ObjectFlow/Proofs/ControlFlow/MethodGraph.lean
  Subject:   THE CONTROL FLOW GRAPH OF A METHOD IS COHERENT: edges run between its nodes and are
             listed at both ends, nothing flows into the entry and nothing out of the exit.

  Only the jumps of a body could leave the graph, so all of this rests on their staying inside.
-/
import ObjectFlow.ControlFlow.Method
import ObjectFlow.Proofs.Dataflow.Equations
import ObjectFlow.Proofs.Program.Jumps

namespace ObjectFlow

/-! ## 1. Edges of a statement -/

theorem source_of_mem_stmtEdges {exit node : Nat} {stmt : Stmt} {e : FlowEdge EdgeKind}
    (he : e ∈ stmtEdges exit node stmt) : e.source = node := by
  cases stmt with
  | branch left op right target =>
    rcases List.mem_pair.mp he with rfl | rfl <;> rfl
  | switch on cases otherwise =>
    rcases List.mem_append.mp he with he | he
    · obtain ⟨c, -, rfl⟩ := List.mem_map.mp he
      rfl
    · rw [List.mem_singleton.mp he]
  | _ => rw [List.mem_singleton.mp he]

/-- Flow goes on to the exit, to the next node or to a jump target. -/
theorem target_of_mem_stmtEdges {exit node : Nat} {stmt : Stmt} {e : FlowEdge EdgeKind}
    (he : e ∈ stmtEdges exit node stmt) :
    e.target = exit ∨ e.target = node + 1 ∨ ∃ t ∈ stmt.targets, e.target = t + 1 := by
  cases stmt with
  | jump target =>
    rw [List.mem_singleton.mp he]
    exact .inr (.inr ⟨target, List.mem_singleton_self _, rfl⟩)
  | branch left op right target =>
    rcases List.mem_pair.mp he with rfl | rfl
    · exact .inr (.inr ⟨target, List.mem_singleton_self _, rfl⟩)
    · exact .inr (.inl rfl)
  | switch on cases otherwise =>
    refine .inr (.inr ?_)
    rcases List.mem_append.mp he with he | he
    · obtain ⟨c, hc, rfl⟩ := List.mem_map.mp he
      exact ⟨c.2, List.mem_append_left _ (List.mem_map_of_mem hc), rfl⟩
    · rw [List.mem_singleton.mp he]
      exact ⟨otherwise, List.mem_append_right _ (List.mem_singleton_self _), rfl⟩
  | ret value => exact .inl (by rw [List.mem_singleton.mp he])
  | _ => exact .inr (.inl (by rw [List.mem_singleton.mp he]))

/-- The edges of a body are the one out of the entry and those of its statements. -/
theorem mem_bodyEdges {stmts : List Stmt} {e : FlowEdge EdgeKind} :
    e ∈ bodyEdges stmts ↔ e = ⟨0, 1, .entry⟩ ∨
      ∃ i stmt, stmts[i]? = some stmt ∧ e ∈ stmtEdges (stmts.length + 1) (i + 1) stmt := by
  unfold bodyEdges
  rw [List.mem_cons, List.mem_flatMap]
  refine or_congr Iff.rfl ⟨fun ⟨⟨stmt, i⟩, hmem, he⟩ => ?_, fun ⟨i, stmt, hi, he⟩ => ?_⟩
  · exact ⟨i, stmt, List.mem_zipIdx_iff_getElem?.mp hmem, he⟩
  · exact ⟨(stmt, i), List.mem_zipIdx_iff_getElem?.mpr hi, he⟩

/-! ## 2. The graph of a body -/

/-- The jumps of a body go to its statements. -/
def TargetsInside (stmts : List Stmt) : Prop :=
  ∀ stmt ∈ stmts, ∀ t ∈ stmt.targets, t < stmts.length

variable {stmts : List Stmt}

/-- Flow leaves every node but the exit and enters every node but the entry. -/
theorem ends_of_mem_bodyEdges (h : TargetsInside stmts) {e : FlowEdge EdgeKind}
    (he : e ∈ bodyEdges stmts) :
    e.source < stmts.length + 1 ∧ 0 < e.target ∧ e.target < stmts.length + 2 := by
  rcases mem_bodyEdges.mp he with rfl | ⟨i, stmt, hi, he⟩
  · exact ⟨Nat.succ_pos _, Nat.one_pos, Nat.succ_lt_succ (Nat.succ_pos _)⟩
  · obtain ⟨hlt, -⟩ := List.getElem?_eq_some_iff.mp hi
    rw [source_of_mem_stmtEdges he]
    rcases target_of_mem_stmtEdges he with ht | ht | ⟨t, hmem, ht⟩
    · omega
    · omega
    · have htarget := h stmt (List.mem_of_getElem? hi) t hmem
      omega

theorem coherent_ofStmts (h : TargetsInside stmts) (m : MethodId) :
    (MethodFlow.ofStmts m stmts).graph.Coherent :=
  FlowGraph.coherent_ofEdges _ _ fun e he => by
    obtain ⟨hsource, -, htarget⟩ := ends_of_mem_bodyEdges h he
    exact ⟨by omega, htarget⟩

/-- An edge of the graph is an edge of the body. -/
theorem mem_outEdges_ofStmts {m : MethodId} {n : Nat} {e : FlowEdge EdgeKind}
    (hn : n < stmts.length + 2) :
    e ∈ (MethodFlow.ofStmts m stmts).graph.outEdges n ↔ e ∈ bodyEdges stmts ∧ e.source = n :=
  FlowGraph.mem_getD_groupBy hn

theorem mem_inEdges_ofStmts {m : MethodId} {n : Nat} {e : FlowEdge EdgeKind}
    (hn : n < stmts.length + 2) :
    e ∈ (MethodFlow.ofStmts m stmts).graph.inEdges n ↔ e ∈ bodyEdges stmts ∧ e.target = n :=
  FlowGraph.mem_getD_groupBy hn

/-- **Nothing flows out of the exit, and nothing into the entry.** -/
theorem next_eq_nil_ofStmts (h : TargetsInside stmts) (m : MethodId) (d : Direction) {n : Nat}
    (hn : n < stmts.length + 2)
    (hfinish : (MethodFlow.ofStmts m stmts).graph.isFinish d n = true) :
    (MethodFlow.ofStmts m stmts).graph.next d n = [] := by
  cases d with
  | forward =>
    have hexit : n = stmts.length + 1 := beq_iff_eq.mp hfinish
    refine List.map_eq_nil_iff.mpr (List.eq_nil_iff_forall_not_mem.mpr fun e he => ?_)
    obtain ⟨he, hsource⟩ := (mem_outEdges_ofStmts hn).mp he
    have hlt := (ends_of_mem_bodyEdges h he).1
    omega
  | backward =>
    have hentry : n = 0 := beq_iff_eq.mp hfinish
    refine List.map_eq_nil_iff.mpr (List.eq_nil_iff_forall_not_mem.mpr fun e he => ?_)
    obtain ⟨he, htarget⟩ := (mem_inEdges_ofStmts hn).mp he
    have hpos := (ends_of_mem_bodyEdges h he).2.1
    omega

/-- The node of a statement is one more than its place in the body. -/
theorem MethodFlow.indexOf?_eq_some_iff {f : MethodFlow} {node i : Nat} :
    f.indexOf? node = some i ↔ node = i + 1 ∧ i ≠ f.stmts.size := by
  unfold indexOf? entry exit
  constructor
  · intro h
    split at h
    · cases h
    · cases h
      omega
  · intro ⟨hnode, hi⟩
    rw [if_neg (by omega), hnode]
    rfl

/-- The statement of a node between entry and exit. -/
theorem stmtAt?_ofStmts (m : MethodId) (i : Nat) :
    (MethodFlow.ofStmts m stmts).stmtAt? (i + 1) = stmts[i]? := by
  unfold MethodFlow.stmtAt? MethodFlow.indexOf? MethodFlow.entry MethodFlow.exit
  by_cases hi : i = stmts.length
  · simp [MethodFlow.ofStmts, hi]
  · simp [MethodFlow.ofStmts, hi]

/-! ## 3. Accepted programs -/

variable {p : Program}

theorem Program.JumpsInside.targetsInside (h : p.JumpsInside) (m : MethodId) :
    TargetsInside (p.methodAt m).stmts :=
  fun _ hstmt _ ht => h.target_lt hstmt ht

theorem Program.JumpsInside.coherent (h : p.JumpsInside) (m : MethodId) :
    (p.flowOf m).graph.Coherent :=
  coherent_ofStmts (h.targetsInside m) m

theorem Program.JumpsInside.next_eq_nil (h : p.JumpsInside) (m : MethodId) (d : Direction)
    {n : Nat} (hn : n < (p.flowOf m).graph.nodeCount)
    (hfinish : (p.flowOf m).graph.isFinish d n = true) : (p.flowOf m).graph.next d n = [] :=
  next_eq_nil_ofStmts (h.targetsInside m) m d hn hfinish

end ObjectFlow
