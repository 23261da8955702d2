/-
  File:      ObjectFlow/Proofs/Dataflow/Equations.lean
  Subject:   WHERE THE WORKLIST SOLVER STOPS, THE FLOW EQUATIONS HOLD, whatever the order of visits.

  Everything is said along the direction of the problem: a node's input is the join of what
  arrives over its edges, its output the transfer of its input.

  * `DataflowProblem.Solves`: the flow equations of a problem;
  * `Moved`, `Visited`: all that one visit does to facts and pending nodes;
  * `Settled`: the invariant that every inner node that is not pending satisfies its equations;
  * `solves_of_solveWithin`: the equations hold of every result.
-/
import ObjectFlow.Dataflow.Solver

namespace ObjectFlow

/-! ## 1. Pending nodes -/

namespace Worklist

theorem mem_pending_push {w : Worklist} {n m : Nat} :
    m ∈ (w.push n).pending ↔ m ∈ w.pending ∨ m = n := by
  unfold push accepts
  by_cases h : n ∈ w.pending
  · rw [if_neg (by simp [h])]
    constructor
    · exact .inl
    · intro hm
      rcases hm with hm | rfl
      · exact hm
      · exact h
  · rw [if_pos (by simp [h])]
    simp

theorem mem_pending_pushAll {ns : List Nat} {w : Worklist} {m : Nat} :
    m ∈ (w.pushAll ns).pending ↔ m ∈ w.pending ∨ m ∈ ns := by
  unfold pushAll
  induction ns generalizing w with
  | nil => simp
  | cons n ns ih =>
    rw [List.foldl_cons, ih, mem_pending_push, List.mem_cons, or_assoc]

theorem mem_of_leastBy {key : Nat → Nat} {l : List Nat} {n : Nat} (h : leastBy key l = some n) :
    n ∈ l := by
  induction l generalizing n with
  | nil => cases h
  | cons a l ih =>
    unfold leastBy at h
    cases hl : leastBy key l with
    | none =>
      rw [hl] at h
      cases h
      exact List.mem_cons_self
    | some m =>
      rw [hl] at h
      simp only at h
      split at h
      · cases h
        exact List.mem_cons_of_mem a (ih hl)
      · cases h
        exact List.mem_cons_self

theorem leastBy_eq_none {key : Nat → Nat} {l : List Nat} (h : leastBy key l = none) : l = [] := by
  cases l with
  | nil => rfl
  | cons a l =>
    unfold leastBy at h
    split at h
    · cases h
    · split at h <;> cases h

theorem mem_of_peek? {w : Worklist} {n : Nat} (h : w.peek? = some n) : n ∈ w.pending := by
  unfold peek? at h
  split at h
  · exact List.mem_of_mem_head? h
  · exact List.mem_of_getLast? h
  · exact mem_of_leastBy h

/-- **One pending node leaves the worklist, whichever the order.** -/
theorem of_pop? {w rest : Worklist} {n : Nat} (h : w.pop? = some (n, rest)) :
    n ∈ w.pending ∧ rest.pending = w.pending.erase n := by
  obtain ⟨m, hm, hrest⟩ := Option.map_eq_some_iff.mp h
  cases hrest
  exact ⟨mem_of_peek? hm, rfl⟩

theorem eq_or_mem_of_pop? {w rest : Worklist} {n m : Nat} (h : w.pop? = some (n, rest))
    (hm : m ∈ w.pending) : m = n ∨ m ∈ rest.pending := by
  by_cases hmn : m = n
  · exact .inl hmn
  · right
    rw [(of_pop? h).2, List.mem_erase_of_ne hmn]
    exact hm

theorem mem_of_mem_rest {w rest : Worklist} {n m : Nat} (h : w.pop? = some (n, rest))
    (hm : m ∈ rest.pending) : m ∈ w.pending := by
  rw [(of_pop? h).2] at hm
  exact List.mem_of_mem_erase hm

theorem length_lt_of_pop? {w rest : Worklist} {n : Nat} (h : w.pop? = some (n, rest)) :
    rest.pending.length < w.pending.length := by
  obtain ⟨hn, hrest⟩ := of_pop? h
  have hpos := List.length_pos_of_mem hn
  rw [hrest, List.length_erase_of_mem hn]
  omega

theorem pending_of_pop?_none {w : Worklist} (h : w.pop? = none) : w.pending = [] := by
  have hp : w.peek? = none := Option.map_eq_none_iff.mp h
  unfold peek? at hp
  split at hp
  · exact List.head?_eq_none_iff.mp hp
  · exact List.getLast?_eq_none_iff.mp hp
  · exact leastBy_eq_none hp

end Worklist

/-! ## 2. Coherent graphs -/

namespace FlowGraph

variable {κ : Type}

/-- Edges run between nodes of the graph, and the two ends of an edge list it both. -/
structure Coherent (g : FlowGraph κ) : Prop where
  into : ∀ n < g.nodeCount, ∀ e ∈ g.inEdges n, e.target = n ∧ e.source < g.nodeCount
  outOf : ∀ n < g.nodeCount, ∀ e ∈ g.outEdges n, e.source = n ∧ e.target < g.nodeCount
  same : ∀ e : FlowEdge κ, e.source < g.nodeCount → e.target < g.nodeCount →
    (e ∈ g.inEdges e.target ↔ e ∈ g.outEdges e.source)

/-- A node is next to all nodes facts arrive from. -/
theorem Coherent.mem_next {g : FlowGraph κ} (hg : g.Coherent) (d : Direction) {n : Nat}
    (hn : n < g.nodeCount) {e : FlowEdge κ} (he : e ∈ g.arriving d n) :
    e.origin d < g.nodeCount ∧ n ∈ g.next d (e.origin d) := by
  cases d with
  | forward =>
    obtain ⟨htarget, hlt⟩ := hg.into n hn e he
    subst htarget
    exact ⟨hlt, List.mem_map_of_mem ((hg.same e hlt hn).mp he)⟩
  | backward =>
    obtain ⟨hsource, hlt⟩ := hg.outOf n hn e he
    subst hsource
    exact ⟨hlt, List.mem_map_of_mem ((hg.same e hn hlt).mpr he)⟩

theorem Coherent.next_lt {g : FlowGraph κ} (hg : g.Coherent) (d : Direction) {n m : Nat}
    (hn : n < g.nodeCount) (hm : m ∈ g.next d n) : m < g.nodeCount := by
  cases d with
  | forward =>
    obtain ⟨e, he, rfl⟩ := List.mem_map.mp hm
    exact (hg.outOf n hn e he).2
  | backward =>
    obtain ⟨e, he, rfl⟩ := List.mem_map.mp hm
    exact (hg.into n hn e he).2

theorem mem_getD_groupBy {n i : Nat} {key : FlowEdge κ → Nat} {edges : List (FlowEdge κ)}
    {e : FlowEdge κ} (hi : i < n) :
    e ∈ (groupBy n key edges).getD i [] ↔ e ∈ edges ∧ key e = i := by
  unfold groupBy
  rw [Array.getD_eq_getD_getElem?, Array.getElem?_map,
    Array.getElem?_eq_getElem (by simpa using hi)]
  simp

/-- The graph of a list of edges is coherent. -/
theorem coherent_ofEdges {n : Nat} {edges : List (FlowEdge κ)} (isEntry isExit : Nat → Bool)
    (h : ∀ e ∈ edges, e.source < n ∧ e.target < n) :
    (ofEdges n edges isEntry isExit).Coherent := by
  refine ⟨fun i hi e he => ?_, fun i hi e he => ?_, fun e hsource htarget => ?_⟩
  · obtain ⟨hmem, hkey⟩ := (mem_getD_groupBy hi).mp he
    exact ⟨hkey, (h e hmem).1⟩
  · obtain ⟨hmem, hkey⟩ := (mem_getD_groupBy hi).mp he
    exact ⟨hkey, (h e hmem).2⟩
  · refine (mem_getD_groupBy htarget).trans (Iff.trans ?_ (mem_getD_groupBy hsource).symm)
    rw [and_iff_left rfl, and_iff_left rfl]

end FlowGraph

/-! ## 3. The flow equations -/

namespace DataflowProblem

variable {κ φ σ : Type}

/-- The node transfer does not depend on what it remembers. -/
def Stateless (p : DataflowProblem κ φ σ) (transfer : Nat → φ → φ) : Prop :=
  ∀ n fact memory, (p.transferNode n fact memory).1 = transfer n fact

/-- What arrives over each edge of a node, joined. -/
def joined (p : DataflowProblem κ φ σ) (g : FlowGraph κ) (output : Nat → φ) (n : Nat) : φ :=
  ((g.arriving p.direction n).map fun e =>
    p.transferEdge e (output (e.origin p.direction))).foldl p.join p.initial

/-- The input fact of a node. -/
def inputAt (p : DataflowProblem κ φ σ) (f : Facts φ) (n : Nat) : φ := f.inputs.getD n p.initial

/-- **The flow equations**: the boundary fact on both sides of the start nodes; at every other
    node the join of what arrives on the one side, and its transfer on the other. -/
structure Solves (p : DataflowProblem κ φ σ) (g : FlowGraph κ) (transfer : Nat → φ → φ)
    (f : Facts φ) : Prop where
  direction : f.direction = p.direction
  inputs : f.inputs.size = g.nodeCount
  outputs : f.outputs.size = g.nodeCount
  boundary : ∀ n < g.nodeCount, g.isStart p.direction n = true →
    p.inputAt f n = p.boundary n ∧ p.outputAt f n = p.boundary n
  input : ∀ n < g.nodeCount, g.isStart p.direction n = false →
    p.inputAt f n = p.joined g (p.outputAt f) n
  output : ∀ n < g.nodeCount, g.isStart p.direction n = false →
    p.outputAt f n = transfer n (p.inputAt f n)

theorem arrived_eq (p : DataflowProblem κ φ σ) (g : FlowGraph κ) (f : Facts φ) (n : Nat) :
    p.arrived g f n = p.joined g (p.outputAt f) n := by
  unfold arrived joined
  rw [List.foldl_map]

/-- The join depends only on the outputs that arrive. -/
theorem joined_congr {p : DataflowProblem κ φ σ} {g : FlowGraph κ} {output output' : Nat → φ}
    {n : Nat} (h : ∀ e ∈ g.arriving p.direction n,
      output (e.origin p.direction) = output' (e.origin p.direction)) :
    p.joined g output n = p.joined g output' n := by
  unfold joined
  congr 1
  exact List.map_congr_left fun e he => by rw [h e he]

theorem getD_setIfInBounds {a : Array φ} {n : Nat} (hn : n < a.size) (v fallback : φ) (m : Nat) :
    (a.setIfInBounds n v).getD m fallback = if m = n then v else a.getD m fallback := by
  rw [Array.getD_eq_getD_getElem?, Array.getElem?_setIfInBounds, Array.getD_eq_getD_getElem?]
  by_cases h : n = m
  · subst h
    simp [hn]
  · have hne : ¬ m = n := fun e => h e.symm
    simp [h, hne]

/-- **What the solver is promised**: transfers without memory, no dependents, a coherent graph,
    and finish nodes from which nothing flows on. -/
structure Admissible (p : DataflowProblem κ φ σ) (g : FlowGraph κ) (transfer : Nat → φ → φ) :
    Prop where
  stateless : p.Stateless transfer
  independent : ∀ n, p.dependents n = []
  coherent : g.Coherent
  finish : ∀ n < g.nodeCount, g.isFinish p.direction n = true → g.next p.direction n = []

/-! ## 4. One visit -/

/-- **What one visit does**: the input of one pending node becomes what arrives there, its output
    `fact`; the node is no longer pending, and if its output changed its inner next nodes and its
    dependents are. -/
structure Moved (p : DataflowProblem κ φ σ) (g : FlowGraph κ) (s t : State φ σ) (n : Nat)
    (fact : φ) : Prop where
  pending : n ∈ s.worklist.pending
  direction : t.facts.direction = s.facts.direction
  inputs : t.facts.inputs.size = s.facts.inputs.size
  outputs : t.facts.outputs.size = s.facts.outputs.size
  input : ∀ m, p.inputAt t.facts m =
    if m = n then p.joined g (p.outputAt s.facts) n else p.inputAt s.facts m
  output : ∀ m, p.outputAt t.facts m = if m = n then fact else p.outputAt s.facts m
  left : ∀ m ∈ s.worklist.pending, m = n ∨ m ∈ t.worklist.pending
  kept : ∀ m ∈ t.worklist.pending, m ∈ s.worklist.pending ∨
    (m ∈ g.next p.direction n ∧ isInner g m = true) ∨ m ∈ p.dependents n
  woken : (fact = p.outputAt s.facts n ∧
      t.worklist.pending.length < s.worklist.pending.length) ∨
    (fact ≠ p.outputAt s.facts n ∧
      ∀ m ∈ g.next p.direction n, isInner g m = true → m ∈ t.worklist.pending)

/-- **All that one visit does where nodes have no memory and no dependents**: the facts of one
    pending node are computed anew; the node is no longer pending, and if its output changed its
    inner next nodes are. -/
structure Visited (p : DataflowProblem κ φ σ) (g : FlowGraph κ) (transfer : Nat → φ → φ)
    (s t : State φ σ) (n : Nat) : Prop where
  pending : n ∈ s.worklist.pending
  direction : t.facts.direction = s.facts.direction
  inputs : t.facts.inputs.size = s.facts.inputs.size
  outputs : t.facts.outputs.size = s.facts.outputs.size
  input : ∀ m, p.inputAt t.facts m =
    if m = n then p.joined g (p.outputAt s.facts) n else p.inputAt s.facts m
  output : ∀ m, p.outputAt t.facts m =
    if m = n then transfer n (p.joined g (p.outputAt s.facts) n) else p.outputAt s.facts m
  left : ∀ m ∈ s.worklist.pending, m = n ∨ m ∈ t.worklist.pending
  kept : ∀ m ∈ t.worklist.pending,
    m ∈ s.worklist.pending ∨ (m ∈ g.next p.direction n ∧ isInner g m = true)
  woken : (transfer n (p.joined g (p.outputAt s.facts) n) = p.outputAt s.facts n ∧
      t.worklist.pending.length < s.worklist.pending.length) ∨
    (transfer n (p.joined g (p.outputAt s.facts) n) ≠ p.outputAt s.facts n ∧
      ∀ m ∈ g.next p.direction n, isInner g m = true → m ∈ t.worklist.pending)

variable {p : DataflowProblem κ φ σ} {g : FlowGraph κ} {transfer : Nat → φ → φ} {s t : State φ σ}

/-- What is pending after a visit that changed the output of a node. -/
theorem mem_pending_woken {rest : Worklist} {n m : Nat} :
    m ∈ ((rest.pushAll ((g.next p.direction n).filter (isInner g))).pushAll
      (p.dependents n)).pending ↔
      m ∈ rest.pending ∨ (m ∈ g.next p.direction n ∧ isInner g m = true) ∨
        m ∈ p.dependents n := by
  rw [Worklist.mem_pending_pushAll, Worklist.mem_pending_pushAll, List.mem_filter, or_assoc]

section Visits

variable [DecidableEq φ]

/-- What the visit of the node taken from the worklist does. -/
theorem moved_of_pop? (hin : s.facts.inputs.size = g.nodeCount)
    (hout : s.facts.outputs.size = g.nodeCount)
    (hpending : ∀ n ∈ s.worklist.pending, n < g.nodeCount) {n : Nat} {rest : Worklist}
    (hpop : s.worklist.pop? = some (n, rest)) (hv : p.visit g s = some t) :
    Moved p g s t n (p.transferNode n (p.joined g (p.outputAt s.facts) n) s.memory).1 := by
  have ht := hv
  unfold visit at ht
  rw [hpop, Option.map_some, Option.some.injEq] at ht
  have hn := (Worklist.of_pop? hpop).1
  have hlt := hpending n hn
  have hinputs := getD_setIfInBounds (hin.symm ▸ hlt) (p.joined g (p.outputAt s.facts) n) p.initial
  have houtputs := getD_setIfInBounds (hout.symm ▸ hlt)
    (p.transferNode n (p.joined g (p.outputAt s.facts) n) s.memory).1 p.initial
  simp only [arrived_eq] at ht
  split at ht
  · rename_i hsame
    subst ht
    refine ⟨hn, rfl, Array.size_setIfInBounds, rfl, hinputs, fun m => ?_,
      fun m => Worklist.eq_or_mem_of_pop? hpop,
      fun m hm => .inl (Worklist.mem_of_mem_rest hpop hm),
      .inl ⟨hsame, Worklist.length_lt_of_pop? hpop⟩⟩
    by_cases hm : m = n
    · rw [if_pos hm, hsame, hm]
      rfl
    · rw [if_neg hm]
      rfl
  · rename_i hchanged
    subst ht
    refine ⟨hn, rfl, Array.size_setIfInBounds, Array.size_setIfInBounds, hinputs, houtputs,
      fun m hm => ?_, fun m hm => ?_,
      .inr ⟨hchanged, fun m hm hinner => mem_pending_woken.mpr (.inr (.inl ⟨hm, hinner⟩))⟩⟩
    · rcases Worklist.eq_or_mem_of_pop? hpop hm with rfl | hm
      · exact .inl rfl
      · exact .inr (mem_pending_woken.mpr (.inl hm))
    · rcases mem_pending_woken.mp hm with hm | hm
      · exact .inl (Worklist.mem_of_mem_rest hpop hm)
      · exact .inr hm

theorem moved_of_visit (hin : s.facts.inputs.size = g.nodeCount)
    (hout : s.facts.outputs.size = g.nodeCount)
    (hpending : ∀ n ∈ s.worklist.pending, n < g.nodeCount) (hv : p.visit g s = some t) :
    ∃ n, Moved p g s t n (p.transferNode n (p.joined g (p.outputAt s.facts) n) s.memory).1 := by
  obtain ⟨⟨n, rest⟩, hpop, -⟩ := Option.map_eq_some_iff.mp hv
  exact ⟨n, moved_of_pop? hin hout hpending hpop hv⟩

theorem visited_of_visit (h : p.Admissible g transfer)
    (hin : s.facts.inputs.size = g.nodeCount) (hout : s.facts.outputs.size = g.nodeCount)
    (hpending : ∀ n ∈ s.worklist.pending, n < g.nodeCount) (hv : p.visit g s = some t) :
    ∃ n, Visited p g transfer s t n := by
  obtain ⟨n, v⟩ := moved_of_visit hin hout hpending hv
  rw [h.stateless] at v
  refine ⟨n, v.pending, v.direction, v.inputs, v.outputs, v.input, v.output, v.left,
    fun m hm => ?_, v.woken⟩
  rcases v.kept m hm with hm | hm | hm
  · exact .inl hm
  · exact .inr hm
  · rw [h.independent n] at hm
    exact absurd hm List.not_mem_nil

end Visits

/-- An output that changed changes what arrives at the next nodes only. -/
theorem joined_eq_of_changed (hg : g.Coherent) {output output' : Nat → φ} {n : Nat} {fact : φ}
    (houtput : ∀ m, output' m = if m = n then fact else output m) {m : Nat} (hm : m < g.nodeCount)
    (h : fact = output n ∨ ¬ m ∈ g.next p.direction n) :
    p.joined g output' m = p.joined g output m := by
  refine joined_congr fun e he => ?_
  rw [houtput]
  by_cases horigin : e.origin p.direction = n
  · rw [if_pos horigin, horigin]
    rcases h with hsame | hnext
    · exact hsame
    · have hmem := (hg.mem_next p.direction hm he).2
      rw [horigin] at hmem
      exact absurd hmem hnext
  · rw [if_neg horigin]

theorem Visited.moved {n : Nat} (v : Visited p g transfer s t n) :
    Moved p g s t n (transfer n (p.joined g (p.outputAt s.facts) n)) :=
  ⟨v.pending, v.direction, v.inputs, v.outputs, v.input, v.output, v.left,
    fun m hm => (v.kept m hm).imp_right .inl, v.woken⟩

/-- **What arrives at an inner node is as before a visit**, unless the visit made it pending. -/
theorem Moved.joined_eq {n : Nat} {fact : φ} (v : Moved p g s t n fact) (hg : g.Coherent) {m : Nat}
    (hm : m < g.nodeCount) (hinner : isInner g m = true) (hnot : ¬ m ∈ t.worklist.pending) :
    p.joined g (p.outputAt t.facts) m = p.joined g (p.outputAt s.facts) m := by
  refine joined_eq_of_changed hg v.output hm ?_
  rcases v.woken with ⟨hsame, -⟩ | ⟨-, hwoken⟩
  · exact .inl hsame
  · exact .inr fun hnext => hnot (hwoken m hnext hinner)

/-! ## 5. The invariant -/

/-- **Every inner node that is not pending satisfies its equations**, and start nodes hold the
    boundary fact. -/
structure Settled (p : DataflowProblem κ φ σ) (g : FlowGraph κ) (transfer : Nat → φ → φ)
    (s : State φ σ) : Prop where
  direction : s.facts.direction = p.direction
  inputs : s.facts.inputs.size = g.nodeCount
  outputs : s.facts.outputs.size = g.nodeCount
  pending : ∀ n ∈ s.worklist.pending, n < g.nodeCount ∧ isInner g n = true
  boundary : ∀ n < g.nodeCount, g.isStart p.direction n = true →
    p.inputAt s.facts n = p.boundary n ∧ p.outputAt s.facts n = p.boundary n
  settled : ∀ n < g.nodeCount, isInner g n = true → ¬ n ∈ s.worklist.pending →
    p.inputAt s.facts n = p.joined g (p.outputAt s.facts) n ∧
      p.outputAt s.facts n = transfer n (p.joined g (p.outputAt s.facts) n)

theorem isInner_iff (d : Direction) {n : Nat} :
    isInner g n = true ↔ g.isStart d n = false ∧ g.isFinish d n = false := by
  unfold isInner
  cases d <;> simp [FlowGraph.isStart, FlowGraph.isFinish, and_comm]

/-- **A visit keeps the invariant.** -/
theorem Visited.settled {n : Nat} (v : Visited p g transfer s t n) (h : p.Admissible g transfer)
    (hs : Settled p g transfer s) : Settled p g transfer t := by
  obtain ⟨hnlt, hninner⟩ := hs.pending n v.pending
  refine ⟨v.direction.trans hs.direction, v.inputs.trans hs.inputs, v.outputs.trans hs.outputs,
    fun m hm => ?_, fun m hm hstart => ?_, fun m hm hinner hnot => ?_⟩
  · rcases v.kept m hm with hm | ⟨hnext, hinner⟩
    · exact hs.pending m hm
    · exact ⟨h.coherent.next_lt p.direction hnlt hnext, hinner⟩
  · -- a start node is no inner node, so it was not the one visited
    have hmn : ¬ m = n := by
      intro hmn
      rw [← hmn, (isInner_iff p.direction), hstart] at hninner
      exact Bool.noConfusion hninner.1
    rw [v.input, v.output, if_neg hmn, if_neg hmn]
    exact hs.boundary m hm hstart
  · rw [v.moved.joined_eq h.coherent hm hinner hnot, v.input, v.output]
    by_cases hmn : m = n
    · subst hmn
      rw [if_pos rfl, if_pos rfl]
      exact ⟨rfl, rfl⟩
    · rw [if_neg hmn, if_neg hmn]
      refine hs.settled m hm hinner fun hpending => ?_
      rcases v.left m hpending with hmn' | hpending'
      · exact hmn hmn'
      · exact hnot hpending'

theorem startFacts_getD {n : Nat} (hn : n < g.nodeCount) :
    p.inputAt (p.startFacts g) n = (if g.isStart p.direction n then p.boundary n else p.initial) ∧
      p.outputAt (p.startFacts g) n =
        if g.isStart p.direction n then p.boundary n else p.initial := by
  unfold inputAt outputAt startFacts
  simp [Array.getD_eq_getD_getElem?, hn]

theorem start_settled (order : VisitOrder) (memory : σ) :
    Settled p g transfer (p.startState g order memory) := by
  have hpending : ∀ n, n ∈ (p.startState g order memory).worklist.pending ↔
      n < g.nodeCount ∧ isInner g n = true := by
    intro n
    unfold startState
    simp only
    rw [Worklist.mem_pending_pushAll]
    have hnew : (Worklist.new g order p.direction).pending = [] := rfl
    rw [hnew]
    cases p.direction <;> simp [FlowGraph.nodes]
  refine ⟨rfl, ?_, ?_, fun n hn => (hpending n).mp hn, fun n hn hstart => ?_,
    fun n hn hinner hnot => absurd ((hpending n).mpr ⟨hn, hinner⟩) hnot⟩
  · simp [startState, startFacts]
  · simp [startState, startFacts]
  · obtain ⟨hin, hout⟩ := startFacts_getD (p := p) hn
    rw [if_pos hstart] at hin hout
    exact ⟨hin, hout⟩

/-! ## 6. Finish nodes -/

/-- What arrives anywhere does not depend on finish nodes. -/
theorem Admissible.joined_eq (h : p.Admissible g transfer) {output output' : Nat → φ}
    (hsame : ∀ n < g.nodeCount, g.isFinish p.direction n = false → output n = output' n) {n : Nat}
    (hn : n < g.nodeCount) : p.joined g output n = p.joined g output' n := by
  refine joined_congr fun e he => ?_
  obtain ⟨hlt, hnext⟩ := h.coherent.mem_next p.direction hn he
  refine hsame _ hlt ?_
  cases hfinish : g.isFinish p.direction (e.origin p.direction) with
  | false => rfl
  | true =>
    rw [h.finish _ hlt hfinish] at hnext
    exact absurd hnext List.not_mem_nil

/-- The facts `r` are the facts `f` with those of some nodes computed from what arrives there. -/
structure Recomputed (p : DataflowProblem κ φ σ) (g : FlowGraph κ) (transfer : Nat → φ → φ)
    (nodes : List Nat) (f r : Facts φ) : Prop where
  direction : r.direction = f.direction
  inputs : r.inputs.size = f.inputs.size
  outputs : r.outputs.size = f.outputs.size
  input : ∀ n, p.inputAt r n =
    if n ∈ nodes then p.joined g (p.outputAt f) n else p.inputAt f n
  output : ∀ n, p.outputAt r n =
    if n ∈ nodes then transfer n (p.joined g (p.outputAt f) n) else p.outputAt f n

theorem finishNode_eq (h : p.Stateless transfer) (f : Facts φ) (memory : σ) (n : Nat) :
    (p.finishNode g (f, memory) n).1 =
      { f with
        inputs := f.inputs.setIfInBounds n (p.joined g (p.outputAt f) n)
        outputs := f.outputs.setIfInBounds n (transfer n (p.joined g (p.outputAt f) n)) } := by
  rw [← arrived_eq, ← h n _ memory]
  rfl

theorem ite_mem_cons {nodes : List Nat} {a n : Nat} {x x' x'' y : φ} (hx : n ∈ nodes → x' = x)
    (ha : n = a → x'' = x) :
    (if n ∈ nodes then x' else if n = a then x'' else y) = if n ∈ a :: nodes then x else y := by
  by_cases hmem : n ∈ nodes
  · rw [if_pos hmem, if_pos (List.mem_cons_of_mem a hmem), hx hmem]
  · rw [if_neg hmem]
    by_cases hna : n = a
    · rw [if_pos hna, ha hna, hna, if_pos List.mem_cons_self]
    · rw [if_neg hna, if_neg fun hmem' => ?_]
      exact (List.mem_cons.mp hmem').elim hna hmem

/-- The finish nodes are computed one after the other; none of them waits for another. -/
theorem foldl_finishNode (h : p.Admissible g transfer) (nodes : List Nat)
    (hnodes : ∀ n ∈ nodes, n < g.nodeCount ∧ g.isFinish p.direction n = true) (f : Facts φ)
    (memory : σ) (hin : f.inputs.size = g.nodeCount) (hout : f.outputs.size = g.nodeCount) :
    Recomputed p g transfer nodes f (nodes.foldl (p.finishNode g) (f, memory)).1 := by
  induction nodes generalizing f memory with
  | nil => exact ⟨rfl, rfl, rfl, fun n => rfl, fun n => rfl⟩
  | cons a nodes ih =>
    obtain ⟨halt, hafinish⟩ := hnodes a List.mem_cons_self
    have heq := finishNode_eq (g := g) h.stateless f memory a
    cases hfirst : p.finishNode g (f, memory) a with
    | mk f' memory' =>
      rw [hfirst] at heq
      have hin' : f'.inputs.size = g.nodeCount := by
        rw [show f' = _ from heq]
        exact Array.size_setIfInBounds.trans hin
      have hout' : f'.outputs.size = g.nodeCount := by
        rw [show f' = _ from heq]
        exact Array.size_setIfInBounds.trans hout
      have hinput : ∀ n, p.inputAt f' n =
          if n = a then p.joined g (p.outputAt f) a else p.inputAt f n := by
        rw [show f' = _ from heq]
        exact getD_setIfInBounds (hin.symm ▸ halt) _ _
      have houtput : ∀ n, p.outputAt f' n =
          if n = a then transfer a (p.joined g (p.outputAt f) a) else p.outputAt f n := by
        rw [show f' = _ from heq]
        exact getD_setIfInBounds (hout.symm ▸ halt) _ _
      have hjoined : ∀ n < g.nodeCount,
          p.joined g (p.outputAt f') n = p.joined g (p.outputAt f) n := by
        refine fun n hn => h.joined_eq (fun m hm hnot => ?_) hn
        rw [houtput, if_neg fun hma => ?_]
        rw [hma, hafinish] at hnot
        cases hnot
      have hrest := ih (fun n hn => hnodes n (List.mem_cons_of_mem a hn)) f' memory' hin' hout'
      rw [List.foldl_cons, hfirst]
      refine ⟨hrest.direction.trans ?_, hrest.inputs.trans (hin'.trans hin.symm),
        hrest.outputs.trans (hout'.trans hout.symm), fun n => ?_, fun n => ?_⟩
      · rw [show f' = _ from heq]
      · rw [hrest.input, hinput]
        exact ite_mem_cons (fun hn => hjoined n (hnodes n (List.mem_cons_of_mem a hn)).1)
          fun hna => by rw [hna]
      · rw [hrest.output, houtput]
        exact ite_mem_cons
          (fun hn => by rw [hjoined n (hnodes n (List.mem_cons_of_mem a hn)).1])
          fun hna => by rw [hna]

/-- The facts of the finish nodes are computed once. -/
theorem finish_recomputed (h : p.Admissible g transfer) (hin : s.facts.inputs.size = g.nodeCount)
    (hout : s.facts.outputs.size = g.nodeCount) :
    ∃ nodes, (∀ n, n ∈ nodes ↔ n < g.nodeCount ∧ g.isFinish p.direction n = true ∧
        g.isStart p.direction n = false) ∧
      Recomputed p g transfer nodes s.facts (p.finish g s).1 := by
  refine ⟨g.nodes.filter fun n => g.isFinish p.direction n && !g.isStart p.direction n,
    fun n => ?_, foldl_finishNode h _ (fun n hn => ?_) s.facts s.memory hin hout⟩
  · simp [FlowGraph.nodes]
  · simp only [FlowGraph.nodes, List.mem_filter, List.mem_range, Bool.and_eq_true] at hn
    exact ⟨hn.1, hn.2.1⟩

/-! ## 7. Results -/

/-- **With no node pending, computing the finish nodes solves the equations.** -/
theorem Settled.solves (h : p.Admissible g transfer) (hs : Settled p g transfer s)
    (hidle : s.worklist.pending = []) : p.Solves g transfer (p.finish g s).1 := by
  obtain ⟨nodes, hnodes, hr⟩ := finish_recomputed (s := s) h hs.inputs hs.outputs
  have hjoined : ∀ n < g.nodeCount,
      p.joined g (p.outputAt (p.finish g s).1) n = p.joined g (p.outputAt s.facts) n := by
    refine fun n hn => h.joined_eq (fun m hm hnot => ?_) hn
    rw [hr.output, if_neg fun hmem => ?_]
    rw [((hnodes m).mp hmem).2.1] at hnot
    cases hnot
  -- a node that is neither start nor finish is inner and, with no node pending, settled
  have hinner : ∀ n < g.nodeCount, g.isStart p.direction n = false → ¬ n ∈ nodes →
      p.inputAt s.facts n = p.joined g (p.outputAt s.facts) n ∧
        p.outputAt s.facts n = transfer n (p.joined g (p.outputAt s.facts) n) := by
    intro n hn hstart hnot
    refine hs.settled n hn ((isInner_iff p.direction).mpr ⟨hstart, ?_⟩) (hidle ▸ List.not_mem_nil)
    cases hfinish : g.isFinish p.direction n with
    | false => rfl
    | true => exact absurd ((hnodes n).mpr ⟨hn, hfinish, hstart⟩) hnot
  refine ⟨hr.direction.trans hs.direction, hr.inputs.trans hs.inputs, hr.outputs.trans hs.outputs,
    fun n hn hstart => ?_, fun n hn hstart => ?_, fun n hn hstart => ?_⟩
  · have hnot : ¬ n ∈ nodes := by
      intro hmem
      rw [((hnodes n).mp hmem).2.2] at hstart
      cases hstart
    rw [hr.input, hr.output, if_neg hnot, if_neg hnot]
    exact hs.boundary n hn hstart
  · rw [hjoined n hn, hr.input]
    by_cases hmem : n ∈ nodes
    · rw [if_pos hmem]
    · rw [if_neg hmem]
      exact (hinner n hn hstart hmem).1
  · rw [hr.output, hr.input]
    by_cases hmem : n ∈ nodes
    · rw [if_pos hmem, if_pos hmem]
    · rw [if_neg hmem, if_neg hmem, (hinner n hn hstart hmem).1]
      exact (hinner n hn hstart hmem).2

variable [DecidableEq φ]

theorem visit_settled (h : p.Admissible g transfer) (hs : Settled p g transfer s)
    (hv : p.visit g s = some t) : Settled p g transfer t ∧ ∃ n, Visited p g transfer s t n := by
  obtain ⟨n, v⟩ := visited_of_visit h hs.inputs hs.outputs (fun n hn => (hs.pending n hn).1) hv
  exact ⟨v.settled h hs, n, v⟩

/-- Visits keep the invariant, so it holds where the solver stops. -/
theorem settled_of_iterate (h : p.Admissible g transfer) {order : VisitOrder} {memory : σ}
    {allowance : Nat} (hrun : iterate (p.visit g) allowance (p.startState g order memory) = some t) :
    Settled p g transfer t ∧ t.worklist.pending = [] := by
  obtain ⟨ht, hstop⟩ := iterate_invariant (fun s next hs hv => (visit_settled h hs hv).1)
    (start_settled order memory) hrun
  exact ⟨ht, Worklist.pending_of_pop?_none (Option.map_eq_none_iff.mp hstop)⟩

/-- **Every result solves the equations**, whatever the order of visits. -/
theorem solves_of_solveWithin (h : p.Admissible g transfer) {order : VisitOrder}
    {memory memory' : σ} {allowance : Nat} {f : Facts φ}
    (hrun : p.solveWithin g order memory allowance = some (f, memory')) :
    p.Solves g transfer f := by
  obtain ⟨t, hiter, hfinish⟩ := Option.map_eq_some_iff.mp hrun
  obtain ⟨ht, hidle⟩ := settled_of_iterate h hiter
  have hsolves := ht.solves h hidle
  rw [hfinish] at hsolves
  exact hsolves

end DataflowProblem

end ObjectFlow
