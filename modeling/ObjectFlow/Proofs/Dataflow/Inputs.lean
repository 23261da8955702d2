/-
  File:      ObjectFlow/Proofs/Dataflow/Inputs.lean
  Subject:   WHAT ARRIVES AT EVERY NODE WHERE THE WORKLIST SOLVER STOPS, with transfers that keep a
             memory, dependents, and a finish node that flow goes on from.

  The finish node is computed once, after the last visit. Until then it holds the initial fact,
  and that is what the nodes behind it take in, whatever it holds in the end.

  * `Bounded`: what the solver is promised;
  * `Taken`: the invariant that every inner node that is not pending has taken in what arrives;
  * `inputAt_of_solveWithin`: what the input of every node of a result is.
-/
import ObjectFlow.Proofs.Dataflow.Equations

namespace ObjectFlow

namespace DataflowProblem

variable {κ φ σ : Type}

/-! ## 1. Promises -/

/-- **What the solver is promised**: a coherent graph, inner nodes as dependents, and one finish
    node at most. -/
structure Bounded (p : DataflowProblem κ φ σ) (g : FlowGraph κ) : Prop where
  coherent : g.Coherent
  dependents : ∀ n, ∀ m ∈ p.dependents n, m < g.nodeCount ∧ isInner g m = true
  finish : ∀ n m, g.isFinish p.direction n = true → g.isFinish p.direction m = true → n = m

/-- Whether the facts of a node are computed after the last visit. -/
def isLast (p : DataflowProblem κ φ σ) (g : FlowGraph κ) (n : Nat) : Bool :=
  g.isFinish p.direction n && !g.isStart p.direction n

/-- What a node gives to the nodes behind it: its output, or the initial fact if it is computed
    after them. -/
def given (p : DataflowProblem κ φ σ) (g : FlowGraph κ) (f : Facts φ) (n : Nat) : φ :=
  if p.isLast g n then p.initial else p.outputAt f n

variable {p : DataflowProblem κ φ σ} {g : FlowGraph κ} {s t : State φ σ}

theorem isInner_of_not_isLast {n : Nat} (hstart : g.isStart p.direction n = false)
    (hlast : p.isLast g n = false) : isInner g n = true := by
  refine (isInner_iff p.direction).mpr ⟨hstart, ?_⟩
  unfold isLast at hlast
  rw [hstart, Bool.not_false, Bool.and_true] at hlast
  exact hlast

/-! ## 2. The invariant -/

/-- **Every inner node that is not pending has taken in what arrives**, and the finish node holds
    the initial fact. -/
structure Taken (p : DataflowProblem κ φ σ) (g : FlowGraph κ) (s : State φ σ) : Prop where
  direction : s.facts.direction = p.direction
  inputs : s.facts.inputs.size = g.nodeCount
  outputs : s.facts.outputs.size = g.nodeCount
  pending : ∀ n ∈ s.worklist.pending, n < g.nodeCount ∧ isInner g n = true
  last : ∀ n < g.nodeCount, p.isLast g n = true → p.outputAt s.facts n = p.initial
  taken : ∀ n < g.nodeCount, isInner g n = true → ¬ n ∈ s.worklist.pending →
    p.inputAt s.facts n = p.joined g (p.outputAt s.facts) n

theorem startState_taken (order : VisitOrder) (memory : σ) :
    Taken p g (p.startState g order memory) := by
  have hs : Settled p g (fun _ fact => fact) (p.startState g order memory) :=
    start_settled order memory
  refine ⟨hs.direction, hs.inputs, hs.outputs, hs.pending, fun n hn hlast => ?_,
    fun n hn hinner hnot => (hs.settled n hn hinner hnot).1⟩
  have hstart : g.isStart p.direction n = false := by
    unfold isLast at hlast
    rw [Bool.and_eq_true, Bool.not_eq_true'] at hlast
    exact hlast.2
  rw [show p.outputAt (p.startState g order memory).facts n = _ from (startFacts_getD hn).2,
    hstart, if_neg Bool.false_ne_true]

/-- **A visit keeps the invariant.** -/
theorem Moved.taken {n : Nat} {fact : φ} (v : Moved p g s t n fact) (h : p.Bounded g)
    (hs : Taken p g s) : Taken p g t := by
  obtain ⟨hnlt, hninner⟩ := hs.pending n v.pending
  refine ⟨v.direction.trans hs.direction, v.inputs.trans hs.inputs, v.outputs.trans hs.outputs,
    fun m hm => ?_, fun m hm hlast => ?_, fun m hm hinner hnot => ?_⟩
  · rcases v.kept m hm with hm | ⟨hnext, hinner⟩ | hm
    · exact hs.pending m hm
    · exact ⟨h.coherent.next_lt p.direction hnlt hnext, hinner⟩
    · exact h.dependents n m hm
  · -- the visited node is inner, so it is not the last one
    have hmn : ¬ m = n := by
      rintro rfl
      unfold isLast at hlast
      rw [((isInner_iff p.direction).mp hninner).2] at hlast
      cases hlast
    rw [v.output, if_neg hmn]
    exact hs.last m hm hlast
  · rw [v.joined_eq h.coherent hm hinner hnot, v.input]
    by_cases hmn : m = n
    · rw [if_pos hmn, hmn]
    · rw [if_neg hmn]
      refine hs.taken m hm hinner fun hpending => ?_
      exact (v.left m hpending).elim hmn hnot

/-! ## 3. The finish node -/

/-- After the last visit nothing is left to compute but the finish node. -/
theorem finish_cases (h : p.Bounded g) (s : State φ σ) :
    ((∀ n < g.nodeCount, p.isLast g n = false) ∧ p.finish g s = (s.facts, s.memory)) ∨
    ∃ a < g.nodeCount, (∀ n < g.nodeCount, p.isLast g n = true ↔ n = a) ∧
      p.finish g s = p.finishNode g (s.facts, s.memory) a := by
  have hfinish : p.finish g s =
      (g.nodes.filter (p.isLast g)).foldl (p.finishNode g) (s.facts, s.memory) := rfl
  have hmem : ∀ n, n ∈ g.nodes.filter (p.isLast g) ↔ n < g.nodeCount ∧ p.isLast g n = true := by
    intro n
    rw [List.mem_filter, FlowGraph.nodes, List.mem_range]
  have hnodup : (g.nodes.filter (p.isLast g)).Nodup := List.nodup_range.filter _
  cases hnodes : g.nodes.filter (p.isLast g) with
  | nil =>
    left
    refine ⟨fun n hn => Bool.eq_false_iff.mpr fun hlast => ?_, by rw [hfinish, hnodes]; rfl⟩
    have hn' := (hmem n).mpr ⟨hn, hlast⟩
    rw [hnodes] at hn'
    exact List.not_mem_nil hn'
  | cons a rest =>
    right
    rw [hnodes] at hfinish hmem hnodup
    obtain ⟨halt, hlast⟩ := (hmem a).mp List.mem_cons_self
    have hone : ∀ n, p.isLast g n = true → n = a := fun n hn =>
      h.finish n a (Bool.and_eq_true_iff.mp hn).1 (Bool.and_eq_true_iff.mp hlast).1
    have hrest : rest = [] := by
      refine List.eq_nil_iff_forall_not_mem.mpr fun b hb => ?_
      have hba := hone b ((hmem b).mp (List.mem_cons_of_mem a hb)).2
      exact (List.nodup_cons.mp hnodup).1 (hba ▸ hb)
    refine ⟨a, halt, fun n _ => ⟨hone n, fun hna => hna ▸ hlast⟩, ?_⟩
    rw [hfinish, hrest]
    rfl

/-- The facts `r` are the facts `f` with those of the finish node computed from what arrives. -/
structure Finished (p : DataflowProblem κ φ σ) (g : FlowGraph κ) (f r : Facts φ) : Prop where
  direction : r.direction = f.direction
  inputs : r.inputs.size = f.inputs.size
  outputs : r.outputs.size = f.outputs.size
  input : ∀ n < g.nodeCount, p.inputAt r n =
    if p.isLast g n then p.joined g (p.outputAt f) n else p.inputAt f n
  output : ∀ n < g.nodeCount, p.isLast g n = false → p.outputAt r n = p.outputAt f n

theorem Taken.finished (hs : Taken p g s) (h : p.Bounded g) :
    Finished p g s.facts (p.finish g s).1 := by
  rcases finish_cases h s with ⟨hnone, hfinish⟩ | ⟨a, halt, hlast, hfinish⟩
  · rw [hfinish]
    exact ⟨rfl, rfl, rfl, fun n hn => by rw [hnone n hn]; rfl, fun n hn _ => rfl⟩
  · rw [hfinish]
    refine ⟨rfl, Array.size_setIfInBounds, Array.size_setIfInBounds, fun n hn => ?_,
      fun n hn hnot => ?_⟩
    · refine (getD_setIfInBounds (hs.inputs.symm ▸ halt) _ _ n).trans ?_
      by_cases hna : n = a
      · rw [if_pos hna, if_pos ((hlast n hn).mpr hna), hna, arrived_eq]
      · rw [if_neg hna, if_neg fun hl => hna ((hlast n hn).mp hl)]
        rfl
    · refine (getD_setIfInBounds (hs.outputs.symm ▸ halt) _ _ n).trans (if_neg fun hna => ?_)
      rw [(hlast n hn).mpr hna] at hnot
      cases hnot

/-! ## 4. Results -/

/-- With no node pending, every node has taken in what the others give. -/
theorem Finished.inputAt_eq {r : Facts φ} (hr : Finished p g s.facts r) (h : p.Bounded g)
    (hs : Taken p g s) (hidle : s.worklist.pending = []) {n : Nat} (hn : n < g.nodeCount)
    (hstart : g.isStart p.direction n = false) :
    p.inputAt r n = p.joined g (p.given g r) n := by
  have hgiven : p.joined g (p.given g r) n = p.joined g (p.outputAt s.facts) n := by
    refine joined_congr fun e he => ?_
    have hlt := (h.coherent.mem_next p.direction hn he).1
    unfold given
    by_cases hlast : p.isLast g (e.origin p.direction) = true
    · rw [if_pos hlast, hs.last _ hlt hlast]
    · rw [if_neg hlast, hr.output _ hlt (Bool.eq_false_iff.mpr hlast)]
  rw [hgiven, hr.input n hn]
  by_cases hlast : p.isLast g n = true
  · rw [if_pos hlast]
  · rw [if_neg hlast]
    have hinner := isInner_of_not_isLast hstart (Bool.eq_false_iff.mpr hlast)
    exact hs.taken n hn hinner (hidle ▸ List.not_mem_nil)

variable [DecidableEq φ]

/-- **In every result the input of a node that is no start node is the join of what the nodes
    before it give**, whatever the order of visits. -/
theorem inputAt_of_solveWithin (h : p.Bounded g) {order : VisitOrder} {memory memory' : σ}
    {allowance : Nat} {f : Facts φ}
    (hrun : p.solveWithin g order memory allowance = some (f, memory')) :
    f.direction = p.direction ∧ f.inputs.size = g.nodeCount ∧ f.outputs.size = g.nodeCount ∧
      ∀ n < g.nodeCount, g.isStart p.direction n = false →
        p.inputAt f n = p.joined g (p.given g f) n := by
  obtain ⟨t, hiter, hfinish⟩ := Option.map_eq_some_iff.mp hrun
  obtain ⟨ht, hstop⟩ := iterate_invariant
    (fun s next hs hv => by
      obtain ⟨n, v⟩ := moved_of_visit hs.inputs hs.outputs (fun n hn => (hs.pending n hn).1) hv
      exact v.taken h hs)
    (startState_taken order memory) hiter
  have hidle := Worklist.pending_of_pop?_none (Option.map_eq_none_iff.mp hstop)
  have hr := ht.finished h
  rw [hfinish] at hr
  exact ⟨hr.direction.trans ht.direction, hr.inputs.trans ht.inputs, hr.outputs.trans ht.outputs,
    fun n hn hstart => hr.inputAt_eq h ht hidle hn hstart⟩

end DataflowProblem

end ObjectFlow
