/-
  File:      ObjectFlow/Proofs/Dataflow/Remembering.lean
  Subject:   NO OUTPUT IS STALE WHERE THE WORKLIST SOLVER STOPS, though node transfers read what other
             nodes left in a memory.

  A node that leaves something in the memory is visited whenever its input changes, and it passes
  its input on; so what it left changes only together with its output, and then the nodes that
  read it are made pending.

  * `Consults`: how the nodes of a problem use its memory;
  * `Current`: the invariant that the output of every inner node that is not pending is what it
    would compute from its input and the memory as it is now;
  * `current_of_visit`: a visit keeps the invariant;
  * `current_of_solveWithin`: so it holds of every result, with what the final inputs leave in the
    memory.
-/
import ObjectFlow.Proofs.Dataflow.Inputs

namespace ObjectFlow

namespace DataflowProblem

variable {κ φ σ ρ : Type}

/-! ## 1. Memories -/

/-- **How nodes use the memory**: `held` is what the memory holds of a node, `note` what a node
    leaves there for an input. Only nodes with dependents leave something, for their dependents to
    read, and they pass their input on. -/
structure Consults (p : DataflowProblem κ φ σ) (held : σ → Nat → ρ) (note : Nat → φ → ρ) :
    Prop where
  noted : ∀ n, p.dependents n ≠ [] → ∀ fact memory,
    held (p.transferNode n fact memory).2 n = note n fact
  kept : ∀ n fact memory m, m ≠ n →
    held (p.transferNode n fact memory).2 m = held memory m
  passed : ∀ n, p.dependents n ≠ [] → ∀ fact memory, (p.transferNode n fact memory).1 = fact
  read : ∀ n fact memory memory', (∀ k, n ∈ p.dependents k → held memory k = held memory' k) →
    (p.transferNode n fact memory).1 = (p.transferNode n fact memory').1

variable {p : DataflowProblem κ φ σ} {g : FlowGraph κ} {held : σ → Nat → ρ}
  {note : Nat → φ → ρ} {s t : State φ σ}

/-- Every node with dependents is an inner node of the graph. -/
def Recorders (p : DataflowProblem κ φ σ) (g : FlowGraph κ) : Prop :=
  ∀ n, p.dependents n ≠ [] → n < g.nodeCount ∧ isInner g n = true

/-- **The memory holds what the inputs leave there, and no output that is not pending is stale.** -/
structure Current (p : DataflowProblem κ φ σ) (g : FlowGraph κ) (held : σ → Nat → ρ)
    (note : Nat → φ → ρ) (s : State φ σ) : Prop where
  taken : Taken p g s
  noted : ∀ n, p.dependents n ≠ [] → held s.memory n = note n (p.inputAt s.facts n)
  passed : ∀ n, p.dependents n ≠ [] → p.outputAt s.facts n = p.inputAt s.facts n
  current : ∀ n < g.nodeCount, isInner g n = true → ¬ n ∈ s.worklist.pending →
    p.outputAt s.facts n = (p.transferNode n (p.inputAt s.facts n) s.memory).1

theorem start_current (hr : Recorders p g) (order : VisitOrder) {memory : σ}
    (hmemory : ∀ n, p.dependents n ≠ [] → held memory n = note n p.initial) :
    Current p g held note (p.startState g order memory) := by
  have hsettled : Settled p g (fun _ fact => fact) (p.startState g order memory) :=
    start_settled order memory
  have hinitial : ∀ n, p.dependents n ≠ [] →
      p.inputAt (p.startState g order memory).facts n = p.initial ∧
        p.outputAt (p.startState g order memory).facts n = p.initial := by
    intro n hn
    obtain ⟨hlt, hinner⟩ := hr n hn
    have hfacts := startFacts_getD (p := p) hlt
    rw [((isInner_iff p.direction).mp hinner).1, if_neg Bool.false_ne_true] at hfacts
    exact hfacts
  refine ⟨startState_taken order memory, fun n hn => ?_, fun n hn => ?_,
    fun n hn hinner hnot => ?_⟩
  · rw [(hinitial n hn).1]
    exact hmemory n hn
  · rw [(hinitial n hn).1, (hinitial n hn).2]
  · -- all inner nodes are pending at first
    refine absurd ?_ hnot
    unfold startState
    simp only
    rw [Worklist.mem_pending_pushAll]
    right
    cases p.direction <;> simp [FlowGraph.nodes, hn, hinner]

/-! ## 2. One visit -/

variable [DecidableEq φ]

/-- What a visit leaves in the memory, and which nodes it makes pending for that. -/
theorem memory_of_pop? {n : Nat} {rest : Worklist} (hpop : s.worklist.pop? = some (n, rest))
    (hv : p.visit g s = some t) :
    t.memory = (p.transferNode n (p.joined g (p.outputAt s.facts) n) s.memory).2 ∧
      ((p.transferNode n (p.joined g (p.outputAt s.facts) n) s.memory).1 ≠ p.outputAt s.facts n →
        ∀ m ∈ p.dependents n, m ∈ t.worklist.pending) := by
  unfold visit at hv
  rw [hpop, Option.map_some, Option.some.injEq] at hv
  simp only [arrived_eq] at hv
  split at hv
  · rename_i hsame
    subst hv
    exact ⟨rfl, fun hne => absurd hsame hne⟩
  · subst hv
    exact ⟨rfl, fun _ m hm => mem_pending_woken.mpr (.inr (.inr hm))⟩

/-- **A visit keeps the invariant.** -/
theorem current_of_visit (h : p.Bounded g) (hc : p.Consults held note)
    (hs : Current p g held note s) (hv : p.visit g s = some t) :
    Current p g held note t := by
  obtain ⟨⟨n, rest⟩, hpop, -⟩ := Option.map_eq_some_iff.mp hv
  have v := moved_of_pop? hs.taken.inputs hs.taken.outputs
    (fun m hm => (hs.taken.pending m hm).1) hpop hv
  obtain ⟨hmemory, hwoken⟩ := memory_of_pop? hpop hv
  have hnoted : ∀ k, p.dependents k ≠ [] → held t.memory k = note k (p.inputAt t.facts k) := by
    intro k hk
    rw [hmemory, v.input]
    by_cases hkn : k = n
    · subst hkn
      rw [if_pos rfl, hc.noted k hk]
    · rw [if_neg hkn, hc.kept n _ _ k hkn, hs.noted k hk]
  -- where a node is not made pending, what it reads is what it was
  have hunchanged : ∀ m, ¬ m ∈ t.worklist.pending → ∀ k, m ∈ p.dependents k →
      held t.memory k = held s.memory k := by
    intro m hm k hk
    have hne : p.dependents k ≠ [] := List.ne_nil_of_mem hk
    by_cases hkn : k = n
    · subst hkn
      have hsame : (p.transferNode k (p.joined g (p.outputAt s.facts) k) s.memory).1 =
          p.outputAt s.facts k :=
        Classical.byContradiction fun hchanged => hm (hwoken hchanged m hk)
      rw [hc.passed k hne, hs.passed k hne] at hsame
      rw [hmemory, hc.noted k hne, hs.noted k hne, hsame]
    · rw [hmemory, hc.kept n _ _ k hkn]
  refine ⟨v.taken h hs.taken, hnoted, fun k hk => ?_, fun m hm hinner hnot => ?_⟩
  · rw [v.output, v.input]
    by_cases hkn : k = n
    · subst hkn
      rw [if_pos rfl, if_pos rfl, hc.passed k hk]
    · rw [if_neg hkn, if_neg hkn, hs.passed k hk]
  · rw [hc.read m _ t.memory s.memory (hunchanged m hnot), v.output, v.input]
    by_cases hmn : m = n
    · subst hmn
      rw [if_pos rfl, if_pos rfl]
    · rw [if_neg hmn, if_neg hmn]
      refine hs.current m hm hinner fun hpending => ?_
      exact (v.left m hpending).elim hmn hnot

/-! ## 3. Results -/

/-- **In every result no output is stale**: some memory holds what the inputs leave there, and every
    inner node has for output what it computes from its input and that memory. -/
theorem current_of_solveWithin (h : p.Bounded g) (hr : Recorders p g)
    (hc : p.Consults held note) {order : VisitOrder} {memory memory' : σ} {allowance : Nat}
    {f : Facts φ} (hmemory : ∀ n, p.dependents n ≠ [] → held memory n = note n p.initial)
    (hrun : p.solveWithin g order memory allowance = some (f, memory')) :
    ∃ final, (∀ n, p.dependents n ≠ [] → held final n = note n (p.inputAt f n)) ∧
      ∀ n < g.nodeCount, isInner g n = true →
        p.outputAt f n = (p.transferNode n (p.inputAt f n) final).1 := by
  obtain ⟨last, hiter, hfinish⟩ := Option.map_eq_some_iff.mp hrun
  obtain ⟨hlast, hstop⟩ := iterate_invariant (fun s next hs hv => current_of_visit h hc hs hv)
    (start_current hr order hmemory) hiter
  have hidle := Worklist.pending_of_pop?_none (Option.map_eq_none_iff.mp hstop)
  have hfinished := hlast.taken.finished h
  rw [hfinish] at hfinished
  -- the finish node is no inner node, so what is said of inner nodes is said of the result
  have hkept : ∀ n < g.nodeCount, isInner g n = true →
      p.inputAt f n = p.inputAt last.facts n ∧ p.outputAt f n = p.outputAt last.facts n := by
    intro n hn hinner
    have hnot : p.isLast g n = false := by
      unfold isLast
      rw [((isInner_iff p.direction).mp hinner).2, Bool.false_and]
    have hinput := hfinished.input n hn
    rw [hnot, if_neg Bool.false_ne_true] at hinput
    exact ⟨hinput, hfinished.output n hn hnot⟩
  refine ⟨last.memory, fun n hn => ?_, fun n hn hinner => ?_⟩
  · obtain ⟨hlt, hinner⟩ := hr n hn
    rw [(hkept n hlt hinner).1]
    exact hlast.noted n hn
  · rw [(hkept n hn hinner).1, (hkept n hn hinner).2]
    exact hlast.current n hn hinner (hidle ▸ List.not_mem_nil)

end DataflowProblem

end ObjectFlow
