/-
  File:      ObjectFlow/Proofs/Dataflow/LeastSolution.lean
  Subject:   MONOTONE PROBLEMS OVER LATTICES WITHOUT INFINITE ASCENT: the worklist solver stops,
             and its result is the least solution of the flow equations.

  * `IsMonotone.regular`: joins and edges keep the order of all facts, so every solution bounds
    every run;
  * `Rising`: outputs stay below what their nodes would compute, so visits only raise them;
  * `solves_and_reaches_least`: every order of visits computes the same, least solution.
-/
import Mathlib.Order.Lattice
import ObjectFlow.Proofs.Dataflow.Runs

namespace ObjectFlow

namespace DataflowProblem

variable {κ φ σ : Type}

/-! ## 1. Monotone problems -/

/-- Facts are joined as in a semilattice, and both transfers are monotone. -/
structure IsMonotone [SemilatticeSup φ] [OrderBot φ] (p : DataflowProblem κ φ σ)
    (transfer : Nat → φ → φ) : Prop where
  join : ∀ a b, p.join a b = a ⊔ b
  initial : p.initial = ⊥
  edge : ∀ e, Monotone (p.transferEdge e)
  node : ∀ n, Monotone (transfer n)

/-- The one facts are below the other at both sides of every node. -/
def Below [LE φ] (p : DataflowProblem κ φ σ) (g : FlowGraph κ) (f f' : Facts φ) : Prop :=
  ∀ n < g.nodeCount, p.inputAt f n ≤ p.inputAt f' n ∧ p.outputAt f n ≤ p.outputAt f' n

/-- **The least solution** of the flow equations. -/
structure SolvesLeast [LE φ] (p : DataflowProblem κ φ σ) (g : FlowGraph κ)
    (transfer : Nat → φ → φ) (f : Facts φ) : Prop where
  solves : p.Solves g transfer f
  least : ∀ f', p.Solves g transfer f' → p.Below g f f'

variable {p : DataflowProblem κ φ σ} {g : FlowGraph κ} {transfer : Nat → φ → φ} {s t : State φ σ}

/-- There is at most one least solution. -/
theorem SolvesLeast.unique [PartialOrder φ] {f f' : Facts φ} (hf : p.SolvesLeast g transfer f)
    (hf' : p.SolvesLeast g transfer f') : f = f' := by
  have hle := hf.least f' hf'.solves
  have hge := hf'.least f hf.solves
  exact hf.solves.eq_of_sides hf'.solves (fun n hn => le_antisymm (hle n hn).1 (hge n hn).1)
    fun n hn => le_antisymm (hle n hn).2 (hge n hn).2

section Lattice

variable [SemilatticeSup φ]

/-! ## 2. Outputs rise -/

/-- No inner node has more for output than it would compute. -/
def Rising (p : DataflowProblem κ φ σ) (g : FlowGraph κ) (transfer : Nat → φ → φ) (f : Facts φ) :
    Prop :=
  ∀ n < g.nodeCount, isInner g n = true →
    p.outputAt f n ≤ transfer n (p.joined g (p.outputAt f) n)

theorem Visited.output_le {n : Nat} (v : Visited p g transfer s t n)
    (hs : Settled p g transfer s) (hr : Rising p g transfer s.facts) (m : Nat) :
    p.outputAt s.facts m ≤ p.outputAt t.facts m := by
  rw [v.output]
  by_cases hmn : m = n
  · rw [if_pos hmn, hmn]
    obtain ⟨hlt, hinner⟩ := hs.pending n v.pending
    exact hr n hlt hinner
  · rw [if_neg hmn]

/-! ## 3. Monotone transfers -/

variable [OrderBot φ]

/-- Monotone problems keep the order of all facts. -/
theorem IsMonotone.regular (hm : p.IsMonotone transfer) : p.Regular fun _ => True where
  initial := trivial
  least a := hm.initial ▸ bot_le
  boundary _ := trivial
  join _ _ := trivial
  edge _ := trivial
  left_le {a b} _ := hm.join a b ▸ le_sup_left
  right_le {a b} _ := hm.join a b ▸ le_sup_right
  join_le _ _ h h' := by
    rw [hm.join, hm.join]
    exact sup_le_sup h h'
  edge_le _ _ h := hm.edge _ h

/-- **What arrives at a node is monotone in the outputs.** -/
theorem joined_mono (hm : p.IsMonotone transfer) (hg : g.Coherent) {output output' : Nat → φ}
    (h : ∀ n < g.nodeCount, output n ≤ output' n) {n : Nat} (hn : n < g.nodeCount) :
    p.joined g output n ≤ p.joined g output' n :=
  hm.regular.joined_le hg (fun _ _ => trivial) (fun _ _ => trivial) h hn

theorem start_rising (hm : p.IsMonotone transfer) : Rising p g transfer (p.startFacts g) := by
  intro n hn hinner
  have hstart := ((isInner_iff p.direction).mp hinner).1
  rw [(startFacts_getD hn).2, hstart, if_neg Bool.false_ne_true, hm.initial]
  exact bot_le

theorem Visited.rising {n : Nat} (v : Visited p g transfer s t n) (hm : p.IsMonotone transfer)
    (hg : g.Coherent) (hs : Settled p g transfer s) (hr : Rising p g transfer s.facts) :
    Rising p g transfer t.facts := by
  intro m hlt hinner
  have harrives : transfer m (p.joined g (p.outputAt s.facts) m) ≤
      transfer m (p.joined g (p.outputAt t.facts) m) :=
    hm.node m (joined_mono hm hg (fun k _ => v.output_le hs hr k) hlt)
  refine le_trans ?_ harrives
  rw [v.output]
  by_cases hmn : m = n
  · rw [if_pos hmn, hmn]
  · rw [if_neg hmn]
    exact hr m hlt hinner

/-- Between solutions, order of the outputs is order of all facts. -/
theorem Solves.below {f f' : Facts φ} (hf : p.Solves g transfer f) (hf' : p.Solves g transfer f')
    (hm : p.IsMonotone transfer) (hg : g.Coherent)
    (h : ∀ n < g.nodeCount, p.outputAt f n ≤ p.outputAt f' n) : p.Below g f f' := by
  intro n hn
  refine ⟨?_, h n hn⟩
  cases hstart : g.isStart p.direction n with
  | true => rw [(hf.boundary n hn hstart).1, (hf'.boundary n hn hstart).1]
  | false =>
    rw [hf.input n hn hstart, hf'.input n hn hstart]
    exact joined_mono hm hg h hn

/-! ## 4. The solver -/

variable [DecidableEq φ]

/-- **Every result of a monotone problem is the least solution.** -/
theorem solvesLeast_of_solveWithin (h : p.Admissible g transfer) (hm : p.IsMonotone transfer)
    {order : VisitOrder} {memory memory' : σ} {allowance : Nat} {f : Facts φ}
    (hrun : p.solveWithin g order memory allowance = some (f, memory')) :
    p.SolvesLeast g transfer f := by
  have hsolves := solves_of_solveWithin h hrun
  refine ⟨hsolves, fun f' hf' => hsolves.below hf' hm h.coherent fun n hn => ?_⟩
  -- what is below a solution stays below it, because monotone nodes give less of less
  have hbelow : Closed p g transfer fun n a => True ∧ a ≤ p.outputAt f' n :=
    .below hm.regular h.coherent (fun _ _ _ => trivial) hf' (fun _ _ => trivial)
      fun n _ _ _ _ hle => hm.node n hle
  exact (hbelow.of_solveWithin h hrun n hn).2

/-- **Without infinite ascent the solver stops**, whatever the order of visits. -/
theorem exists_solveWithin [WellFoundedGT φ] (h : p.Admissible g transfer)
    (hm : p.IsMonotone transfer) (order : VisitOrder) (memory : σ) :
    ∃ n r, ∀ allowance, n ≤ allowance → p.solveWithin g order memory allowance = some r :=
  exists_solveWithin_of_rising id h order memory (start_rising hm) fun _ _ n _ hr hs _ v =>
    ⟨v.rising hm h.coherent hs hr, fun hne => lt_of_le_of_ne (v.output_le hs hr n) hne.symm⟩

end Lattice

/-! ## 5. Every problem, every order -/

/-- **The solver is right for every problem and every order of visits.** Where it stops, the flow
    equations hold. Where facts are joined in a semilattice without infinite ascent and both
    transfers are monotone, it stops, at the least solution and so at the same facts in every
    order. -/
theorem solves_and_reaches_least [DecidableEq φ] {p : DataflowProblem κ φ σ} {g : FlowGraph κ}
    {transfer : Nat → φ → φ} (h : p.Admissible g transfer) :
    (∀ order memory allowance f memory',
      p.solveWithin g order memory allowance = some (f, memory') → p.Solves g transfer f) ∧
    ∀ [SemilatticeSup φ] [OrderBot φ] [WellFoundedGT φ], p.IsMonotone transfer →
      ∀ memory, ∃ f, p.SolvesLeast g transfer f ∧
        ∀ order, ∃ n, ∀ allowance, n ≤ allowance →
          ∃ memory', p.solveWithin g order memory allowance = some (f, memory') := by
  refine ⟨fun order memory allowance f memory' hrun => solves_of_solveWithin h hrun, ?_⟩
  intro _ _ _ hm memory
  obtain ⟨n, ⟨f, memory'⟩, hrun⟩ := exists_solveWithin h hm .fifo memory
  have hleast := solvesLeast_of_solveWithin h hm (hrun n (Nat.le_refl n))
  refine ⟨f, hleast, fun order => ?_⟩
  obtain ⟨k, ⟨f', memory''⟩, hrun'⟩ := exists_solveWithin h hm order memory
  have hsame := (solvesLeast_of_solveWithin h hm (hrun' k (Nat.le_refl k))).unique hleast
  subst hsame
  exact ⟨k, fun allowance hk => ⟨memory'', hrun' allowance hk⟩⟩

/-- A way in, a loop of two nodes, a way out, and a node beside them that leads to itself. -/
def loop : FlowGraph Unit :=
  .ofEdges 5 [⟨0, 1, ()⟩, ⟨1, 2, ()⟩, ⟨2, 1, ()⟩, ⟨2, 3, ()⟩, ⟨4, 4, ()⟩] (· == 0) (· == 3)

/-- Which nodes the entry reaches. -/
def reached : DataflowProblem Unit Bool Unit where
  direction := .forward
  initial := false
  join := (· || ·)
  boundary _ := true
  transferNode _ fact _ := (fact, ())

/-- The node beside the loop could hold either fact, and holds the least one. -/
theorem solves_and_reaches_least_loop :
    ∃ f, reached.SolvesLeast loop (fun _ fact => fact) f ∧
      f.outputs = #[true, true, true, true, false] ∧
      ∀ order, ∃ n, ∀ allowance, n ≤ allowance →
        ∃ memory, reached.solveWithin loop order () allowance = some (f, memory) := by
  have hadmissible : reached.Admissible loop fun _ fact => fact := by
    refine ⟨fun _ _ _ => rfl, fun _ => rfl, FlowGraph.coherent_ofEdges _ _ (by decide), ?_⟩
    decide +kernel
  have hmonotone : reached.IsMonotone fun _ fact => fact :=
    ⟨fun _ _ => rfl, rfl, fun _ => monotone_id, fun _ => monotone_id⟩
  obtain ⟨f, hleast, hruns⟩ := (solves_and_reaches_least hadmissible).2 hmonotone ()
  have hrun : ((reached.solveWithin loop .lifo () 20).map fun r => r.1.outputs) =
      some #[true, true, true, true, false] := by
    decide +kernel
  obtain ⟨⟨f', _⟩, hrun', houtputs⟩ := Option.map_eq_some_iff.mp hrun
  have hsame := (solvesLeast_of_solveWithin hadmissible hmonotone hrun').unique hleast
  subst hsame
  exact ⟨f', hleast, houtputs, hruns⟩

end DataflowProblem

end ObjectFlow
