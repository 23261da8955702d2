/-
  File:      ObjectFlow/Proofs/Dataflow/Runs.lean
  Subject:   RUNS OF THE WORKLIST SOLVER ON PROBLEMS WHOSE TRANSFERS NEED NOT BE MONOTONE: what
             holds of all facts of a run, what bounds them, when a run ends and when it does not.

  * `steps`, `iterate_eq_none_of_cycle`: a run that comes back to a state never ends;
  * `Closed.of_solveWithin`: what computing a node keeps, all outputs of a run have;
  * `Closed.below`: a solution that takes in all that is computed from less bounds every run;
  * `exists_solveWithin_of_rising`: a run that lowers no output ends.
-/
import Mathlib.Data.DFinsupp.WellFounded
import ObjectFlow.Proofs.Dataflow.Equations

namespace ObjectFlow

/-! ## 1. Steps -/

section Steps

variable {σ : Type}

/-- The state `k` steps on, unless the step stops before. -/
def steps (step : σ → Option σ) : Nat → σ → Option σ
  | 0, s => some s
  | k + 1, s => (step s).bind (steps step k)

theorem steps_succ {step : σ → Option σ} (k : Nat) (s : σ) :
    steps step (k + 1) s = (steps step k s).bind step := by
  induction k generalizing s with
  | zero =>
    show (step s).bind (steps step 0) = step s
    cases step s <;> rfl
  | succ k ih =>
    show (step s).bind (steps step (k + 1)) = ((step s).bind (steps step k)).bind step
    rw [Option.bind_assoc]
    congr 1
    funext next
    exact ih next

/-- In a run of fewer than `n` steps it is enough to look at the first states. -/
theorem all_of_steps_eq_none {step : σ → Option σ} {s : σ} {n : Nat} {test : σ → Bool}
    (hall : ∀ k < n, (steps step k s).all test = true) (hstop : steps step n s = none) {k : Nat}
    {t : σ} (ht : steps step k s = some t) : test t = true := by
  have hnone : ∀ j, steps step (n + j) s = none := by
    intro j
    induction j with
    | zero => exact hstop
    | succ j ih => rw [← Nat.add_assoc, steps_succ, ih, Option.bind_none]
  have hk : k < n := by
    refine Nat.lt_of_not_le fun hle => ?_
    have hj := hnone (k - n)
    rw [Nat.add_sub_cancel' hle, ht] at hj
    cases hj
  have htest := hall k hk
  rw [ht] at htest
  exact htest

/-- **What comes back to a state never stops.** -/
theorem iterate_eq_none_of_cycle {step : σ → Option σ} {s : σ} {d : Nat}
    (hcycle : steps step (d + 1) s = some s) {k : Nat} {t : σ} (ht : steps step k t = some s)
    (n : Nat) : iterate step n t = none := by
  induction n generalizing k t with
  | zero => rfl
  | succ n ih =>
    -- from the state itself the next one is on the cycle, from any other it is on the way to it
    obtain ⟨next, j, hnext, hj⟩ : ∃ next j, step t = some next ∧ steps step j next = some s := by
      cases k with
      | zero =>
        cases ht
        obtain ⟨next, hnext, hd⟩ := Option.bind_eq_some_iff.mp hcycle
        exact ⟨next, d, hnext, hd⟩
      | succ k =>
        obtain ⟨next, hnext, hk⟩ := Option.bind_eq_some_iff.mp ht
        exact ⟨next, k, hnext, hk⟩
    rw [iterate_succ_of_some n hnext]
    exact ih hj

end Steps

namespace DataflowProblem

variable {κ φ σ : Type} {p : DataflowProblem κ φ σ} {g : FlowGraph κ} {transfer : Nat → φ → φ}
  {s t : State φ σ}

/-! ## 2. What all outputs have -/

/-- A property of outputs that facts start with and that computing a node keeps. -/
structure Closed (p : DataflowProblem κ φ σ) (g : FlowGraph κ) (transfer : Nat → φ → φ)
    (Q : Nat → φ → Prop) : Prop where
  boundary : ∀ n < g.nodeCount, g.isStart p.direction n = true → Q n (p.boundary n)
  initial : ∀ n < g.nodeCount, Q n p.initial
  node : ∀ output : Nat → φ, (∀ n < g.nodeCount, Q n (output n)) → ∀ n < g.nodeCount,
    g.isStart p.direction n = false → Q n (transfer n (p.joined g output n))

/-- All outputs have the property. -/
def Throughout (p : DataflowProblem κ φ σ) (g : FlowGraph κ) (Q : Nat → φ → Prop) (f : Facts φ) :
    Prop :=
  ∀ n < g.nodeCount, Q n (p.outputAt f n)

variable {Q : Nat → φ → Prop}

theorem Closed.startFacts (hc : Closed p g transfer Q) : Throughout p g Q (p.startFacts g) := by
  intro n hn
  rw [(startFacts_getD hn).2]
  by_cases hstart : g.isStart p.direction n = true
  · rw [if_pos hstart]
    exact hc.boundary n hn hstart
  · rw [if_neg hstart]
    exact hc.initial n hn

theorem Visited.throughout {n : Nat} (v : Visited p g transfer s t n)
    (hc : Closed p g transfer Q) (hs : Settled p g transfer s)
    (hq : Throughout p g Q s.facts) : Throughout p g Q t.facts := by
  intro m hm
  rw [v.output]
  by_cases hmn : m = n
  · subst hmn
    rw [if_pos rfl]
    have hinner := (hs.pending m v.pending).2
    exact hc.node _ hq m hm ((isInner_iff p.direction).mp hinner).1
  · rw [if_neg hmn]
    exact hq m hm

theorem Throughout.finish (hq : Throughout p g Q s.facts) (hc : Closed p g transfer Q)
    (h : p.Admissible g transfer) (hs : Settled p g transfer s) :
    Throughout p g Q (p.finish g s).1 := by
  obtain ⟨nodes, hnodes, hr⟩ := finish_recomputed (s := s) h hs.inputs hs.outputs
  intro n hn
  rw [hr.output]
  by_cases hmem : n ∈ nodes
  · rw [if_pos hmem]
    exact hc.node _ hq n hn ((hnodes n).mp hmem).2.2
  · rw [if_neg hmem]
    exact hq n hn

/-- **What computing a node keeps, all outputs of a result have.** -/
theorem Closed.of_solveWithin [DecidableEq φ] (hc : Closed p g transfer Q)
    (h : p.Admissible g transfer) {order : VisitOrder} {memory memory' : σ} {allowance : Nat}
    {f : Facts φ} (hrun : p.solveWithin g order memory allowance = some (f, memory')) :
    Throughout p g Q f := by
  obtain ⟨t, hiter, hfinish⟩ := Option.map_eq_some_iff.mp hrun
  obtain ⟨⟨hs, hq⟩, -⟩ := iterate_invariant
    (P := fun s => Settled p g transfer s ∧ Throughout p g Q s.facts)
    (fun s next ⟨hs, hq⟩ hv => by
      obtain ⟨hnext, n, v⟩ := visit_settled h hs hv
      exact ⟨hnext, v.throughout hc hs hq⟩)
    ⟨start_settled order memory, hc.startFacts⟩ hiter
  have hdone := hq.finish hc h hs
  rw [hfinish] at hdone
  exact hdone

theorem eq_of_getD_eq {a b : Array φ} (fallback : φ) (hsize : a.size = b.size)
    (h : ∀ n < a.size, a.getD n fallback = b.getD n fallback) : a = b := by
  refine Array.ext hsize fun n ha hb => ?_
  have hn := h n ha
  rw [Array.getD, Array.getD, dif_pos ha, dif_pos hb] at hn
  exact hn

/-- Solutions with the same facts at both sides of every node are the same. -/
theorem Solves.eq_of_sides {f f' : Facts φ} (hf : p.Solves g transfer f)
    (hf' : p.Solves g transfer f') (hinput : ∀ n < g.nodeCount, p.inputAt f n = p.inputAt f' n)
    (houtput : ∀ n < g.nodeCount, p.outputAt f n = p.outputAt f' n) : f = f' := by
  have hinputs := eq_of_getD_eq p.initial (hf.inputs.trans hf'.inputs.symm)
    fun n hn => hinput n (hf.inputs ▸ hn)
  have houtputs := eq_of_getD_eq p.initial (hf.outputs.trans hf'.outputs.symm)
    fun n hn => houtput n (hf.outputs ▸ hn)
  have hdirection := hf.direction.trans hf'.direction.symm
  cases f
  cases f'
  cases hinputs
  cases houtputs
  cases hdirection
  rfl

/-- Solutions with the same outputs are the same. -/
theorem Solves.ext {f f' : Facts φ} (hf : p.Solves g transfer f) (hf' : p.Solves g transfer f')
    (hg : g.Coherent) (h : ∀ n < g.nodeCount, p.outputAt f n = p.outputAt f' n) : f = f' := by
  refine hf.eq_of_sides hf' (fun n hn => ?_) h
  cases hstart : g.isStart p.direction n with
  | true => rw [(hf.boundary n hn hstart).1, (hf'.boundary n hn hstart).1]
  | false =>
    rw [hf.input n hn hstart, hf'.input n hn hstart]
    exact joined_congr fun e he => h _ (hg.mem_next p.direction hn he).1

/-! ## 3. Joins that keep an order -/

section Ordered

variable [Preorder φ] {P : φ → Prop}

/-- Joins and edges keep a property of facts, and the order of the facts that have it. -/
structure Regular (p : DataflowProblem κ φ σ) (P : φ → Prop) : Prop where
  initial : P p.initial
  least : ∀ a, p.initial ≤ a
  boundary : ∀ n, P (p.boundary n)
  join : ∀ {a b}, P a → P b → P (p.join a b)
  edge : ∀ {e a}, P a → P (p.transferEdge e a)
  left_le : ∀ {a b}, P b → a ≤ p.join a b
  right_le : ∀ {a b}, P b → b ≤ p.join a b
  join_le : ∀ {a a' b b'}, P b → P b' → a ≤ a' → b ≤ b' → p.join a b ≤ p.join a' b'
  edge_le : ∀ {e a b}, P a → P b → a ≤ b → p.transferEdge e a ≤ p.transferEdge e b

theorem Regular.foldl_join (hr : p.Regular P) {l : List φ} (hl : ∀ b ∈ l, P b) {a : φ} (ha : P a) :
    P (l.foldl p.join a) :=
  List.foldlRecOn l p.join ha fun _ hb c hc => hr.join hb (hl c hc)

theorem Regular.joined (hr : p.Regular P) (hg : g.Coherent) {output : Nat → φ}
    (h : ∀ n < g.nodeCount, P (output n)) {n : Nat} (hn : n < g.nodeCount) :
    P (p.joined g output n) := by
  refine hr.foldl_join (fun b hb => ?_) hr.initial
  obtain ⟨e, he, rfl⟩ := List.mem_map.mp hb
  exact hr.edge (h _ (hg.mem_next p.direction hn he).1)

theorem Regular.le_foldl_join (hr : p.Regular P) {l : List φ} (hl : ∀ b ∈ l, P b) {a b : φ}
    (h : b ≤ a ∨ b ∈ l) : b ≤ l.foldl p.join a := by
  induction l generalizing a with
  | nil => exact h.resolve_right List.not_mem_nil
  | cons c l ih =>
    have hc := hl c List.mem_cons_self
    refine ih (fun d hd => hl d (List.mem_cons_of_mem c hd)) ?_
    rcases h with h | h
    · exact .inl (h.trans (hr.left_le hc))
    · rcases List.mem_cons.mp h with rfl | h
      · exact .inl (hr.right_le hc)
      · exact .inr h

/-- **What arrives over an edge is below what arrives at the node.** -/
theorem Regular.le_joined (hr : p.Regular P) (hg : g.Coherent) {output : Nat → φ}
    (h : ∀ n < g.nodeCount, P (output n)) {n : Nat} (hn : n < g.nodeCount) {e : FlowEdge κ}
    (he : e ∈ g.arriving p.direction n) :
    p.transferEdge e (output (e.origin p.direction)) ≤ p.joined g output n := by
  refine hr.le_foldl_join (fun b hb => ?_) (.inr (List.mem_map_of_mem he))
  obtain ⟨e', he', rfl⟩ := List.mem_map.mp hb
  exact hr.edge (h _ (hg.mem_next p.direction hn he').1)

theorem Regular.foldl_join_le (hr : p.Regular P) {α : Type} {l : List α} {x y : α → φ}
    (hx : ∀ e ∈ l, P (x e)) (hy : ∀ e ∈ l, P (y e)) (h : ∀ e ∈ l, x e ≤ y e) {a b : φ}
    (hab : a ≤ b) : (l.map x).foldl p.join a ≤ (l.map y).foldl p.join b := by
  induction l generalizing a b with
  | nil => exact hab
  | cons e l ih =>
    have htail := fun {Q : α → Prop} (hQ : ∀ e' ∈ e :: l, Q e') (e' : α) (he' : e' ∈ l) =>
      hQ e' (List.mem_cons_of_mem e he')
    rw [List.map_cons, List.map_cons, List.foldl_cons, List.foldl_cons]
    exact ih (htail hx) (htail hy) (htail h) (hr.join_le (hx e List.mem_cons_self)
      (hy e List.mem_cons_self) hab (h e List.mem_cons_self))

/-- **What arrives at a node rises with the outputs.** -/
theorem Regular.joined_le (hr : p.Regular P) (hg : g.Coherent) {output output' : Nat → φ}
    (hp : ∀ n < g.nodeCount, P (output n)) (hp' : ∀ n < g.nodeCount, P (output' n))
    (h : ∀ n < g.nodeCount, output n ≤ output' n) {n : Nat} (hn : n < g.nodeCount) :
    p.joined g output n ≤ p.joined g output' n := by
  have horigin := fun e he => (hg.mem_next (e := e) p.direction hn he).1
  exact hr.foldl_join_le (fun e he => hr.edge (hp _ (horigin e he)))
    (fun e he => hr.edge (hp' _ (horigin e he)))
    (fun e he => hr.edge_le (hp _ (horigin e he)) (hp' _ (horigin e he)) (h _ (horigin e he)))
    (le_refl p.initial)

/-- Transfers keep the property. -/
theorem Regular.closed (hr : p.Regular P) (hg : g.Coherent)
    (hnode : ∀ n a, P a → P (transfer n a)) : Closed p g transfer fun _ => P where
  boundary n _ _ := hr.boundary n
  initial _ _ := hr.initial
  node _ h n hn _ := hnode n _ (hr.joined hg h hn)

/-- **A solution that takes in all that its nodes compute from less bounds every run.** -/
theorem Closed.below (hr : p.Regular P) (hg : g.Coherent)
    (hnode : ∀ n a, P a → P (transfer n a)) {f : Facts φ} (hf : p.Solves g transfer f)
    (hp : Throughout p g (fun _ => P) f)
    (hle : ∀ n < g.nodeCount, g.isStart p.direction n = false → ∀ a, P a → a ≤ p.inputAt f n →
      transfer n a ≤ transfer n (p.inputAt f n)) :
    Closed p g transfer fun n a => P a ∧ a ≤ p.outputAt f n where
  boundary n hn hstart := ⟨hr.boundary n, by rw [(hf.boundary n hn hstart).2]⟩
  initial n _ := ⟨hr.initial, hr.least _⟩
  node output h n hn hstart := by
    have harrives := hr.joined hg (fun m hm => (h m hm).1) hn
    refine ⟨hnode n _ harrives, ?_⟩
    rw [hf.output n hn hstart]
    refine hle n hn hstart _ harrives ?_
    rw [hf.input n hn hstart]
    exact hr.joined_le hg (fun m hm => (h m hm).1) hp (fun m hm => (h m hm).2) hn

/-! ## 4. Runs that lower no output -/

/-- Every inner node holds what it computed from an input that has at most risen since. -/
def Tracked (p : DataflowProblem κ φ σ) (g : FlowGraph κ) (transfer : Nat → φ → φ) (f : Facts φ) :
    Prop :=
  ∀ n < g.nodeCount, isInner g n = true → p.outputAt f n = p.initial ∨
    (p.outputAt f n = transfer n (p.inputAt f n) ∧
      p.inputAt f n ≤ p.joined g (p.outputAt f) n)

theorem startFacts_tracked : Tracked p g transfer (p.startFacts g) := by
  intro n hn hinner
  left
  rw [(startFacts_getD hn).2, ((isInner_iff p.direction).mp hinner).1, if_neg Bool.false_ne_true]

theorem Visited.tracked {n : Nat} (v : Visited p g transfer s t n) (hr : p.Regular P)
    (hg : g.Coherent) (hs : Throughout p g (fun _ => P) s.facts)
    (ht : Throughout p g (fun _ => P) t.facts)
    (hrises : p.outputAt s.facts n ≤ p.outputAt t.facts n)
    (htracked : Tracked p g transfer s.facts) : Tracked p g transfer t.facts := by
  have hle : ∀ m < g.nodeCount, p.outputAt s.facts m ≤ p.outputAt t.facts m := by
    intro m _
    by_cases hmn : m = n
    · rw [hmn]
      exact hrises
    · rw [v.output, if_neg hmn]
  intro m hm hinner
  have harrives := hr.joined_le hg hs ht hle hm
  by_cases hmn : m = n
  · subst hmn
    right
    rw [v.output, v.input, if_pos rfl, if_pos rfl]
    exact ⟨rfl, harrives⟩
  · rw [v.input, if_neg hmn, show p.outputAt t.facts m = p.outputAt s.facts m by
      rw [v.output, if_neg hmn]]
    refine (htracked m hm hinner).imp_right fun ⟨hout, hin⟩ => ⟨hout, hin.trans harrives⟩

end Ordered

/-- What decreases from visit to visit: what is seen of the outputs, upside down, and then the
    pending nodes. -/
def DescendsBy {ψ : Type} [PartialOrder ψ] (view : φ → ψ) (p : DataflowProblem κ φ σ)
    (g : FlowGraph κ) : State φ σ → State φ σ → Prop :=
  InvImage (Prod.Lex (· > ·) (· < ·)) fun s =>
    ((fun n : Fin g.nodeCount => view (p.outputAt s.facts n)), s.worklist.pending.length)

theorem descendsBy_wellFounded {ψ : Type} [PartialOrder ψ] [WellFoundedGT ψ] (view : φ → ψ) :
    WellFounded (DescendsBy view p g) := by
  have hdual : WellFoundedLT (Fin g.nodeCount → ψᵒᵈ) := inferInstance
  have hup : WellFounded fun x y : Fin g.nodeCount → ψ => x > y := hdual.wf
  exact InvImage.wf _ (WellFounded.prod_lex hup Nat.lt_wfRel.wf)

theorem Visited.descendsBy {ψ : Type} [PartialOrder ψ] {view : φ → ψ} {n : Nat}
    (v : Visited p g transfer s t n) (hs : Settled p g transfer s)
    (hrises : p.outputAt t.facts n ≠ p.outputAt s.facts n →
      view (p.outputAt s.facts n) < view (p.outputAt t.facts n)) : DescendsBy view p g t s := by
  show Prod.Lex _ _ (_, _) (_, _)
  have hother : ∀ m, m ≠ n → p.outputAt t.facts m = p.outputAt s.facts m := by
    intro m hmn
    rw [v.output, if_neg hmn]
  rcases v.woken with ⟨hsame, hshorter⟩ | ⟨hchanged, -⟩
  · have hnode : p.outputAt t.facts n = p.outputAt s.facts n := by
      rw [v.output, if_pos rfl, hsame]
    have heq : (fun m : Fin g.nodeCount => view (p.outputAt t.facts m)) =
        fun m : Fin g.nodeCount => view (p.outputAt s.facts m) := by
      funext m
      by_cases hmn : (m : Nat) = n
      · rw [hmn, hnode]
      · rw [hother m hmn]
    rw [heq]
    exact Prod.Lex.right _ hshorter
  · -- the visited node rises, and no other node moves
    have hlt := hrises (by rw [v.output, if_pos rfl]; exact hchanged)
    refine Prod.Lex.left _ _ (Pi.lt_def.mpr ⟨fun m => ?_, ⟨n, (hs.pending n v.pending).1⟩, hlt⟩)
    by_cases hmn : (m : Nat) = n
    · show view (p.outputAt s.facts m) ≤ view (p.outputAt t.facts m)
      rw [hmn]
      exact hlt.le
    · exact le_of_eq (congrArg view (hother m hmn).symm)

variable [DecidableEq φ]

/-- The states of a run. -/
def Reached (p : DataflowProblem κ φ σ) (g : FlowGraph κ) (order : VisitOrder) (memory : σ)
    (s : State φ σ) : Prop :=
  ∃ k, steps (p.visit g) k (p.startState g order memory) = some s

theorem Reached.visit {order : VisitOrder} {memory : σ} (h : Reached p g order memory s)
    (hv : p.visit g s = some t) : Reached p g order memory t := by
  obtain ⟨k, hk⟩ := h
  refine ⟨k + 1, ?_⟩
  rw [steps_succ, hk]
  exact hv

/-- **A run ends if every visit that changes an output raises what is seen of it** in an order
    without infinite ascent. -/
theorem exists_solveWithin_of_rising {ψ : Type} [PartialOrder ψ] [WellFoundedGT ψ] (view : φ → ψ)
    (h : p.Admissible g transfer) (order : VisitOrder) (memory : σ) {I : State φ σ → Prop}
    (hstart : I (p.startState g order memory))
    (hstep : ∀ s t n, Reached p g order memory s → I s → Settled p g transfer s →
      p.visit g s = some t → Visited p g transfer s t n →
      I t ∧ (p.outputAt t.facts n ≠ p.outputAt s.facts n →
        view (p.outputAt s.facts n) < view (p.outputAt t.facts n))) :
    ∃ n r, ∀ allowance, n ≤ allowance → p.solveWithin g order memory allowance = some r := by
  obtain ⟨n, t, ht⟩ := exists_iterate_of_wellFounded
    (P := fun s => Reached p g order memory s ∧ I s ∧ Settled p g transfer s)
    (descendsBy_wellFounded (p := p) (g := g) view)
    (fun s next ⟨hreached, hi, hs⟩ hv => by
      obtain ⟨hnext, n, v⟩ := visit_settled h hs hv
      obtain ⟨hi', hrises⟩ := hstep s next n hreached hi hs hv v
      exact ⟨⟨hreached.visit hv, hi', hnext⟩, v.descendsBy hs hrises⟩)
    ⟨⟨0, rfl⟩, hstart, start_settled order memory⟩
  refine ⟨n, p.finish g t, fun allowance hle => ?_⟩
  unfold solveWithin
  rw [ht allowance hle]
  rfl

end DataflowProblem

end ObjectFlow
