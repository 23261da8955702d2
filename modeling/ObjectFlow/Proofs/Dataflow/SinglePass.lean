/-
  File:      ObjectFlow/Proofs/Dataflow/SinglePass.lean
  Subject:   IN REVERSE POST-ORDER A GRAPH WITHOUT CYCLES IS SOLVED IN A SINGLE PASS.

  Without cycles the rank ascends along every edge. The pending node of least rank is visited
  next, so what it makes pending is pending already and no node is visited again.

  * `DataflowProblem.logged`: the problem that writes down which nodes are computed;
  * `Sweeping`: every inner node is either written down or pending, and those written down have
    no higher rank than those pending;
  * `visit_sweeps`, `sweep_ends`: one visit, and all of them;
  * `ranks_ascend_and_sweep_once`: ranks, edges and the single pass.
-/
import ObjectFlow.Proofs.Dataflow.Equations
import ObjectFlow.Proofs.Graph.PostOrder

namespace ObjectFlow

/-! ## 1. Worklists -/

namespace Worklist

/-- No node has a lower key than the one taken. -/
theorem leastBy_le {key : Nat → Nat} {l : List Nat} {n : Nat} (h : leastBy key l = some n) :
    ∀ m ∈ l, key n ≤ key m := by
  induction l generalizing n with
  | nil => cases h
  | cons a l ih =>
    intro m hm
    unfold leastBy at h
    cases hl : leastBy key l with
    | none =>
      rw [hl] at h
      cases h
      rw [leastBy_eq_none hl] at hm
      exact Nat.le_of_eq (congrArg key (List.mem_singleton.mp hm).symm)
    | some b =>
      rw [hl] at h
      simp only at h
      have hb := ih hl
      split at h
      · cases h
        rcases List.mem_cons.mp hm with rfl | hm
        · omega
        · exact hb m hm
      · cases h
        rcases List.mem_cons.mp hm with rfl | hm
        · exact Nat.le_refl _
        · have := hb m hm
          omega

/-- Taking a node leaves the order and the ranks. -/
theorem kept_of_pop? {w rest : Worklist} {n : Nat} (h : w.pop? = some (n, rest)) :
    rest.order = w.order ∧ rest.ranks = w.ranks := by
  obtain ⟨_, -, heq⟩ := Option.map_eq_some_iff.mp h
  cases heq
  exact ⟨rfl, rfl⟩

/-- **In reverse post-order a pending node of least rank is taken.** -/
theorem rank_le_of_pop? {w rest : Worklist} {n : Nat} (horder : w.order = .reversePostOrder)
    (h : w.pop? = some (n, rest)) : ∀ m ∈ w.pending, w.rank n ≤ w.rank m := by
  obtain ⟨_, hpeek, heq⟩ := Option.map_eq_some_iff.mp h
  cases heq
  rw [peek?, horder] at hpeek
  exact leastBy_le hpeek

/-- Pushing nodes that are pending changes nothing. -/
theorem pushAll_of_pending {ns : List Nat} {w : Worklist} (h : ∀ n ∈ ns, n ∈ w.pending) :
    w.pushAll ns = w := by
  induction ns with
  | nil => rfl
  | cons n ns ih =>
    have hn : w.push n = w := by simp [push, accepts, h n List.mem_cons_self]
    unfold pushAll at ih ⊢
    rw [List.foldl_cons, hn]
    exact ih fun m hm => h m (List.mem_cons_of_mem n hm)

/-- Pushing nodes that are not pending, each once, queues all of them. -/
theorem pushAll_of_fresh {ns : List Nat} {w : Worklist} (h : (w.pending ++ ns).Nodup) :
    w.pushAll ns = { w with pending := w.pending ++ ns } := by
  induction ns generalizing w with
  | nil => simp [pushAll]
  | cons n ns ih =>
    have hnew : ¬ n ∈ w.pending := fun hn =>
      (List.nodup_append.mp h).2.2 n hn n List.mem_cons_self rfl
    have hn : w.push n = { w with pending := w.pending ++ [n] } := by simp [push, accepts, hnew]
    have hrest : (({ w with pending := w.pending ++ [n] } : Worklist).pending ++ ns).Nodup := by
      rw [List.append_assoc]
      exact h
    have hpushed := ih hrest
    unfold pushAll at hpushed ⊢
    rw [List.foldl_cons, hn, hpushed]
    simp

end Worklist

namespace FlowGraph

variable {κ : Type} {g : FlowGraph κ}

/-- No node leads back to itself. -/
def Acyclic (g : FlowGraph κ) : Prop :=
  ∀ n < g.nodeCount, ¬ Relation.TransGen (fun a b => b ∈ g.next .forward a) n n

theorem Coherent.inside (hg : g.Coherent) (d : Direction) : g.Inside d :=
  fun _ hn _ hm => hg.next_lt d hn hm

/-- Without cycles the rank ascends along every edge. -/
theorem Acyclic.rank_lt (hg : g.Acyclic) (hinside : g.Inside .forward) {u v : Nat}
    (hu : u < g.nodeCount) (hv : v ∈ g.next .forward u) :
    g.rank .forward u < g.rank .forward v := by
  refine (rank_lt_or_reach hinside hu hv).resolve_right fun hback => ?_
  exact hg u hu (Relation.TransGen.head' hv hback)

end FlowGraph

/-! ## 2. Which nodes are computed -/

namespace DataflowProblem

variable {κ φ σ : Type}

/-- The problem that also writes down each node whose transfer is computed, the last first. -/
def logged (p : DataflowProblem κ φ σ) : DataflowProblem κ φ (σ × List Nat) where
  direction := p.direction
  initial := p.initial
  join := p.join
  boundary := p.boundary
  transferNode n fact := fun (memory, log) =>
    let (output, memory) := p.transferNode n fact memory
    (output, memory, n :: log)
  transferEdge := p.transferEdge
  dependents := p.dependents

/-- A state without what was written down. -/
def State.unlogged (s : State φ (σ × List Nat)) : State φ σ :=
  ⟨s.facts, s.worklist, s.memory.1⟩

variable {p : DataflowProblem κ φ σ} {g : FlowGraph κ} {s t : State φ (σ × List Nat)}

/-- The finish nodes are written down one after the other. -/
theorem foldl_finishNode_logged (nodes : List Nat) (f : Facts φ) (memory : σ) (log : List Nat) :
    nodes.foldl (p.logged.finishNode g) (f, memory, log) =
      ((nodes.foldl (p.finishNode g) (f, memory)).1, (nodes.foldl (p.finishNode g) (f, memory)).2,
        nodes.reverse ++ log) := by
  induction nodes generalizing f memory log with
  | nil => rfl
  | cons n nodes ih =>
    rw [List.foldl_cons, List.foldl_cons, List.reverse_cons, List.append_assoc]
    exact ih _ _ _

variable [DecidableEq φ]

/-- Writing down changes nothing in a visit, and the node taken is written down. -/
theorem visit_logged (p : DataflowProblem κ φ σ) (g : FlowGraph κ) (s : State φ (σ × List Nat)) :
    p.visit g s.unlogged = (p.logged.visit g s).map State.unlogged ∧
      ∀ t, p.logged.visit g s = some t → ∃ n rest, s.worklist.pop? = some (n, rest) ∧
        t.memory.2 = n :: s.memory.2 ∧ (t.worklist = rest ∨ t.worklist =
          (rest.pushAll ((g.next p.direction n).filter (isInner g))).pushAll (p.dependents n)) := by
  obtain ⟨f, w, memory, log⟩ := s
  unfold visit State.unlogged
  cases w.pop? with
  | none => exact ⟨rfl, fun t ht => by cases ht⟩
  | some taken =>
    obtain ⟨n, rest⟩ := taken
    simp only [Option.map_some]
    constructor
    · split <;> split <;> first | rfl | contradiction
    · intro t ht
      refine ⟨n, rest, rfl, ?_⟩
      rw [Option.some.injEq] at ht
      split at ht <;> subst ht
      · exact ⟨rfl, .inl rfl⟩
      · exact ⟨rfl, .inr rfl⟩

/-- **Writing down changes nothing**: without the list the result is the same. -/
theorem solveWithin_logged (p : DataflowProblem κ φ σ) (g : FlowGraph κ) (order : VisitOrder)
    (memory : σ) (allowance : Nat) :
    p.solveWithin g order memory allowance =
      (p.logged.solveWithin g order (memory, []) allowance).map
        fun (f, memory, _) => (f, memory) := by
  let Same (s : State φ σ) (t : State φ (σ × List Nat)) : Prop := s = t.unlogged
  have hvisit (s : State φ σ) (t : State φ (σ × List Nat)) (hst : Same s t) :
      Option.Rel Same (p.visit g s) (p.logged.visit g t) := by
    rw [hst, (visit_logged p g t).1]
    cases p.logged.visit g t with
    | none => exact .none
    | some _ => exact .some rfl
  have hrun : Option.Rel Same (iterate (p.visit g) allowance (p.startState g order memory))
      (iterate (p.logged.visit g) allowance (p.logged.startState g order (memory, []))) :=
    iterate_related hvisit allowance rfl
  unfold solveWithin
  generalize iterate (p.visit g) allowance (p.startState g order memory) = left at hrun
  generalize iterate (p.logged.visit g) allowance
    (p.logged.startState g order (memory, [])) = right at hrun
  cases hrun with
  | none => rfl
  | @some _ t hst =>
    subst hst
    obtain ⟨f, w, memory, log⟩ := t
    rw [Option.map_some, Option.map_some, Option.map_some]
    unfold finish
    simp only [State.unlogged]
    rw [foldl_finishNode_logged]
    rfl

/-! ## 3. The sweep -/

/-- **A sweep under way**: every inner node is written down or pending, once, and the rank of what
    is written down is not above the rank of what is pending. -/
structure Sweeping (g : FlowGraph κ) (s : State φ (σ × List Nat)) : Prop where
  order : s.worklist.order = .reversePostOrder
  ranks : s.worklist.ranks = g.ranks .forward
  once : (s.memory.2 ++ s.worklist.pending).Perm (g.nodes.filter (isInner g))
  behind : ∀ a ∈ s.memory.2, ∀ b ∈ s.worklist.pending, g.rank .forward a ≤ g.rank .forward b

omit [DecidableEq φ] in
theorem start_sweeping (hforward : p.direction = .forward) (memory : σ) :
    Sweeping g (p.logged.startState g .reversePostOrder (memory, [])) := by
  have hpending : ∀ {ns : List Nat}, ns.Nodup →
      (Worklist.new g .reversePostOrder .forward).pushAll ns =
        { Worklist.new g .reversePostOrder .forward with pending := ns } :=
    fun h => Worklist.pushAll_of_fresh h
  have hstart : (p.logged.startState g .reversePostOrder (memory, [])).worklist =
      { Worklist.new g .reversePostOrder .forward with pending := g.nodes.filter (isInner g) } := by
    have hdirection : p.logged.direction = .forward := hforward
    unfold startState
    simp only [hdirection]
    exact hpending (List.nodup_range.filter _)
  refine ⟨by rw [hstart]; rfl, by rw [hstart]; rfl, by rw [hstart]; exact .refl _, fun a ha => ?_⟩
  exact absurd ha List.not_mem_nil

omit [DecidableEq φ] in
/-- **Without cycles what the node taken leads to is pending behind it.** -/
theorem Sweeping.woken (hs : Sweeping g s) (hg : g.Coherent) (hacyclic : g.Acyclic) {n : Nat}
    {rest : Worklist} (hpop : s.worklist.pop? = some (n, rest)) :
    ∀ m ∈ (g.next .forward n).filter (isInner g), m ∈ rest.pending := by
  intro m hm
  obtain ⟨hnext, hm⟩ := List.mem_filter.mp hm
  have hn := (Worklist.of_pop? hpop).1
  have hinner : ∀ m, m ∈ s.memory.2 ∨ m ∈ s.worklist.pending ↔
      m < g.nodeCount ∧ isInner g m = true := by
    intro m
    rw [← List.mem_append, hs.once.mem_iff, List.mem_filter, FlowGraph.nodes, List.mem_range]
  have hnlt := ((hinner n).mp (.inr hn)).1
  have hup := hacyclic.rank_lt (hg.inside .forward) hnlt hnext
  rcases (hinner m).mpr ⟨hg.next_lt .forward hnlt hnext, hm⟩ with hdone | hpending
  · -- what was visited before has no higher rank
    have hle := hs.behind m hdone n hn
    omega
  · refine (Worklist.eq_or_mem_of_pop? hpop hpending).resolve_left fun hmn => ?_
    rw [hmn] at hup
    omega

/-- **One visit of a sweep**: what the visited node makes pending is pending already. -/
theorem visit_sweeps (hforward : p.direction = .forward) (hdependents : ∀ n, p.dependents n = [])
    (hg : g.Coherent) (hacyclic : g.Acyclic) (hs : Sweeping g s)
    (hv : p.logged.visit g s = some t) :
    Sweeping g t ∧ t.worklist.pending.length < s.worklist.pending.length := by
  obtain ⟨n, rest, hpop, hlog, hworklist⟩ := (visit_logged p g s).2 t hv
  obtain ⟨hn, hrest⟩ := Worklist.of_pop? hpop
  have hkept := Worklist.kept_of_pop? hpop
  have hleast : ∀ m ∈ s.worklist.pending, g.rank .forward n ≤ g.rank .forward m := by
    intro m hm
    have hle := Worklist.rank_le_of_pop? hs.order hpop m hm
    rw [Worklist.rank, Worklist.rank, hs.ranks] at hle
    exact hle
  have hwoken := hs.woken hg hacyclic hpop
  have hsame : t.worklist = rest := by
    rcases hworklist with heq | heq
    · exact heq
    · rw [heq, hforward, hdependents n, Worklist.pushAll_of_pending hwoken]
      rfl
  refine ⟨⟨?_, ?_, ?_, fun a ha b hb => ?_⟩, ?_⟩
  · rw [hsame, hkept.1, hs.order]
  · rw [hsame, hkept.2, hs.ranks]
  · rw [hsame, hlog, hrest]
    refine List.Perm.trans ?_ hs.once
    exact List.perm_middle.symm.trans ((List.perm_cons_erase hn).symm.append_left s.memory.2)
  · rw [hsame] at hb
    have hb := Worklist.mem_of_mem_rest hpop hb
    rw [hlog] at ha
    rcases List.mem_cons.mp ha with rfl | ha
    · exact hleast b hb
    · exact hs.behind a ha b hb
  · rw [hsame]
    exact Worklist.length_lt_of_pop? hpop

/-- **A sweep ends** after as many visits as nodes are pending, with every inner node written
    down. -/
theorem sweep_ends (hforward : p.direction = .forward) (hdependents : ∀ n, p.dependents n = [])
    (hg : g.Coherent) (hacyclic : g.Acyclic) {allowance : Nat} (hs : Sweeping g s)
    (hallowance : s.worklist.pending.length < allowance) :
    ∃ t, iterate (p.logged.visit g) allowance s = some t ∧
      t.memory.2.Perm (g.nodes.filter (isInner g)) := by
  induction allowance generalizing s with
  | zero => omega
  | succ allowance ih =>
    cases hv : p.logged.visit g s with
    | none =>
      have hidle := Worklist.pending_of_pop?_none (Option.map_eq_none_iff.mp hv)
      refine ⟨s, iterate_succ_of_none allowance hv, ?_⟩
      have honce := hs.once
      rw [hidle, List.append_nil] at honce
      exact honce
    | some t =>
      obtain ⟨ht, hlength⟩ := visit_sweeps hforward hdependents hg hacyclic hs hv
      rw [iterate_succ_of_some allowance hv]
      exact ih ht (by omega)

/-- Inner nodes and finish nodes are all nodes that are no entries. -/
theorem finish_perm {log : List Nat} (h : log.Perm (g.nodes.filter (isInner g))) :
    ((g.nodes.filter fun n => g.isExit n && !g.isEntry n).reverse ++ log).Perm
      (g.nodes.filter fun n => !g.isEntry n) := by
  have hexit : (g.nodes.filter fun n => !g.isEntry n).filter g.isExit =
      g.nodes.filter fun n => g.isExit n && !g.isEntry n := List.filter_filter
  have hinner : ((g.nodes.filter fun n => !g.isEntry n).filter fun n => !g.isExit n) =
      g.nodes.filter (isInner g) := by
    rw [List.filter_filter]
    exact congrArg (g.nodes.filter ·) (funext fun n => Bool.and_comm _ _)
  have hsplit := List.filter_append_perm g.isExit (g.nodes.filter fun n => !g.isEntry n)
  rw [hexit, hinner] at hsplit
  exact ((List.reverse_perm _).append h).trans hsplit

/-- **Every node that is no entry is computed once.** -/
theorem solveWithin_sweeps_once (hforward : p.direction = .forward)
    (hdependents : ∀ n, p.dependents n = []) (hg : g.Coherent) (hacyclic : g.Acyclic) (memory : σ)
    {allowance : Nat} (hallowance : g.nodeCount < allowance) :
    ∃ f memory' log, p.solveWithin g .reversePostOrder memory allowance = some (f, memory') ∧
      p.logged.solveWithin g .reversePostOrder (memory, []) allowance = some (f, memory', log) ∧
      log.Perm (g.nodes.filter fun n => !g.isEntry n) := by
  have hstart := start_sweeping (g := g) hforward memory
  have hcount : (p.logged.startState g .reversePostOrder (memory, [])).worklist.pending.length ≤
      g.nodeCount := by
    have hperm : ([] ++ _ : List Nat).Perm _ := hstart.once
    have hlength := Nat.le_trans (Nat.le_of_eq hperm.length_eq) (List.length_filter_le _ g.nodes)
    rw [FlowGraph.nodes, List.length_range] at hlength
    exact hlength
  obtain ⟨t, hrun, hlog⟩ := sweep_ends hforward hdependents hg hacyclic hstart
    (Nat.lt_of_le_of_lt hcount hallowance)
  obtain ⟨f, w, memory', log⟩ := t
  have hlogged : p.logged.solveWithin g .reversePostOrder (memory, []) allowance =
      some (p.logged.finish g ⟨f, w, memory', log⟩) := by
    unfold solveWithin
    rw [hrun]
    rfl
  have hlast : (fun n => g.isFinish p.direction n && !g.isStart p.direction n) =
      fun n => g.isExit n && !g.isEntry n := by
    rw [hforward]
    rfl
  have hfinish : (p.logged.finish g ⟨f, w, memory', log⟩).2.2 =
      (g.nodes.filter fun n => g.isExit n && !g.isEntry n).reverse ++ log := by
    rw [← hlast]
    exact congrArg (·.2.2) (foldl_finishNode_logged _ f memory' log)
  generalize p.logged.finish g ⟨f, w, memory', log⟩ = out at hlogged hfinish
  obtain ⟨f', memory'', log'⟩ := out
  refine ⟨f', memory'', log', ?_, hlogged, ?_⟩
  · rw [solveWithin_logged, hlogged]
    rfl
  · rw [show log' = _ from hfinish]
    exact finish_perm hlog

/-! ## 4. Ranks and the single pass -/

/-- **Reverse post-order.** In both directions the ranks are the numbers of the nodes in another
    order, and an edge along which the rank does not ascend leads to a node from which its source
    can be reached. So in a graph without cycles, whatever the problem, as long as it has no
    dependents, forward visits by rank compute every node that is no entry exactly once. -/
theorem ranks_ascend_and_sweep_once (g : FlowGraph κ) :
    (∀ d, g.Inside d → (g.ranks d).toList.Perm (List.range g.nodeCount) ∧
      ∀ u < g.nodeCount, ∀ v ∈ g.next d u,
        g.rank d u < g.rank d v ∨ Reach (g.next d) v u) ∧
    (g.Coherent → g.Acyclic → ∀ p : DataflowProblem κ φ σ, p.direction = .forward →
      (∀ n, p.dependents n = []) → ∀ memory allowance, g.nodeCount < allowance →
        ∃ f memory' log, p.solveWithin g .reversePostOrder memory allowance = some (f, memory') ∧
          p.logged.solveWithin g .reversePostOrder (memory, []) allowance =
            some (f, memory', log) ∧
          log.Perm (g.nodes.filter fun n => !g.isEntry n)) :=
  ⟨fun _ hinside => ⟨FlowGraph.ranks_perm hinside,
      fun _ hu _ hv => FlowGraph.rank_lt_or_reach hinside hu hv⟩,
    fun hg hacyclic _ hforward hdependents memory _ hallowance =>
      solveWithin_sweeps_once hforward hdependents hg hacyclic memory hallowance⟩

/-- Two ways from the entry to the exit, one of them by two edges at once, and a way in that nothing
    leads to. -/
def branching : FlowGraph Unit :=
  .ofEdges 6 [⟨0, 1, ()⟩, ⟨0, 2, ()⟩, ⟨1, 4, ()⟩, ⟨2, 4, ()⟩, ⟨2, 4, ()⟩, ⟨3, 4, ()⟩, ⟨4, 5, ()⟩]
    (· == 0) (· == 5)

/-- Whether the entry leads to a node; the memory counts what is computed. -/
def counted : DataflowProblem Unit Bool Nat where
  direction := .forward
  initial := false
  join := (· || ·)
  boundary _ := true
  transferNode _ fact count := (fact, count + 1)

/-- The facts of the node where the ways meet are computed once, when those before it are known. -/
theorem ranks_ascend_and_sweep_once_branching :
    (branching.ranks .forward).toList.Perm (List.range 6) ∧
      (∀ u < 6, ∀ v ∈ branching.next .forward u,
        branching.rank .forward u < branching.rank .forward v ∨
          Reach (branching.next .forward) v u) ∧
      ∃ f count log, counted.solveWithin branching .reversePostOrder 0 7 = some (f, count) ∧
        counted.logged.solveWithin branching .reversePostOrder (0, []) 7 = some (f, count, log) ∧
        log.Perm [1, 2, 3, 4, 5] := by
  have hcoherent : branching.Coherent := FlowGraph.coherent_ofEdges _ _ (by decide)
  have hup : ∀ u < 6, ∀ v ∈ branching.next .forward u, u < v := by decide +kernel
  have hacyclic : branching.Acyclic := by
    intro n hn hcycle
    have hascends : ∀ {m}, Relation.TransGen (fun a b => b ∈ branching.next .forward a) n m →
        m < 6 ∧ n < m := by
      intro m hm
      induction hm with
      | single hstep => exact ⟨hcoherent.next_lt .forward hn hstep, hup n hn _ hstep⟩
      | tail _ hstep ih =>
        exact ⟨hcoherent.next_lt .forward ih.1 hstep, Nat.lt_trans ih.2 (hup _ ih.1 _ hstep)⟩
    exact absurd (hascends hcycle).2 (Nat.lt_irrefl n)
  obtain ⟨hranks, hsweep⟩ := ranks_ascend_and_sweep_once (φ := Bool) (σ := Nat) branching
  obtain ⟨f, count, log, hrun, hlogged, hperm⟩ :=
    hsweep hcoherent hacyclic counted rfl (fun _ => rfl) 0 7 (by decide)
  obtain ⟨hpermutes, hedges⟩ := hranks .forward (hcoherent.inside .forward)
  have hnodes : branching.nodes.filter (fun n => !branching.isEntry n) = [1, 2, 3, 4, 5] := by
    decide +kernel
  rw [hnodes] at hperm
  exact ⟨hpermutes, hedges, f, count, log, hrun, hlogged, hperm⟩

-- last in, first out, the node where the ways meet is computed three times
example : (counted.solveWithin branching .lifo 0 9).map (·.2) = some 7 := by decide +kernel

end DataflowProblem

end ObjectFlow
