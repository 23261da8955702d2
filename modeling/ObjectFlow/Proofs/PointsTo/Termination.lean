/-
  File:      ObjectFlow/Proofs/PointsTo/Termination.lean
  Subject:   A RUN WITHIN FINITELY MANY FACTS ENDS, with any plugin that takes part in it.

  An item of work takes no fact back. It makes a fact known that was not known before, and may
  then leave any amount of work behind, or it leaves one item less. So in a closed solution with
  finitely many facts the pair of what is still unknown and what is still to do descends.
-/
import Mathlib.Data.Prod.Lex
import Mathlib.Data.Set.Card
import ObjectFlow.Proofs.PointsTo.Least

namespace ObjectFlow

/-! ## 1. Facts -/

/-- What an item of work may make known: a call edge, or an object at a place. -/
inductive Fact (K O : Type) where
  | call (site : Qualified K Site) (callee : Qualified K MethodId)
  | pointsTo (place : Place K O) (object : O)

/-- The facts of a solution. Reachable methods need not be counted: they come with call edges. -/
def Solution.facts {K O : Type} (S : Solution K O) : Set (Fact K O) := fun
  | .call site callee => S.calls site callee
  | .pointsTo place object => S.pointsTo place object

section Termination

variable {κ ν K O ρ : Type} [DecidableEq κ] {R : Reading κ ν K O} {A : Abstraction K O}
  {p : Program} {rules : Sensitivity κ ν} {heap : HeapPolicy} {S : Solution K O}
  {start : MethodId} {s : EngineState κ ν} {J : EngineState κ ν → ρ → Prop}
  {out : EngineState κ ν × ρ}

theorem Solution.facts_mono {T : Solution K O} (h : S ≤ T) : S.facts ⊆ T.facts := by
  intro fact hfact
  cases fact with
  | call a b => exact h.2.1 a b hfact
  | pointsTo x o => exact h.2.2 x o hfact

omit [DecidableEq κ] in
theorem Reading.Faithful.qualified_inj {α : Type} (hR : R.Faithful p rules A) {h : Heap} {ns : ν}
    (hv : R.Valid h ns) {a b : Qualified κ α} {n : Qualified K α}
    (ha : R.qualified? h ns a = some n) (hb : R.qualified? h ns b = some n) : a = b := by
  obtain ⟨k, hk, rfl⟩ := Option.map_eq_some_iff.mp ha
  obtain ⟨k', hk', hsame⟩ := Option.map_eq_some_iff.mp hb
  obtain ⟨c, item⟩ := a
  obtain ⟨c', item'⟩ := b
  cases hsame
  cases hR.context_inj hv hk hk'
  rfl

/-! ## 2. An item of work -/

/-- What was known stays known. -/
theorem Advances.facts_subset (h : Advances R A p heap S J s out) :
    (R.solution s).facts ⊆ (R.solution out.1).facts := by
  intro fact hfact
  cases fact with
  | call a b =>
    obtain ⟨e, he, ha, hb⟩ := hfact
    exact ⟨e, h.edges e he, h.grows.keeps.qualified ha, h.grows.keeps.qualified hb⟩
  | pointsTo x o =>
    obtain ⟨id, i, hid, hi, hmem⟩ := hfact
    exact ⟨id, i, h.grows.placeAt hid, h.grows.keeps.object hi, h.sets id i hmem⟩

/-- An object that is new at a pointer is a new fact. -/
theorem Advances.new_object (h : Advances R A p heap S J s out) (hR : R.Faithful p rules A)
    {id : PointerId} {i : Nat} (hi : i ∈ out.1.pointsTo id) (hnew : ¬ i ∈ s.pointsTo id) :
    ∃ fact ∈ (R.solution out.1).facts, fact ∉ (R.solution s).facts := by
  obtain ⟨x, o, hx, ho, -⟩ := h.within.points id i hi
  refine ⟨.pointsTo x o, ⟨id, i, hx, ho, hi⟩, fun hold => ?_⟩
  obtain ⟨id', i', hid', hi', hmem⟩ := hold
  obtain ⟨a, ha, hplace⟩ := Option.bind_eq_some_iff.mp hx
  have hpointer := pointer_unique hR h.within (h.grows.placeAt hid') ha hplace
  have hobject := hR.object_inj h.within.valid (h.grows.keeps.object hi') ho
  subst hpointer hobject
  exact hnew hmem

/-- A call edge that is new in the call graph is a new fact. -/
theorem Advances.new_call (h : Advances R A p heap S J s out) (hR : R.Faithful p rules A)
    {e : ContextCallEdge κ} (he : e ∈ out.1.calls.edges)
    (hnew : s.calls.hasEdge e.site e.callee = false) :
    ∃ fact ∈ (R.solution out.1).facts, fact ∉ (R.solution s).facts := by
  obtain ⟨a, b, ha, hb, -⟩ := h.within.calls e he
  refine ⟨.call a b, ⟨e, he, ha, hb⟩, fun hold => ?_⟩
  obtain ⟨e', he', ha', hb'⟩ := hold
  have hsite := hR.qualified_inj h.within.valid (h.grows.keeps.qualified ha') ha
  have hcallee := hR.qualified_inj h.within.valid (h.grows.keeps.qualified hb') hb
  have hknown : s.calls.hasEdge e.site e.callee = true :=
    CallGraph.hasEdge_iff.mpr ⟨e', he', hsite, hcallee⟩
  rw [hnew] at hknown
  cases hknown

/-- How many facts of a solution a state does not know yet, and how much work is left. -/
noncomputable def outstanding (R : Reading κ ν K O) (S : Solution K O) (s : EngineState κ ν) :
    ℕ ×ₗ ℕ := toLex ((S.facts \ (R.solution s).facts).ncard, s.queue.toList.length)

/-- **An item of work leaves less outstanding.** -/
theorem Advances.outstanding_lt (h : Advances R A p heap S J s out) (hR : R.Faithful p rules A)
    (hfinite : S.facts.Finite) : outstanding R S out.1 < outstanding R S s := by
  have hsubset : S.facts \ (R.solution out.1).facts ⊆ S.facts \ (R.solution s).facts :=
    Set.sdiff_subset_sdiff_right h.facts_subset
  have hfinite' : (S.facts \ (R.solution s).facts).Finite := hfinite.subset Set.sdiff_subset
  have hfact : (∃ fact ∈ (R.solution out.1).facts, fact ∉ (R.solution s).facts) →
      (S.facts \ (R.solution out.1).facts).ncard < (S.facts \ (R.solution s).facts).ncard := by
    intro ⟨fact, hknown, hnew⟩
    refine Set.ncard_lt_ncard ⟨hsubset, fun hback => ?_⟩ hfinite'
    have hS := Solution.facts_mono h.within.solution_le hknown
    exact (hback ⟨hS, hnew⟩).2 hknown
  rcases h.progress with hless | ⟨id, i, hi, hnew⟩ | ⟨e, he, hnew⟩
  · rcases (Set.ncard_le_ncard hsubset hfinite').lt_or_eq with hlt | heq
    · exact Prod.Lex.toLex_lt_toLex.mpr (.inl hlt)
    · exact Prod.Lex.toLex_lt_toLex.mpr (.inr ⟨heq, hless⟩)
  · exact Prod.Lex.toLex_lt_toLex.mpr (.inl (hfact (h.new_object hR hi hnew)))
  · exact Prod.Lex.toLex_lt_toLex.mpr (.inl (hfact (h.new_call hR he hnew)))

/-! ## 3. Runs -/

/-- **A run within a closed solution of finitely many facts ends**, in either order of the queue:
    from some allowance on the answer is the same. -/
theorem exists_runWithin (hR : R.Faithful p rules A) {names : ν}
    (hv : R.Valid { policy := heap } names) (hS : S.Closed p heap A start)
    (hfinite : S.facts.Finite) {plugin : Plugin κ ν ρ}
    (hplugin : plugin.Cooperates R p rules heap S J) {memory : ρ}
    (hJ : ∀ s, s.calls.edges = #[] → J s memory) (order : QueueOrder) :
    ∃ n out, ∀ m, n ≤ m → Engine.runWithin p rules plugin memory m
      (Engine.start p rules names heap order start) = some out := by
  obtain ⟨hw, hs, -, hedges⟩ := start_saturated hR hS hv order
  obtain ⟨n, out, hn⟩ := exists_iterate_of_wellFounded
    (P := fun run => Within R heap S run.1 ∧ Saturated R A p heap run.1 ∧ J run.1 run.2)
    (InvImage.wf (fun run => outstanding R S run.1) wellFounded_lt)
    (fun run next ⟨hw, hs, hJ⟩ (hstep : Engine.step p rules plugin run = some next) => by
      have hadv := step_advances hR hS hplugin hw hs hJ hstep
      exact ⟨⟨hadv.within, hadv.saturated, hadv.plugin⟩, hadv.outstanding_lt hR hfinite⟩)
    (s := (Engine.start p rules names heap order start, memory)) ⟨hw, hs, hJ _ hedges⟩
  refine ⟨n, (out.1, plugin.onFinish rules out.1 out.2), fun m hm => ?_⟩
  unfold Engine.runWithin
  rw [hn m hm]
  rfl

end Termination

end ObjectFlow
