/-
  File:      ObjectFlow/Proofs/Graph/Search.lean
  Subject:   BREADTH-FIRST SEARCH FINDS EXACTLY WHAT CAN BE REACHED, when its bound is the number of
             nodes there are.

  * `Searching`: every node seen was reached, and those that are done lead to nodes seen;
  * `mem_breadthFirst`: what is found is what can be reached;
  * `breadthFirst_spec`: each node is found once, the start first.
-/
import Mathlib.Data.List.Nodup
import Mathlib.Data.List.Perm.Subperm
import Mathlib.Logic.Relation
import ObjectFlow.Graph.Order

namespace ObjectFlow

variable {α : Type} [DecidableEq α] {next : α → List α}

/-! ## 1. Fresh nodes -/

theorem mem_addFresh {seen more : List α} {a : α} :
    a ∈ addFresh seen more ↔ a ∈ more ∧ ¬ a ∈ seen := by
  have hfold : ∀ (more fresh : List α), a ∈ more.foldl (fun fresh a =>
      if a ∈ seen ∨ a ∈ fresh then fresh else fresh ++ [a]) fresh ↔
        a ∈ fresh ∨ (a ∈ more ∧ ¬ a ∈ seen) := by
    intro more
    induction more with
    | nil => simp
    | cons b more ih =>
      intro fresh
      rw [List.foldl_cons, ih]
      by_cases hb : b ∈ seen ∨ b ∈ fresh
      · rw [if_pos hb]
        grind
      · rw [if_neg hb]
        grind
  unfold addFresh
  rw [hfold]
  simp

theorem nodup_addFresh (seen more : List α) : (addFresh seen more).Nodup := by
  unfold addFresh
  refine List.foldlRecOn more _ List.nodup_nil fun fresh hfresh a _ => ?_
  split
  · exact hfresh
  · rename_i hnew
    refine List.nodup_append.mpr ⟨hfresh, List.nodup_singleton a, fun b hb c hc hbc => ?_⟩
    rw [List.mem_singleton.mp hc] at hbc
    exact hnew (.inr (hbc ▸ hb))

/-! ## 2. The search -/

/-- What can be reached in one step after the other. -/
abbrev Reach (next : α → List α) : α → α → Prop := Relation.ReflTransGen fun a b => b ∈ next a

/-- **A search under way**: every node seen was reached and is one of `nodes`, each is listed once,
    and those that do not wait in the queue lead to nodes seen. -/
structure Searching (next : α → List α) (start : α) (nodes queue seen : List α) : Prop where
  started : start ∈ seen
  reached : ∀ a ∈ seen, Reach next start a
  inside : ∀ a ∈ seen, a ∈ nodes
  once : seen.Nodup
  waiting : ∀ a ∈ queue, a ∈ seen
  done : ∀ a ∈ seen, a ∈ queue ∨ ∀ b ∈ next a, b ∈ seen

variable {start : α} {nodes : List α}

/-- Taking one node from the queue goes on with the search. -/
theorem Searching.step {a : α} {queue seen : List α}
    (h : Searching next start nodes (a :: queue) seen)
    (hnodes : ∀ b, Reach next start b → b ∈ nodes) :
    Searching next start nodes (queue ++ addFresh seen (next a))
      (seen ++ addFresh seen (next a)) := by
  have hfresh : ∀ b ∈ addFresh seen (next a), Reach next start b := fun b hb =>
    (h.reached a (h.waiting a List.mem_cons_self)).tail (mem_addFresh.mp hb).1
  refine ⟨List.mem_append_left _ h.started, fun b hb => ?_, fun b hb => ?_, ?_, fun b hb => ?_,
    fun b hb => ?_⟩
  · exact (List.mem_append.mp hb).elim (h.reached b) (hfresh b)
  · exact (List.mem_append.mp hb).elim (h.inside b) fun hb => hnodes b (hfresh b hb)
  · refine List.nodup_append.mpr ⟨h.once, nodup_addFresh seen (next a), fun b hb c hc hbc => ?_⟩
    exact (mem_addFresh.mp hc).2 (hbc ▸ hb)
  · rcases List.mem_append.mp hb with hb | hb
    · exact List.mem_append_left _ (h.waiting b (List.mem_cons_of_mem a hb))
    · exact List.mem_append_right _ hb
  · rcases List.mem_append.mp hb with hb | hb
    · rcases h.done b hb with hwaits | hdone
      · rcases List.mem_cons.mp hwaits with rfl | hwaits
        · -- the node taken is done: what it leads to was seen, or is fresh
          refine .inr fun c hc => ?_
          by_cases hseen : c ∈ seen
          · exact List.mem_append_left _ hseen
          · exact List.mem_append_right _ (mem_addFresh.mpr ⟨hc, hseen⟩)
        · exact .inl (List.mem_append_left _ hwaits)
      · exact .inr fun c hc => List.mem_append_left _ (hdone c hc)
    · exact .inl (List.mem_append_right _ hb)

/-- **The search ends with all that can be reached**, when nodes are left to be taken for all that
    were not. -/
theorem Searching.mem_iff {bound : Nat} {queue seen : List α}
    (h : Searching next start nodes queue seen) (hnodes : ∀ b, Reach next start b → b ∈ nodes)
    (hbound : nodes.length + queue.length ≤ bound + seen.length) {b : α} :
    b ∈ breadthFirstFrom next bound queue seen ↔ Reach next start b := by
  have hclosed : ∀ {seen : List α}, Searching next start nodes [] seen →
      (b ∈ seen ↔ Reach next start b) := by
    intro seen h
    refine ⟨h.reached b, fun hb => ?_⟩
    induction hb with
    | refl => exact h.started
    | tail _ hstep ih => exact ((h.done _ ih).resolve_left List.not_mem_nil) _ hstep
  induction bound generalizing queue seen with
  | zero =>
    -- all nodes are seen and none waits
    have hlength := (h.once.subperm h.inside).length_le
    obtain rfl : queue = [] := List.eq_nil_of_length_eq_zero (by omega)
    exact hclosed h
  | succ bound ih =>
    cases queue with
    | nil => exact hclosed h
    | cons a queue =>
      refine ih (h.step hnodes) ?_
      rw [List.length_append, List.length_append]
      rw [List.length_cons] at hbound
      omega

/-- **Breadth-first search finds exactly what can be reached**, in a graph of at most `bound`
    nodes. -/
theorem mem_breadthFirst {bound : Nat} (hnodes : ∀ b, Reach next start b → b ∈ nodes)
    (hbound : nodes.length ≤ bound) {b : α} :
    b ∈ breadthFirst next bound start ↔ Reach next start b := by
  have hstart : Searching next start nodes [start] [start] := by
    refine ⟨List.mem_cons_self, fun a ha => ?_, fun a ha => ?_, List.nodup_singleton start,
      fun a ha => ha, fun a ha => .inl ha⟩
    · rw [List.mem_singleton.mp ha]
    · rw [List.mem_singleton.mp ha]
      exact hnodes start .refl
  exact hstart.mem_iff hnodes (Nat.add_le_add_right hbound 1)

/-! ## 3. What is found, in order -/

/-- What is seen is only added to, each node once. -/
theorem breadthFirstFrom_spec (next : α → List α) (bound : Nat) (queue : List α) {seen : List α}
    (h : seen.Nodup) : (breadthFirstFrom next bound queue seen).Nodup ∧
      ∃ found, breadthFirstFrom next bound queue seen = seen ++ found := by
  induction bound generalizing queue seen with
  | zero => exact ⟨h, [], (List.append_nil seen).symm⟩
  | succ bound ih =>
    cases queue with
    | nil => exact ⟨h, [], (List.append_nil seen).symm⟩
    | cons a queue =>
      have hfresh : (seen ++ addFresh seen (next a)).Nodup :=
        List.Nodup.append h (nodup_addFresh seen (next a))
          fun b hb hb' => (mem_addFresh.mp hb').2 hb
      obtain ⟨hnodup, found, hfound⟩ := ih (queue ++ addFresh seen (next a)) hfresh
      exact ⟨hnodup, addFresh seen (next a) ++ found, by rw [← List.append_assoc]; exact hfound⟩

/-- **What is found is listed once, the start first.** -/
theorem breadthFirst_spec (next : α → List α) (bound : Nat) (start : α) :
    (breadthFirst next bound start).Nodup ∧ (breadthFirst next bound start).head? = some start := by
  obtain ⟨hnodup, found, hfound⟩ :=
    breadthFirstFrom_spec next bound [start] (List.nodup_singleton start)
  refine ⟨hnodup, ?_⟩
  unfold breadthFirst
  rw [hfound]
  rfl

end ObjectFlow
