/-
  File:      ObjectFlow/Proofs/ControlFlow/SupergraphNodes.lean
  Subject:   THE NODES OF A WHOLE PROGRAM: methods fill the numbers from zero on without a gap, in the
             order they were found, and statements and their nodes determine each other.

  * `base_layOut`, `exists_holds`: a method starts where the ones before it end, and every node lies
    in one;
  * `rangeOf?_layOut`: a method that is listed once is found where it was laid out;
  * `nodeOf?_eq_some_iff`: the node of a statement has that statement, and no other node has.
-/
import Mathlib.Data.List.Nodup
import ObjectFlow.Proofs.ControlFlow.SupergraphLayout

namespace ObjectFlow

variable {p : Program} {ms : List MethodId} {base : Nat} {r : MethodRange}

/-! ## 1. Ranges -/

theorem flows_layOut (p : Program) (ms : List MethodId) (base : Nat) :
    (layOut p base ms).map (·.flow) = ms.map p.flowOf := by
  induction ms generalizing base with
  | nil => rfl
  | cons m ms ih =>
    unfold layOut
    rw [List.map_cons, List.map_cons, ih]

/-- Methods are laid out in the order they are listed. -/
theorem methods_layOut (p : Program) (ms : List MethodId) (base : Nat) :
    (layOut p base ms).map (·.flow.method) = ms := by
  have hflows := congrArg (List.map (·.method)) (flows_layOut p ms base)
  rw [List.map_map, List.map_map] at hflows
  exact hflows.trans (List.map_id ms)

theorem layOutEnd_eq (base : Nat) (ranges : List MethodRange) :
    layOutEnd base ranges = base + (ranges.map (·.size)).sum := by
  unfold layOutEnd
  induction ranges generalizing base with
  | nil => rfl
  | cons r ranges ih =>
    rw [List.foldl_cons, ih, List.map_cons, List.sum_cons]
    omega

/-- **A method starts where the methods before it end.** -/
theorem base_layOut {i : Nat} (hi : (layOut p base ms)[i]? = some r) :
    r.base = base + (((layOut p base ms).take i).map (·.size)).sum := by
  induction ms generalizing base i with
  | nil => cases hi
  | cons m ms ih =>
    unfold layOut at hi ⊢
    cases i with
    | zero =>
      cases hi
      rfl
    | succ i =>
      rw [List.take_succ_cons, List.map_cons, List.sum_cons, ih hi]
      exact Nat.add_assoc _ _ _

/-- Every node before the end lies in a range. -/
theorem exists_holds {n : Nat} (hlow : base ≤ n) (hhigh : n < layOutEnd base (layOut p base ms)) :
    ∃ r ∈ layOut p base ms, r.Holds n := by
  induction ms generalizing base with
  | nil => exact absurd hlow (Nat.not_le_of_lt hhigh)
  | cons m ms ih =>
    by_cases hn : n < base + (p.flowOf m).graph.nodeCount
    · exact ⟨_, List.mem_cons_self, hlow, hn⟩
    · obtain ⟨r, hr, hholds⟩ := ih (Nat.le_of_not_lt hn) hhigh
      exact ⟨r, List.mem_cons_of_mem _ hr, hholds⟩

/-- A method has a node for each statement and two more. -/
theorem size_of_mem_layOut (hr : r ∈ layOut p base ms) : r.size = r.flow.stmts.size + 2 := by
  obtain ⟨-, -, m, -, hflow⟩ := of_mem_layOut hr
  unfold MethodRange.size
  rw [hflow]
  simp [Program.flowOf, MethodFlow.ofStmts, FlowGraph.ofEdges]

theorem flow_of_mem_layOut (hr : r ∈ layOut p base ms) : r.flow = p.flowOf r.flow.method := by
  obtain ⟨-, -, m, -, hflow⟩ := of_mem_layOut hr
  rw [hflow]
  rfl

theorem method_of_mem_layOut (hr : r ∈ layOut p base ms) : r.flow.method ∈ ms := by
  obtain ⟨-, -, m, hm, hflow⟩ := of_mem_layOut hr
  rw [hflow]
  exact hm

/-- Every method that is laid out has a place. -/
theorem exists_rangeOf? {m : MethodId} (hm : m ∈ ms) :
    ∃ r, rangeOf? (layOut p base ms) m = some r := by
  refine Option.isSome_iff_exists.mp (List.find?_isSome.mpr ?_)
  have hflow : p.flowOf m ∈ (layOut p base ms).map (·.flow) := by
    rw [flows_layOut]
    exact List.mem_map_of_mem hm
  obtain ⟨r, hr, hrm⟩ := List.mem_map.mp hflow
  refine ⟨r, hr, decide_eq_true ?_⟩
  rw [hrm]
  rfl

/-- **A method that is listed once is found where it was laid out.** -/
theorem rangeOf?_layOut (h : ms.Nodup) {m : MethodId} :
    rangeOf? (layOut p base ms) m = some r ↔ r ∈ layOut p base ms ∧ r.flow.method = m := by
  constructor
  · exact fun hr => ⟨mem_of_rangeOf? hr, method_of_rangeOf? hr⟩
  · intro ⟨hr, hm⟩
    induction ms generalizing base with
    | nil => cases hr
    | cons m' ms ih =>
      obtain ⟨hnew, hnodup⟩ := List.nodup_cons.mp h
      unfold layOut rangeOf?
      rcases List.mem_cons.mp hr with rfl | hr
      · exact List.find?_cons_of_pos (decide_eq_true hm)
      · rw [List.find?_cons_of_neg]
        · exact ih hnodup hr
        · refine fun heq => hnew ?_
          rw [show m' = m from of_decide_eq_true heq, ← hm]
          exact method_of_mem_layOut hr

/-! ## 2. Statements -/

namespace Supergraph

variable {calls : CallGraph Site MethodId} {entry : MethodId} {s : Supergraph}

theorem mem_rangeOf?_iff (hnodup : calls.reachable.toList.Nodup)
    (h : ofCalls? p calls entry = some s) {m : MethodId} :
    rangeOf? s.ranges m = some r ↔ r ∈ s.ranges ∧ r.flow.method = m := by
  rw [(of_ofCalls? h).2.1]
  exact rangeOf?_layOut hnodup

/-- A node is found in the one range it lies in. -/
theorem rangeAt?_iff (h : ofCalls? p calls entry = some s) {n : Nat} :
    s.rangeAt? n = some r ↔ r ∈ s.ranges ∧ r.Holds n := by
  have hholds : ∀ {r : MethodRange}, s.rangeAt? n = some r → r ∈ s.ranges ∧ r.Holds n := by
    intro r hr
    have hfound := List.find?_some hr
    simp only [Bool.and_eq_true, decide_eq_true_eq] at hfound
    exact ⟨List.mem_of_find?_eq_some hr, hfound⟩
  refine ⟨hholds, fun ⟨hr, hn⟩ => ?_⟩
  have hsome : (s.rangeAt? n).isSome = true := by
    refine List.find?_isSome.mpr ⟨r, hr, ?_⟩
    simp only [Bool.and_eq_true, decide_eq_true_eq]
    exact hn
  obtain ⟨r', hr'⟩ := Option.isSome_iff_exists.mp hsome
  have hranges := (of_ofCalls? h).2.1
  obtain ⟨hmem', hn'⟩ := hholds hr'
  rw [hranges] at hr hmem'
  rw [hr', eq_of_holds (layOut_pairwise p _ 0) hr hmem' hn hn']

/-- **The node of a statement has that statement, and the statement of a node has that node.** -/
theorem nodeOf?_eq_some_iff (hnodup : calls.reachable.toList.Nodup)
    (h : ofCalls? p calls entry = some s) {site : Site} {n : Nat} :
    s.nodeOf? site = some n ↔ s.siteOf? n = some site := by
  have hranges := (of_ofCalls? h).2.1
  obtain ⟨m, i⟩ := site
  unfold nodeOf? siteOf?
  simp only [Option.bind_eq_bind, Option.pure_def, Option.bind_eq_some_iff,
    mem_rangeOf?_iff hnodup h, rangeAt?_iff h]
  constructor
  · intro ⟨r, ⟨hr, hm⟩, hn⟩
    have hsize := size_of_mem_layOut (hranges ▸ hr)
    by_cases hi : i < r.flow.stmts.size
    · rw [if_pos hi, Option.some.injEq] at hn
      unfold MethodFlow.nodeOf at hn
      have hindex : r.flow.indexOf? (n - r.base) = some i :=
        MethodFlow.indexOf?_eq_some_iff.mpr ⟨by omega, Nat.ne_of_lt hi⟩
      have hholds : r.Holds n := by
        unfold MethodRange.Holds
        omega
      exact ⟨r, ⟨hr, hholds⟩, i, hindex, by rw [hm]⟩
    · rw [if_neg hi] at hn
      cases hn
  · intro ⟨r, ⟨hr, hlow, hhigh⟩, i', hindex, hsite⟩
    cases hsite
    have hsize := size_of_mem_layOut (hranges ▸ hr)
    obtain ⟨hnode, hi⟩ := MethodFlow.indexOf?_eq_some_iff.mp hindex
    refine ⟨r, ⟨hr, rfl⟩, ?_⟩
    unfold MethodFlow.nodeOf
    rw [if_pos (by omega), Option.some.injEq]
    omega

end Supergraph

end ObjectFlow
