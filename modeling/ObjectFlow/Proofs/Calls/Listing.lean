/-
  File:      ObjectFlow/Proofs/Calls/Listing.lean
  Subject:   CALL GRAPHS LIST EVERYTHING ONCE: each reachable method, and each callee of a site.

  * `CallGraph.Once`: nothing is listed twice, which all operations keep;
  * `once_rename`: so also what becomes equal when sites and methods are renamed;
  * `mem_calleesOf`, `mem_callersOf`: the two projections of the edges, each without repetition.
-/
import Mathlib.Data.List.Nodup
import ObjectFlow.Proofs.Numbering

namespace ObjectFlow

namespace CallGraph

variable {σ μ : Type} [DecidableEq σ] [DecidableEq μ]

/-! ## 1. Nothing is listed twice -/

/-- **No method is listed twice, and no callee of one site.** -/
structure Once (g : CallGraph σ μ) : Prop where
  reachable : g.reachable.toList.Nodup
  edges : g.edges.toList.Pairwise fun e e' => ¬ (e.site = e'.site ∧ e.callee = e'.callee)

variable {g : CallGraph σ μ}

omit [DecidableEq σ] [DecidableEq μ] in
theorem once_empty : ({} : CallGraph σ μ).Once := ⟨List.nodup_nil, .nil⟩

omit [DecidableEq σ] in
theorem Once.addReachable (h : g.Once) (m : μ) : (g.addReachable m).Once := by
  unfold CallGraph.addReachable
  by_cases hm : g.hasMethod m = true
  · rw [if_pos hm]
    exact h
  · rw [if_neg hm]
    refine ⟨?_, h.edges⟩
    rw [Array.toList_push]
    refine List.Nodup.append h.reachable (List.nodup_singleton m)
      (List.disjoint_singleton.mpr fun hmem => ?_)
    exact hm (hasMethod_iff.mpr (Array.mem_toList_iff.mp hmem))

omit [DecidableEq σ] in
theorem Once.addEntry (h : g.Once) (m : μ) : (g.addEntry m).Once :=
  Once.addReachable (g := { g with entries := g.entries.push m }) ⟨h.reachable, h.edges⟩ m

theorem Once.addEdge (h : g.Once) (e : CallEdge σ μ) : (g.addEdge e).Once := by
  unfold CallGraph.addEdge
  by_cases he : g.hasEdge e.site e.callee = true
  · rw [if_pos he]
    exact h
  · rw [if_neg he]
    refine ⟨h.reachable, ?_⟩
    rw [Array.toList_push, List.pairwise_append]
    refine ⟨h.edges, List.pairwise_singleton _ e, fun e' he' e'' he'' => ?_⟩
    rw [List.mem_singleton.mp he'']
    exact fun hsame => he (hasEdge_iff.mpr ⟨e', Array.mem_toList_iff.mp he', hsame⟩)

omit [DecidableEq σ] [DecidableEq μ] in
/-- **Renaming lists once what becomes equal.** -/
theorem once_rename {σ' μ' : Type} [DecidableEq σ'] [DecidableEq μ'] (g : CallGraph σ μ)
    (site : σ → σ') (method : μ → μ') : (g.rename site method).Once := by
  have hloop : ∀ {α : Type} (items : Array α) {f : CallGraph σ' μ' → α → CallGraph σ' μ'}
      {g : CallGraph σ' μ'}, g.Once → (∀ g a, g.Once → (f g a).Once) → (items.foldl f g).Once := by
    intro α items f g hg hf
    obtain ⟨l⟩ := items
    rw [List.foldl_toArray]
    exact List.foldlRecOn l f hg fun g hg a _ => hf g a hg
  refine hloop _ (hloop _ (hloop _ once_empty ?_) ?_) ?_
  · exact fun g m hg => hg.addEntry (method m)
  · exact fun g m hg => hg.addReachable (method m)
  · exact fun g e hg => hg.addEdge _

/-! ## 2. Callees and callers -/

omit [DecidableEq μ] in
/-- The callees of a site are the ends of its edges. -/
theorem mem_calleesOf {site : σ} {m : μ} :
    m ∈ g.calleesOf site ↔ ∃ e ∈ g.edges, e.site = site ∧ e.callee = m := by
  simp [calleesOf, and_assoc]

omit [DecidableEq σ] in
/-- The callers of a method are the sites of the edges to it. -/
theorem mem_callersOf {site : σ} {m : μ} :
    site ∈ g.callersOf m ↔ ∃ e ∈ g.edges, e.site = site ∧ e.callee = m := by
  simp [callersOf, and_assoc, and_comm]

omit [DecidableEq μ] in
theorem Once.nodup_calleesOf (h : g.Once) (site : σ) : (g.calleesOf site).Nodup := by
  refine List.pairwise_map.mpr (List.Pairwise.imp_of_mem ?_ (h.edges.filter _))
  intro e e' he he' hne hcallee
  have hsite := (List.mem_filter.mp he).2
  have hsite' := (List.mem_filter.mp he').2
  simp only [decide_eq_true_eq] at hsite hsite'
  exact hne ⟨hsite.trans hsite'.symm, hcallee⟩

omit [DecidableEq σ] in
theorem Once.nodup_callersOf (h : g.Once) (m : μ) : (g.callersOf m).Nodup := by
  refine List.pairwise_map.mpr (List.Pairwise.imp_of_mem ?_ (h.edges.filter _))
  intro e e' he he' hne hsite
  have hcallee := (List.mem_filter.mp he).2
  have hcallee' := (List.mem_filter.mp he').2
  simp only [decide_eq_true_eq] at hcallee hcallee'
  exact hne ⟨hsite, hcallee.trans hcallee'.symm⟩

end CallGraph

end ObjectFlow
