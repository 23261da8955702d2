/-
  File:      ObjectFlow/Proofs/Taint/MoreRules.lean
  Subject:   ADDING TAINT RULES NEVER HIDES A FLOW.

  More rules change what is dispatched, the numbers of objects and contexts and the order of all
  work, so two runs have no steps in common. Their reports are compared instead: a solution closed
  under more rules is closed under fewer (`TaintClosed.of_included`), so the least solution grows
  with the rules, and so do the flows it derives (`TaintReport.mono`).
-/
import ObjectFlow.Proofs.Taint.Flows

namespace ObjectFlow

/-! ## 1. Inclusion of rules -/

/-- Every source, sink and transfer of the first rules is one of the second. -/
structure TaintRules.Included (fewer more : TaintRules) : Prop where
  sources : fewer.sources ⊆ more.sources
  sinks : fewer.sinks ⊆ more.sinks
  transfers : fewer.transfers ⊆ more.transfers

namespace TaintRules

theorem mem_rulesOf {α : Type} {rules : List (MethodId × α)} {m : MethodId} {a : α} :
    a ∈ rulesOf rules m ↔ (m, a) ∈ rules := by
  simp [rulesOf]

theorem rulesOf_subset {α : Type} {fewer more : List (MethodId × α)} (h : fewer ⊆ more)
    (m : MethodId) : rulesOf fewer m ⊆ rulesOf more m :=
  fun _ ha => mem_rulesOf.mpr (h (mem_rulesOf.mp ha))

end TaintRules

/-! ## 2. Solutions and reports -/

section Reports

variable {K O : Type} {p : Program} {heap : HeapPolicy} {fewer more : TaintRules}
  {A : TaintAbstraction K O} {start : MethodId} {S T : Solution K O}
  {flows flows' : List TaintFlow}

/-- What is closed under more rules is closed under fewer. -/
theorem Solution.TaintClosed.of_included (h : S.TaintClosed p heap more A start)
    (hrules : fewer.Included more) : S.TaintClosed p heap fewer A start where
  toClosed := h.toClosed
  source hcall hstmt hresult hty :=
    h.source hcall hstmt hresult (TaintRules.rulesOf_subset hrules.sources _ hty)
  transfer hcall hstmt htr :=
    h.transfer hcall hstmt (TaintRules.rulesOf_subset hrules.transfers _ htr)

/-- A larger solution derives a flow under more rules too. -/
theorem Solution.Leaks.mono {f : TaintFlow} (h : S.Leaks p fewer A f) (hle : S ≤ T)
    (hrules : fewer.Included more) : T.Leaks p more A f := by
  obtain ⟨c, b, i, v, o, hcall, hrule, hstmt, harg, hpts, hsource⟩ := h
  exact ⟨c, b, i, v, o, hle.2.1 _ _ hcall, TaintRules.rulesOf_subset hrules.sinks _ hrule, hstmt,
    harg, hle.2.2 _ _ hpts, hsource⟩

/-- **Reports grow with the rules.** -/
theorem TaintReport.mono (h : TaintReport p heap fewer A start S flows)
    (h' : TaintReport p heap more A start T flows') (hrules : fewer.Included more) :
    S ≤ T ∧ flows ⊆ flows' := by
  have hle : S ≤ T := h.least.2 (h'.least.1.of_included hrules)
  refine ⟨hle, fun f hf => ?_⟩
  exact (h'.derivable f).mpr (((h.derivable f).mp hf).mono hle hrules)

end Reports

/-! ## 3. Runs -/

/-- **Adding taint rules never hides a flow**, for every program, entry method, selector, heap
    policy and order of work: the analysis ends under either rules, and with all rules of the
    first among the second it reports under the second every flow it reports under the first. -/
theorem more_rules_keep_flows (p : Program) (options : PointsToOptions) (entry : MethodId)
    {fewer more : TaintRules} (hrules : fewer.Included more) :
    ∃ n r memory r' memory', (∀ m, n ≤ m →
        ContextSensitive.analyzeWithin p options (Taint.plugin p fewer) {} m entry
          = some (r, memory) ∧
        ContextSensitive.analyzeWithin p options (Taint.plugin p more) {} m entry
          = some (r', memory')) ∧
      r.solution ≤ r'.solution ∧ memory.flows ⊆ memory'.flows := by
  obtain ⟨n, ⟨r, memory⟩, hn⟩ := ContextSensitive.taintAnalysis_ends p options fewer entry
  obtain ⟨n', ⟨r', memory'⟩, hn'⟩ := ContextSensitive.taintAnalysis_ends p options more entry
  have hreport := ContextSensitive.taintReport (hn n (Nat.le_refl n))
  have hreport' := ContextSensitive.taintReport (hn' n' (Nat.le_refl n'))
  exact ⟨max n n', r, memory, r', memory',
    fun m hm => ⟨hn m (le_of_max_le_left hm), hn' m (le_of_max_le_right hm)⟩,
    hreport.mono hreport' hrules⟩

/-- The rules of `wrapping`, with `wrap` making tainted data of its own. -/
def wrappingMoreRules : TaintRules :=
  { wrappingRules with sources := [(2, .object 0), (1, .object 0)] }

/-- What `read` made still arrives at `write`, now beside what `wrap` makes. -/
theorem more_rules_keep_flows_wrapping :
    wrappingRules.Included wrappingMoreRules ∧
    ∃ n r memory r' memory', (∀ m, n ≤ m →
        ContextSensitive.analyzeWithin wrapping { selector := .callSite 1 }
          (Taint.plugin wrapping wrappingRules) {} m 0 = some (r, memory) ∧
        ContextSensitive.analyzeWithin wrapping { selector := .callSite 1 }
          (Taint.plugin wrapping wrappingMoreRules) {} m 0 = some (r', memory')) ∧
      r.solution ≤ r'.solution ∧ memory.flows ⊆ memory'.flows := by
  have hrules : wrappingRules.Included wrappingMoreRules :=
    ⟨by decide, by decide, by decide⟩
  exact ⟨hrules, more_rules_keep_flows wrapping { selector := .callSite 1 } 0 hrules⟩

example :
    ((ContextSensitive.analyzeWithin wrapping { selector := .callSite 1 }
      (Taint.plugin wrapping wrappingMoreRules) {} 20 0).map fun (_, memory) => memory.flows)
      = some [⟨⟨0, 0⟩, ⟨0, 2⟩, 0⟩, ⟨⟨0, 1⟩, ⟨0, 2⟩, 0⟩] := by
  decide +kernel

end ObjectFlow
