/-
  File:      ObjectFlow/Proofs/Taint/Forgetting.lean
  Subject:   CONTEXTS ONLY REMOVE FACTS: with its contexts forgotten, what the analysis finds with
             them it finds without them.

  * `Solution.spread`: a solution without contexts, said of every context and heap context; it is
    closed under the rules of every choice of contexts (`Closed.spread`, `TaintClosed.spread`);
  * `ContextSensitive.forget_solution_le`: forgetting contexts in a result undoes the spreading;
  * `contexts_only_remove`: points-to facts, reachable methods, call edges and flows.
-/
import ObjectFlow.Proofs.Taint.Flows

namespace ObjectFlow

/-! ## 1. Solutions that do not mind contexts -/

/-- A place without its contexts. -/
def Place.forget {K O : Type} (heapObject : O → HeapObject) : Place K O → Place Unit HeapObject
  | .var _ v => .var () v
  | .staticField f => .staticField f
  | .field o f => .field (heapObject o) f
  | .element o => .element (heapObject o)

namespace Solution

variable {K O : Type} {p : Program} {heap : HeapPolicy} {taint : TaintRules} {start : MethodId}
  {S : Solution Unit HeapObject}

/-- What a solution without contexts says, said of every context. -/
def spread (A : Abstraction K O) (S : Solution Unit HeapObject) : Solution K O where
  reachable m := S.reachable ⟨(), m.item⟩
  calls a b := S.calls ⟨(), a.item⟩ ⟨(), b.item⟩
  pointsTo x o := S.pointsTo (x.forget A.heapObject) (A.heapObject o)

theorem Flows.spread {A : Abstraction K O} {x y : Place K O}
    (h : S.Flows (x.forget A.heapObject) (y.forget A.heapObject)) : (S.spread A).Flows x y :=
  fun _ ho => h _ ho

/-- **A solution closed without contexts is closed whatever contexts are chosen.** -/
theorem Closed.spread (h : S.Closed p heap Plain.abstraction start) (A : TaintAbstraction K O) :
    (S.spread A.toAbstraction).Closed p heap A.toAbstraction start where
  entry := h.entry
  alloc hr hs := by
    show S.pointsTo (.var () _) (A.heapObject (A.allocated _ _))
    rw [A.heapObject_allocated]
    exact h.alloc hr hs
  copy hr hs := (h.copy hr hs).spread
  cast hr hs := (h.cast hr hs).spread
  loadStatic hr hs := (h.loadStatic hr hs).spread
  storeStatic hr hs := (h.storeStatic hr hs).spread
  callStatic hr hs hk hm := h.callStatic hr hs hk hm
  loadField ho hs := (h.loadField ho hs).spread
  storeField ho hs := (h.storeField ho hs).spread
  loadArray ho hs := (h.loadArray ho hs).spread
  storeArray ho hs := (h.storeArray ho hs).spread
  callOn ho hs hb hm := h.callOn ho hs hb hm
  receiver ho hs hb hm ht := h.receiver ho hs hb hm ht
  callee hc := h.callee hc
  argument hc hs hm := (h.argument hc hs hm).spread
  result hc hs hr hm := (h.result hc hs hr hm).spread

theorem TaintClosed.spread (h : S.TaintClosed p heap taint Plain.taintAbstraction start)
    (A : TaintAbstraction K O) :
    (S.spread A.toAbstraction).TaintClosed p heap taint A start where
  toClosed := h.toClosed.spread A
  source hc hs hr ht := by
    show S.pointsTo (.var () _) (A.heapObject (A.unallocated _))
    rw [A.heapObject_unallocated]
    exact h.source hc hs hr ht
  transfer hc hs ht hx hy o site ho hsite := by
    show S.pointsTo (.var () _) (A.heapObject (A.unallocated _))
    rw [A.heapObject_unallocated]
    exact h.transfer hc hs ht hx hy _ site ho hsite

/-- A flow derived under some context is derived without contexts. -/
theorem Leaks.of_le_spread {A : TaintAbstraction K O} {T : Solution K O} {f : TaintFlow}
    (h : T.Leaks p taint A f) (hle : T ≤ S.spread A.toAbstraction) :
    S.Leaks p taint Plain.taintAbstraction f := by
  obtain ⟨c, b, i, v, o, hcall, hrule, hstmt, harg, hpts, hsource⟩ := h
  exact ⟨(), ⟨(), b.item⟩, i, v, A.heapObject o, hle.2.1 _ _ hcall, hrule, hstmt, harg,
    hle.2.2 _ _ hpts, hsource⟩

end Solution

/-! ## 2. Results with their contexts forgotten -/

namespace ContextResult

theorem mem_lookup_addTo {a b : Pointer Unit} {objects : IdSet} {i : Nat}
    (sets : List (Pointer Unit × IdSet)) :
    i ∈ ((addTo a objects sets).lookup b).getD .empty ↔
      i ∈ (sets.lookup b).getD .empty ∨ a = b ∧ i ∈ objects := by
  induction sets with
  | nil =>
    by_cases hab : a = b
    · subst hab
      simp [addTo, IdSet.not_mem_empty]
    · have hba : (b == a) = false := beq_eq_false_iff_ne.mpr (Ne.symm hab)
      simp [addTo, List.lookup_cons, hba, hab, IdSet.not_mem_empty]
  | cons e rest ih =>
    obtain ⟨c, set⟩ := e
    unfold addTo
    split
    · rename_i hca
      subst hca
      by_cases hcb : c = b
      · subst hcb
        simp
      · have hbc : (b == c) = false := beq_eq_false_iff_ne.mpr (Ne.symm hcb)
        simp [List.lookup_cons, hbc, hcb]
    · rename_i hca
      by_cases hcb : c = b
      · subst hcb
        simp [Ne.symm hca]
      · have hbc : (b == c) = false := beq_eq_false_iff_ne.mpr (Ne.symm hcb)
        simpa [List.lookup_cons, hbc] using ih

/-- **With contexts forgotten, a pointer points to what it points to under some context.** -/
theorem mem_pointsTo_forget {r : ContextResult} {b : Pointer Unit} {i : Nat} :
    i ∈ r.forget.pointsTo b ↔
      ∃ e ∈ r.sets, r.plainPointer e.1 = b ∧ ∃ j ∈ e.2, r.heapObject j = i := by
  have hstep := holds_foldl_iff (P := fun sets => i ∈ (List.lookup b sets).getD .empty)
    (Q := fun e => r.plainPointer e.1 = b ∧ ∃ j ∈ e.2, r.heapObject j = i)
    (f := fun sets e => addTo (r.plainPointer e.1) (e.2.image r.heapObject) sets)
    (fun sets e => by rw [mem_lookup_addTo, IdSet.mem_image]) r.sets []
  exact hstep.trans (or_iff_right IdSet.not_mem_empty)

end ContextResult

namespace ContextSensitive

/-- **Forgetting the contexts of a result undoes the spreading.** -/
theorem forget_solution_le {heap : HeapPolicy} {selector : Selector}
    {T : Solution (List ContextMark) (Qualified (List ContextMark) HeapObject)}
    {s : EngineState ContextId ContextNames} (hw : Within reading heap T s)
    {S : Solution Unit HeapObject} (hle : reading.solution s ≤ S.spread selector.abstraction) :
    (result s).forget.solution ≤ S := by
  have hitem : ∀ {i o}, reading.object? s.heap s.names i = some o →
      s.heap.objectAt ((result s).heapObject i) = o.item :=
    fun hi => congrArg Qualified.item (objectOf_eq hi)
  have hplace : ∀ {a x}, reading.place? s.heap s.names a = some x →
      ((result s).plainPointer a).read id s.heap.objectAt = x.forget (·.item) := by
    intro a x ha
    cases a with
    | var c v =>
      obtain ⟨k, -, rfl⟩ := Option.map_eq_some_iff.mp ha
      rfl
    | staticField f =>
      cases ha
      rfl
    | field i f =>
      obtain ⟨o, ho, rfl⟩ := Option.map_eq_some_iff.mp ha
      exact congrArg (Place.field · f) (hitem ho)
    | element i =>
      obtain ⟨o, ho, rfl⟩ := Option.map_eq_some_iff.mp ha
      exact congrArg Place.element (hitem ho)
  refine ⟨fun m hm => ?_, fun a b hab => ?_, fun x o hx => ?_⟩
  · -- the methods a run starts from are reachable as well
    have hreached : ∃ n, s.calls.hasMethod n = true ∧ n.item = m.item := by
      rcases CallGraph.hasMethod_rename.mp hm with ⟨n, hn, heq⟩ | ⟨n, hn, heq⟩
      · exact ⟨n, hw.entries n hn, heq.symm⟩
      · exact ⟨n, CallGraph.hasMethod_iff.mpr hn, heq.symm⟩
    obtain ⟨n, hn, heq⟩ := hreached
    obtain ⟨n', hn', -⟩ := hw.reachable n hn
    obtain ⟨k, -, rfl⟩ := Option.map_eq_some_iff.mp hn'
    have hm' : (⟨(), n.item⟩ : Qualified Unit MethodId) = m := Plain.qualified_eq heq
    exact hm' ▸ hle.1 _ ⟨n, hn, hn'⟩
  · obtain ⟨e, he, hsite, hcallee⟩ := CallGraph.hasEdge_rename.mp hab
    obtain ⟨a', b', ha', hb', -⟩ := hw.calls e he
    obtain ⟨k, -, rfl⟩ := Option.map_eq_some_iff.mp ha'
    obtain ⟨k', -, rfl⟩ := Option.map_eq_some_iff.mp hb'
    have hsite' : (⟨(), e.site.item⟩ : Qualified Unit Site) = a := Plain.qualified_eq hsite
    have hcallee' : (⟨(), e.callee.item⟩ : Qualified Unit MethodId) = b :=
      Plain.qualified_eq hcallee
    exact hsite' ▸ hcallee' ▸ hle.2.1 _ _ ⟨e, he, ha', hb'⟩
  · obtain ⟨b, rfl, i, hi, rfl⟩ := hx
    obtain ⟨⟨a, objects⟩, hmem, rfl, j, hj, rfl⟩ := ContextResult.mem_pointsTo_forget.mp hi
    obtain ⟨n, ha, rfl⟩ := PointerGraph.mem_entries hmem
    obtain ⟨y, o, hy, ho, -⟩ := hw.points n j hj
    obtain ⟨a', ha', hread⟩ := Option.bind_eq_some_iff.mp hy
    rw [ha] at ha'
    cases ha'
    have hS := hle.2.2 _ _ ⟨n, j, hy, ho, hj⟩
    show S.pointsTo (((result s).plainPointer a).read id s.heap.objectAt)
      (s.heap.objectAt ((result s).heapObject j))
    rw [hplace hread, hitem ho]
    exact hS

/-! ## 3. With contexts and without -/

variable {p : Program} {options : PointsToOptions} {taint : TaintRules} {allowance : Nat}
  {entry : MethodId} {r : ContextResult} {S : Solution Unit HeapObject}

theorem forget_le_of_closed
    (h : analyzeWithin p options Plugin.none () allowance entry = some (r, ()))
    (hS : S.Closed p options.heap Plain.abstraction entry) : r.forget.solution ≤ S := by
  obtain ⟨⟨s, _⟩, hrun, hend⟩ := Option.map_eq_some_iff.mp h
  cases hend
  obtain ⟨hw, -⟩ := run_least (reading_faithful p options.selector) (named_empty options.heap) hrun
  have hspread := hw _ (hS.spread options.selector.taintAbstraction)
  exact forget_solution_le hspread hspread.solution_le

theorem forget_le_of_taintClosed {memory : TaintMemory}
    (h : analyzeWithin p options (Taint.plugin p taint) {} allowance entry = some (r, memory))
    (hS : S.TaintClosed p options.heap taint Plain.taintAbstraction entry) :
    r.forget.solution ≤ S ∧
      ∀ f ∈ memory.flows, S.Leaks p taint Plain.taintAbstraction f := by
  obtain ⟨⟨s, _⟩, hrun, hend⟩ := Option.map_eq_some_iff.mp h
  cases hend
  obtain ⟨hw, hreport⟩ := taintReport_of_run (reading_taintFaithful p options.selector)
    (named_empty options.heap) hrun
  have hle := hreport.least.2 (hS.spread options.selector.taintAbstraction)
  exact ⟨forget_solution_le hw hle, fun f hf => ((hreport.derivable f).mp hf).of_le_spread hle⟩

end ContextSensitive

/-- **Contexts only remove facts**, for every program, entry method, heap policy, order of work and
    selector of any depth. With its contexts forgotten, the analysis with contexts reaches, calls
    and points to nothing that the analysis without them does not, objects told apart by what they
    stand for; and with taint tracking it reports no other flows. -/
theorem contexts_only_remove (p : Program) (options : PointsToOptions) (taint : TaintRules)
    (entry : MethodId) :
    (∃ n r memory r' memory', (∀ m, n ≤ m →
        ContextSensitive.analyzeWithin p options (Taint.plugin p taint) {} m entry
          = some (r, memory) ∧
        Plain.analyzeWithin p options (Taint.plugin p taint) {} m entry = some (r', memory')) ∧
      r.forget.solution ≤ r'.solution ∧ ∀ f ∈ memory.flows, f ∈ memory'.flows) ∧
    (∃ n r r', (∀ m, n ≤ m →
        ContextSensitive.analyzeWithin p options Plugin.none () m entry = some (r, ()) ∧
        Plain.analyzeWithin p options Plugin.none () m entry = some (r', ())) ∧
      r.forget.solution ≤ r'.solution) := by
  constructor
  · obtain ⟨n, ⟨r, memory⟩, hn⟩ := ContextSensitive.taintAnalysis_ends p options taint entry
    obtain ⟨n', ⟨r', memory'⟩, hn'⟩ := Plain.taintAnalysis_ends p options taint entry
    have hreport := Plain.taintReport (hn' n' (Nat.le_refl n'))
    obtain ⟨hle, hflows⟩ :=
      ContextSensitive.forget_le_of_taintClosed (hn n (Nat.le_refl n)) hreport.least.1
    exact ⟨max n n', r, memory, r', memory',
      fun m hm => ⟨hn m (le_of_max_le_left hm), hn' m (le_of_max_le_right hm)⟩, hle,
      fun f hf => (hreport.derivable f).mpr (hflows f hf)⟩
  · obtain ⟨n, ⟨r, _⟩, hn⟩ := ContextSensitive.bareAnalysis_ends p options entry
    obtain ⟨n', ⟨r', _⟩, hn'⟩ := Plain.bareAnalysis_ends p options entry
    exact ⟨max n n', r, r',
      fun m hm => ⟨hn m (le_of_max_le_left hm), hn' m (le_of_max_le_right hm)⟩,
      ContextSensitive.forget_le_of_closed (hn n (Nat.le_refl n))
        (Plain.solution_closed (hn' n' (Nat.le_refl n')))⟩

end ObjectFlow
