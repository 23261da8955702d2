/-
  File:      ObjectFlow/Proofs/PointsTo/Merging.lean
  Subject:   A COARSER HEAP LOSES NO FACTS: what is found with an object for each allocation is
             found with an object for each type.

  * `Solution.through`: a solution over coarse objects, said of the finer objects that are merged
    into them; it is closed under the rules of the finer heap (`Closed.through`), whichever heaps
    these are (`HeapPolicy.Coarsens`);
  * `PlainResult.MergesInto`: one result lies in another, object numbers and all;
  * `coarser_heap_keeps_facts`: so it is with the results of the two heap policies.
-/
import ObjectFlow.Proofs.Taint.Forgetting

namespace ObjectFlow

/-! ## 1. Merging objects -/

/-- The object that stands for all that is allocated of the type of an object. -/
def HeapObject.merged (o : HeapObject) : HeapObject := ⟨.merged, o.ty⟩

/-- **One heap policy merges objects of another**: into objects of the same type, and in such a way
    that the objects of an allocation correspond. -/
structure HeapPolicy.Coarsens (fine coarse : HeapPolicy) (merge : HeapObject → HeapObject) :
    Prop where
  ty : ∀ o, (merge o).ty = o.ty
  objectFor : ∀ site ty, merge (Heap.objectFor fine site ty) = Heap.objectFor coarse site ty

theorem HeapPolicy.coarsens_type (fine : HeapPolicy) : fine.Coarsens .type HeapObject.merged where
  ty _ := rfl
  objectFor _ _ := by cases fine <;> rfl

namespace Solution

variable {p : Program} {fine coarse : HeapPolicy} {merge : HeapObject → HeapObject}
  {start : MethodId} {S : Solution Unit HeapObject}

/-- What a solution says of merged objects, said of each object that is merged. -/
def through (merge : HeapObject → HeapObject) (S : Solution Unit HeapObject) :
    Solution Unit HeapObject where
  reachable := S.reachable
  calls := S.calls
  pointsTo x o := S.pointsTo (x.forget merge) (merge o)

theorem Flows.through {x y : Place Unit HeapObject}
    (h : S.Flows (x.forget merge) (y.forget merge)) : (S.through merge).Flows x y :=
  fun _ ho => h _ ho

/-- **A solution closed over the coarser heap is closed over the finer one**: calls are resolved on
    types, which merging keeps. -/
theorem Closed.through (hmerge : fine.Coarsens coarse merge)
    (h : S.Closed p coarse Plain.abstraction start) :
    (S.through merge).Closed p fine Plain.abstraction start := by
  have hcallee : ∀ {o : HeapObject} {i : Invoke} {m : MethodId},
      p.callee? (some o.ty) i = some m → p.callee? (some (merge o).ty) i = some m := by
    intro o i m hm
    rw [hmerge.ty]
    exact hm
  exact {
    entry := h.entry
    alloc := fun {_ site _ ty _} hr hs => by
      show S.pointsTo _ (merge (Heap.objectFor fine site ty))
      rw [hmerge.objectFor]
      exact h.alloc hr hs
    copy := fun hr hs => (h.copy hr hs).through
    cast := fun hr hs => (h.cast hr hs).through
    loadStatic := fun hr hs => (h.loadStatic hr hs).through
    storeStatic := fun hr hs => (h.storeStatic hr hs).through
    callStatic := h.callStatic
    loadField := fun ho hs => (h.loadField ho hs).through
    storeField := fun ho hs => (h.storeField ho hs).through
    loadArray := fun ho hs => (h.loadArray ho hs).through
    storeArray := fun ho hs => (h.storeArray ho hs).through
    callOn := fun {_ _ o _ _ _} ho hs hb hm => h.callOn (o := merge o) ho hs hb (hcallee hm)
    receiver := fun ho hs hb hm ht => h.receiver ho hs hb (hcallee hm) ht
    callee := h.callee
    argument := fun hc hs hm => (h.argument hc hs hm).through
    result := fun hc hs hr hm => (h.result hc hs hr hm).through }

end Solution

/-! ## 2. Results under their own numbers -/

namespace PlainResult

/-- The object numbered `j` in `r'` stands for all objects of the type of the one numbered `i` in
    `r`. -/
def Merged (r r' : PlainResult) (i j : ObjectId) : Prop :=
  ∃ o, r.heap.objects.get? i = some o ∧ r'.heap.objects.get? j = some o.merged

/-- **The result `r` lies in the result `r'`**, its objects merged by type. -/
structure MergesInto (r r' : PlainResult) : Prop where
  reachable : ∀ m, r.calls.hasMethod m = true → r'.calls.hasMethod m = true
  calls : ∀ site m, r.calls.hasEdge site m = true → r'.calls.hasEdge site m = true
  vars : ∀ v, ∀ i ∈ r.varPointsTo v, ∃ j ∈ r'.varPointsTo v, r.Merged r' i j
  statics : ∀ f, ∀ i ∈ r.staticPointsTo f, ∃ j ∈ r'.staticPointsTo f, r.Merged r' i j
  fields : ∀ b f, ∀ i ∈ r.fieldPointsTo b f, ∃ b', r.Merged r' b b' ∧
    ∃ j ∈ r'.fieldPointsTo b' f, r.Merged r' i j
  elements : ∀ b, ∀ i ∈ r.elementPointsTo b, ∃ b', r.Merged r' b b' ∧
    ∃ j ∈ r'.elementPointsTo b', r.Merged r' i j

end PlainResult

namespace Plain

open PlainResult

variable {p : Program} {options : PointsToOptions} {allowance : Nat} {entry : MethodId}
  {r r' : PlainResult}

/-- What a pointer of a result points to is a fact about a place and an object of its heap. -/
theorem pointsTo_of_mem
    (h : analyzeWithin p options Plugin.none () allowance entry = some (r, ())) {a : Pointer Unit}
    {i : ObjectId} (hi : i ∈ r.pointsTo a) :
    ∃ x o, reading.place? r.heap () a = some x ∧ r.heap.objects.get? i = some o ∧
      r.solution.pointsTo x o := by
  obtain ⟨s, rfl, hw, -⟩ := run_of_analyzeWithin h
  have hs := hw _ (Solution.all_closed p options.heap abstraction entry)
  obtain ⟨id, hid, hmem⟩ := (PointerGraph.mem_lookup_entries hs.graph).mp hi
  obtain ⟨x, o, hx, ho, -⟩ := hs.points id i hmem
  obtain ⟨a', ha', hplace⟩ := Option.bind_eq_some_iff.mp hx
  cases hid.symm.trans ha'
  refine ⟨x, o, hplace, ho, ?_⟩
  rw [result_solution hs]
  exact ⟨id, i, hx, ho, hmem⟩

/-- What is said of a place, seen through merging, is said of the place of merged objects. -/
theorem mergesInto_of_le
    (h : analyzeWithin p options Plugin.none () allowance entry = some (r, ()))
    {options' : PointsToOptions} {allowance' : Nat}
    (h' : analyzeWithin p options' Plugin.none () allowance' entry = some (r', ()))
    (hle : r.solution ≤ r'.solution.through HeapObject.merged) : r.MergesInto r' := by
  -- the place of a pointer and the object it points to, on both sides
  have hmerge : ∀ {a i}, i ∈ r.pointsTo a → ∃ x a' j,
      reading.place? r.heap () a = some x ∧
      reading.place? r'.heap () a' = some (x.forget HeapObject.merged) ∧
      j ∈ r'.pointsTo a' ∧ r.Merged r' i j := by
    intro a i hi
    obtain ⟨x, o, hx, ho, hfact⟩ := pointsTo_of_mem h hi
    obtain ⟨a', ha', j, hj, hmem⟩ := holds_of_pointsTo h' (hle.2.2 x o hfact)
    exact ⟨x, a', j, hx, ha', hmem, o, ho, Interner.get?_of_find? hj⟩
  constructor
  · exact fun m hm => hle.1 ⟨(), m⟩ hm
  · exact fun site m hm => hle.2.1 ⟨(), site⟩ ⟨(), m⟩ hm
  · intro v i hi
    obtain ⟨x, a', j, hx, ha', hj, hij⟩ := hmerge hi
    cases hx
    obtain ⟨c, rfl, -⟩ := Reading.eq_var_of_place? ha'
    exact ⟨j, hj, hij⟩
  · intro f i hi
    obtain ⟨x, a', j, hx, ha', hj, hij⟩ := hmerge hi
    cases hx
    obtain rfl := Reading.eq_static_of_place? ha'
    exact ⟨j, hj, hij⟩
  · intro b f i hi
    obtain ⟨x, a', j, hx, ha', hj, hij⟩ := hmerge hi
    obtain ⟨o, ho, rfl⟩ := Option.map_eq_some_iff.mp hx
    obtain ⟨b', rfl, hb'⟩ := Reading.eq_field_of_place? ha'
    exact ⟨b', ⟨o, ho, hb'⟩, j, hj, hij⟩
  · intro b i hi
    obtain ⟨x, a', j, hx, ha', hj, hij⟩ := hmerge hi
    obtain ⟨o, ho, rfl⟩ := Option.map_eq_some_iff.mp hx
    obtain ⟨b', rfl, hb'⟩ := Reading.eq_element_of_place? ha'
    exact ⟨b', ⟨o, ho, hb'⟩, j, hj, hij⟩

end Plain

/-! ## 3. The two heap policies -/

/-- **A coarser heap loses no facts**, for every program, entry method and order of work. With an
    object for each allocation and with an object for each type the analysis ends; and what the
    first result reaches, calls and points to, the second does, each object replaced by the one
    that stands for its type. -/
theorem coarser_heap_keeps_facts (p : Program) (options : PointsToOptions) (entry : MethodId) :
    ∃ n r r', (∀ k, n ≤ k →
        Plain.analyzeWithin p { options with heap := .allocationSite } Plugin.none () k entry
          = some (r, ()) ∧
        Plain.analyzeWithin p { options with heap := .type } Plugin.none () k entry
          = some (r', ())) ∧
      r.MergesInto r' := by
  obtain ⟨n, ⟨r, _⟩, hn⟩ :=
    Plain.bareAnalysis_ends p { options with heap := .allocationSite } entry
  obtain ⟨n', ⟨r', _⟩, hn'⟩ := Plain.bareAnalysis_ends p { options with heap := .type } entry
  refine ⟨max n n', r, r',
    fun k hk => ⟨hn k (le_of_max_le_left hk), hn' k (le_of_max_le_right hk)⟩, ?_⟩
  have hr := hn n (Nat.le_refl n)
  have hr' := hn' n' (Nat.le_refl n')
  have hclosed := (Plain.solution_closed hr').through (HeapPolicy.coarsens_type .allocationSite)
  refine Plain.mergesInto_of_le hr hr' ?_
  obtain ⟨s, rfl, hw, -⟩ := Plain.run_of_analyzeWithin hr
  rw [Plain.result_solution (hw _ hclosed)]
  exact (hw _ hclosed).solution_le

end ObjectFlow
