/-
  File:      ObjectFlow/Proofs/PointsTo/Plain.lean
  Subject:   THE ANALYSIS WITHOUT CONTEXTS COMPUTES THE LEAST SOLUTION OF ITS RULES.

  There is one context, and objects are told apart by what they stand for: an allocation site or
  a type. A result is read with total readings (`PlainResult.solution`): whatever its tables hold
  is part of the solution.
-/
import ObjectFlow.Proofs.PointsTo.Least

namespace ObjectFlow

/-! ## 1. What results say -/

/-- Objects are what they stand for. -/
def Plain.abstraction : Abstraction Unit HeapObject where
  entry := ()
  allocated _ object := object
  heapObject object := object
  callee _ _ _ := ()

/-- The facts a result states, each object said by what it stands for. -/
def PlainResult.solution (r : PlainResult) : Solution Unit HeapObject where
  reachable m := r.calls.hasMethod m.item = true
  calls site callee := r.calls.hasEdge site.item callee.item = true
  pointsTo x o := ∃ a : Pointer Unit, a.read id r.heap.objectAt = x ∧
    ∃ i ∈ r.pointsTo a, r.heap.objectAt i = o

/-- The object is in the points-to set, under its number in the heap. -/
def PlainResult.Holds (r : PlainResult) (a : Pointer Unit) (o : HeapObject) : Prop :=
  ∃ i, r.heap.objects.find? o = some i ∧ i ∈ r.pointsTo a

namespace Plain

/-! ## 2. The numbering of a run -/

/-- Objects are read off the heap. -/
def reading : Reading Unit Unit Unit HeapObject where
  Valid h _ := h.objects.Distinct
  context? _ _ _ := some ()
  object? h _ i := h.objects.get? i

theorem reading_faithful (p : Program) : reading.Faithful p sensitivity abstraction where
  context_inj _ _ _ := rfl
  object_inj hv hi hj := hv _ _ _ hi hj
  entry _ := rfl
  heapObject _ hi := Heap.objectAt_of_get? hi
  intern object hv := by
    obtain ⟨-, hkeeps, hdistinct⟩ := Interner.intern_spec (Heap.objects _) object
    exact ⟨hdistinct hv, ⟨fun e => e, fun e => hkeeps _ _ e⟩⟩
  allocated hv _ hi := ⟨hv, ⟨fun e => e, fun e => e⟩, hi⟩
  callee _ _ _ hv _ _ := ⟨hv, ⟨fun e => e, fun e => e⟩, rfl⟩

theorem qualified_eq {α : Type} {a b : Qualified Unit α} (h : a.item = b.item) : a = b := by
  cases a
  cases b
  cases h
  rfl

variable {heap : HeapPolicy} {S : Solution Unit HeapObject} {s : EngineState Unit Unit}

/-- **A result says what the last state of its run knows.** -/
theorem result_solution (hw : Within reading heap S s) :
    (result s).solution = reading.solution s := by
  have hc : ∀ c k, reading.context? s.heap s.names c = some k → id c = k := fun _ _ _ => rfl
  have ho : ∀ i o, reading.object? s.heap s.names i = some o → s.heap.objectAt i = o :=
    fun _ _ hi => Heap.objectAt_of_get? hi
  ext m o
  · -- the methods a run starts from are reachable as well
    rw [reachable_iff_read hc hw]
    show (s.calls.rename (·.item) (·.item)).hasMethod m.item = true ↔ _
    rw [CallGraph.hasMethod_rename]
    constructor
    · intro hcase
      rcases hcase with ⟨n, hn, hm⟩ | ⟨n, hn, hm⟩
      · exact ⟨n, hw.entries n hn, qualified_eq hm.symm⟩
      · exact ⟨n, CallGraph.hasMethod_iff.mpr hn, qualified_eq hm.symm⟩
    · intro hread
      obtain ⟨n, hn, rfl⟩ := hread
      exact .inr ⟨n, CallGraph.hasMethod_iff.mp hn, rfl⟩
  · rw [calls_iff_read hc hw]
    show (s.calls.rename (·.item) (·.item)).hasEdge m.item o.item = true ↔ _
    rw [CallGraph.hasEdge_rename]
    constructor
    · intro ⟨e, he, hsite, hcallee⟩
      exact ⟨e, he, qualified_eq hsite, qualified_eq hcallee⟩
    · intro hread
      obtain ⟨e, he, rfl, rfl⟩ := hread
      exact ⟨e, he, rfl, rfl⟩
  · rw [pointsTo_iff_read hc ho hw]
    exact Iff.rfl

/-- The last state of a run that gave a result. -/
theorem run_of_analyzeWithin {p : Program} {options : PointsToOptions} {allowance : Nat}
    {entry : MethodId} {r : PlainResult}
    (h : analyzeWithin p options Plugin.none () allowance entry = some (r, ())) :
    ∃ s, r = result s ∧
      (∀ S : Solution Unit HeapObject, S.Closed p options.heap abstraction entry →
        Within reading options.heap S s) ∧
      (reading.solution s).Closed p options.heap abstraction entry := by
  obtain ⟨⟨s, m⟩, hrun, hend⟩ := Option.map_eq_some_iff.mp h
  cases hend
  obtain ⟨hw, hclosed⟩ := run_least (reading_faithful p) Interner.distinct_empty hrun
  exact ⟨s, rfl, hw, hclosed⟩

/-! ## 3. The least solution -/

/-- A result is closed under the rules. -/
theorem solution_closed {p : Program} {options : PointsToOptions} {allowance : Nat}
    {entry : MethodId} {r : PlainResult}
    (h : analyzeWithin p options Plugin.none () allowance entry = some (r, ())) :
    r.solution.Closed p options.heap abstraction entry := by
  obtain ⟨s, rfl, hw, hclosed⟩ := run_of_analyzeWithin h
  rw [result_solution (hw _ (Solution.all_closed p options.heap abstraction entry))]
  exact hclosed

/-- The heap of a result gives no object two numbers. -/
theorem heap_distinct {p : Program} {options : PointsToOptions} {allowance : Nat}
    {entry : MethodId} {r : PlainResult}
    (h : analyzeWithin p options Plugin.none () allowance entry = some (r, ())) :
    r.heap.objects.Distinct := by
  obtain ⟨s, rfl, hw, -⟩ := run_of_analyzeWithin h
  exact (hw _ (Solution.all_closed p options.heap abstraction entry)).valid

/-- What a result states it states of pointers and objects under the numbers of its heap. -/
theorem holds_of_pointsTo {p : Program} {options : PointsToOptions} {allowance : Nat}
    {entry : MethodId} {r : PlainResult}
    (h : analyzeWithin p options Plugin.none () allowance entry = some (r, ()))
    {x : Place Unit HeapObject} {o : HeapObject} (hx : r.solution.pointsTo x o) :
    ∃ a, reading.place? r.heap () a = some x ∧ r.Holds a o := by
  obtain ⟨s, rfl, hw, -⟩ := run_of_analyzeWithin h
  have hs := hw _ (Solution.all_closed p options.heap abstraction entry)
  rw [result_solution hs] at hx
  obtain ⟨id, i, hid, hi, hmem⟩ := hx
  obtain ⟨a, ha, hplace⟩ := Option.bind_eq_some_iff.mp hid
  exact ⟨a, hplace, i, Interner.find?_of_get? hs.valid hi,
    (PointerGraph.mem_lookup_entries hs.graph).mpr ⟨id, ha, hmem⟩⟩

/-- **The analysis without contexts computes exactly the least solution of its rules**: for every
    program, entry method, heap policy and order of work, the reachable methods, call edges and
    points-to facts of a finished run are closed under the rules and lie in every closed
    solution. -/
theorem analysis_isLeast {p : Program} {options : PointsToOptions} {allowance : Nat}
    {entry : MethodId} {r : PlainResult}
    (h : analyzeWithin p options Plugin.none () allowance entry = some (r, ())) :
    IsLeast {S | S.Closed p options.heap abstraction entry} r.solution := by
  refine ⟨solution_closed h, fun S hS => ?_⟩
  obtain ⟨s, rfl, hw, -⟩ := run_of_analyzeWithin h
  rw [result_solution (hw S hS)]
  exact (hw S hS).solution_le

/-- Two classes: `main` makes an object of the second one, calls its method on it with another
    object and keeps what comes back in a field of the first. -/
def sample : Program where
  classes := #[{ name := "Main", methods := [0], fields := [0] },
    { name := "Cell", methods := [1], fields := [] }]
  fields := #[⟨"kept", 0, .object 1, true⟩]
  methods := #[
    { name := "main", owner := 0, subsig := 0, paramTypes := [], retType := .object 1
      isStatic := true, isAbstract := false, vars := [0, 1, 2]
      body := #[⟨1, .alloc 0 (.object 1) none⟩, ⟨2, .alloc 1 (.object 1) none⟩,
        ⟨3, .call ⟨.virtual, ⟨1, 1⟩, some 0, [1], some 2⟩⟩, ⟨4, .storeField none 0 2⟩,
        ⟨5, .ret none⟩] },
    { name := "swap", owner := 1, subsig := 1, paramTypes := [.object 1], retType := .object 1
      isStatic := false, isAbstract := false, this := some 3, params := [4], vars := [3, 4]
      body := #[⟨6, .ret (some 4)⟩] }]
  vars := #[⟨"cell", .object 1, 0, 0⟩, ⟨"other", .object 1, 0, 1⟩, ⟨"got", .object 1, 0, 2⟩,
    ⟨"this", .object 1, 1, 0⟩, ⟨"x", .object 1, 1, 1⟩]
  subsigs := #["Cell main()", "Cell swap(Cell)"]

/-- What `main` keeps is the object it passed, and nothing else. -/
theorem analysis_isLeast_sample :
    ∃ r, analyzeWithin sample { order := .lifo } Plugin.none () 30 0 = some (r, ()) ∧
      (r.staticPointsTo 0).elems.map r.heap.objectAt = [⟨.alloc ⟨0, 1⟩, .object 1⟩] ∧
      IsLeast {S | S.Closed sample .allocationSite abstraction 0} r.solution := by
  have h : ((analyzeWithin sample { order := .lifo } Plugin.none () 30 0).map fun (r, _) =>
      (r.staticPointsTo 0).elems.map r.heap.objectAt) = some [⟨.alloc ⟨0, 1⟩, .object 1⟩] := by
    decide +kernel
  obtain ⟨⟨r, _⟩, hr, hkept⟩ := Option.map_eq_some_iff.mp h
  exact ⟨r, hr, hkept, analysis_isLeast hr⟩

end Plain

end ObjectFlow
