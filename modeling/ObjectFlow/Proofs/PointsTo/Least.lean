/-
  File:      ObjectFlow/Proofs/PointsTo/Least.lean
  Subject:   A FINISHED RUN STANDS FOR THE LEAST CLOSED SOLUTION.

  * `Reading.solution R s`: the solution a state stands for;
  * `Saturated.closed`: with no work left it is closed;
  * `RunKeeps`: what holds of every state of a run, with a plugin that takes part in it;
  * `run_least`: the solution of the last state lies below every closed solution, because nothing
    the run ever knew was made up.
-/
import ObjectFlow.Proofs.PointsTo.Saturation

namespace ObjectFlow

/-! ## 1. The solution a state stands for -/

/-- The facts a state knows, said of what its numbers stand for. -/
def Reading.solution {κ ν K O : Type} [DecidableEq κ] (R : Reading κ ν K O)
    (s : EngineState κ ν) : Solution K O where
  reachable n := ∃ m, s.calls.hasMethod m = true ∧ R.qualified? s.heap s.names m = some n
  calls a b := ∃ e ∈ s.calls.edges, R.qualified? s.heap s.names e.site = some a ∧
    R.qualified? s.heap s.names e.callee = some b
  pointsTo x o := ∃ id i, R.placeAt? s id = some x ∧ R.object? s.heap s.names i = some o ∧
    i ∈ s.pointsTo id

/-- All facts there are. -/
def Solution.all (K O : Type) : Solution K O := ⟨fun _ => True, fun _ _ => True, fun _ _ => True⟩

theorem Solution.all_closed {K O : Type} (p : Program) (heap : HeapPolicy) (A : Abstraction K O)
    (start : MethodId) : (Solution.all K O).Closed p heap A start := by
  constructor <;> simp [all, Flows]

section Least

variable {κ ν K O : Type} [DecidableEq κ] {R : Reading κ ν K O} {A : Abstraction K O}
  {p : Program} {rules : Sensitivity κ ν} {heap : HeapPolicy} {S : Solution K O}
  {start : MethodId} {names : ν} {s : EngineState κ ν}

/-- Nothing is made up. -/
theorem Within.solution_le (h : Within R heap S s) : R.solution s ≤ S := by
  refine ⟨fun n hn => ?_, fun a b hab => ?_, fun x o hx => ?_⟩
  · obtain ⟨m, hm, hq⟩ := hn
    obtain ⟨n', hn', hS⟩ := h.reachable m hm
    rw [hq] at hn'
    cases hn'
    exact hS
  · obtain ⟨e, he, ha, hb⟩ := hab
    obtain ⟨a', b', ha', hb', hS⟩ := h.calls e he
    rw [ha] at ha'
    rw [hb] at hb'
    cases ha'
    cases hb'
    exact hS
  · obtain ⟨id, i, hid, hi, hmem⟩ := hx
    obtain ⟨x', o', hx', ho', hS⟩ := h.points id i hmem
    rw [hid] at hx'
    rw [hi] at ho'
    cases hx'
    cases ho'
    exact hS

/-! ## 2. With no work left nothing is missing -/

section Idle

variable (hR : R.Faithful p rules A) (hw : Within R heap S s) (hs : Saturated R A p heap s)
  (hidle : s.queue.toList = [])

include hidle in
omit [DecidableEq κ] in
theorem mem_of_arrives {id : PointerId} {i : Nat} (h : s.Arrives id i) : i ∈ s.pointsTo id := by
  rcases h with hi | ⟨objects, hmem, -⟩
  · exact hi
  · rw [hidle] at hmem
    exact absurd hmem List.not_mem_nil

include hR hw in
theorem pointer_unique {id id' : PointerId} {a : Pointer κ} {x : Place K O}
    (hid : R.placeAt? s id = some x) (hid' : s.graph.pointer? id' = some a)
    (ha : R.place? s.heap s.names a = some x) : id = id' := by
  obtain ⟨b, hb, hx⟩ := Option.bind_eq_some_iff.mp hid
  rw [hR.place_inj hw.valid hx ha] at hb
  exact hw.graph.distinct id id' a hb hid'

include hR hw hs hidle in
/-- The solution is closed along the edges of the graph. -/
theorem flows_of_linked {a b : Pointer κ} {x y : Place K O} (hl : s.Linked a b)
    (ha : R.place? s.heap s.names a = some x) (hb : R.place? s.heap s.names b = some y) :
    (R.solution s).Flows x y := by
  intro o ⟨id', i, hid', hi, hmem⟩
  obtain ⟨id, t, hid, ht, hedge⟩ := hl
  have hsame := pointer_unique hR hw hid' hid ha
  subst hsame
  exact ⟨t, i, Option.bind_eq_some_iff.mpr ⟨b, ht, hb⟩, hi,
    mem_of_arrives hidle (hs.flow id' t i hedge hmem)⟩

include hidle in
theorem pointsTo_of_reaches {a : Pointer κ} {i : Nat} {x : Place K O} {o : O} (hr : s.Reaches a i)
    (ha : R.place? s.heap s.names a = some x) (hi : R.object? s.heap s.names i = some o) :
    (R.solution s).pointsTo x o := by
  obtain ⟨id, hid, harr⟩ := hr
  exact ⟨id, i, Option.bind_eq_some_iff.mpr ⟨a, hid, ha⟩, hi, mem_of_arrives hidle harr⟩

include hidle in
theorem calls_of_called {site : Qualified κ Site} {callee : Qualified κ MethodId}
    {a : Qualified K Site} {b : Qualified K MethodId} (hc : s.Called site callee)
    (ha : R.qualified? s.heap s.names site = some a)
    (hb : R.qualified? s.heap s.names callee = some b) : (R.solution s).calls a b := by
  rcases hc with ⟨e, he, rfl, rfl⟩ | ⟨kind, hp⟩
  · exact ⟨e, he, ha, hb⟩
  · rw [hidle] at hp
    exact absurd hp List.not_mem_nil

include hs in
/-- What a variable points to was taken up there. -/
theorem taken_of_pointsTo {k : K} {v : VarId} {o : O} (h : (R.solution s).pointsTo (.var k v) o) :
    ∃ c i, TakenUp R A p k o c v i s := by
  obtain ⟨id, i, hid, hi, hmem⟩ := h
  obtain ⟨a, ha, hplace⟩ := Option.bind_eq_some_iff.mp hid
  obtain ⟨c, rfl, hk⟩ := Reading.eq_var_of_place? hplace
  obtain ⟨k', o', ht⟩ := hs.taken id c v i ha hmem
  have hk' := ht.context
  have ho := ht.object
  rw [hk] at hk'
  rw [hi] at ho
  cases hk'
  cases ho
  exact ⟨c, i, ht⟩

include hs in
/-- The statements of a reachable method were entered. -/
theorem entered_of_reachable {k : K} {site : Site} {stmt : Stmt}
    (h : (R.solution s).reachable ⟨k, site.method⟩) (hstmt : p.stmt? site = some stmt) :
    ∃ c, R.context? s.heap s.names c = some k ∧ Entered R A p heap c (site, stmt) s := by
  obtain ⟨⟨c, m⟩, hm, hq⟩ := h
  obtain ⟨k', hk', heq⟩ := Option.map_eq_some_iff.mp hq
  cases heq
  exact ⟨c, hk', hs.entered ⟨c, site.method⟩ hm (site, stmt) (Program.mem_sitesOf.mpr ⟨rfl, hstmt⟩)⟩

include hR hw hs hidle in
/-- **With no work left, the solution a saturated state stands for is closed.** -/
theorem Saturated.closed (hentry : s.calls.hasMethod ⟨rules.entryContext, start⟩ = true) :
    (R.solution s).Closed p heap A start where
  entry := ⟨_, hentry, Reading.qualified?_eq (hR.entry hw.valid) start⟩
  alloc hreach hstmt := by
    obtain ⟨c, hc, k, i, hk, hi, hr⟩ := entered_of_reachable hs hreach hstmt
    rw [hc] at hk
    cases hk
    exact pointsTo_of_reaches hidle hr (Reading.place?_var hc _) hi
  copy hreach hstmt := by
    obtain ⟨c, hc, hl⟩ := entered_of_reachable hs hreach hstmt
    exact flows_of_linked hR hw hs hidle hl (Reading.place?_var hc _) (Reading.place?_var hc _)
  cast hreach hstmt := by
    obtain ⟨c, hc, hl⟩ := entered_of_reachable hs hreach hstmt
    exact flows_of_linked hR hw hs hidle hl (Reading.place?_var hc _) (Reading.place?_var hc _)
  loadStatic hreach hstmt := by
    obtain ⟨c, hc, hl⟩ := entered_of_reachable hs hreach hstmt
    exact flows_of_linked hR hw hs hidle hl rfl (Reading.place?_var hc _)
  storeStatic hreach hstmt := by
    obtain ⟨c, hc, hl⟩ := entered_of_reachable hs hreach hstmt
    exact flows_of_linked hR hw hs hidle hl (Reading.place?_var hc _) rfl
  callStatic hreach hstmt hkind hm := by
    obtain ⟨c, hc, hcall⟩ := entered_of_reachable hs hreach hstmt
    obtain ⟨k, c', hk, hc', hcalled⟩ := hcall hkind _ hm
    rw [hc] at hk
    cases hk
    exact calls_of_called hidle hcalled (Reading.qualified?_eq hc _) (Reading.qualified?_eq hc' _)
  loadField hpts hstmt := by
    obtain ⟨c, i, ht⟩ := taken_of_pointsTo hs hpts
    exact flows_of_linked hR hw hs hidle (ht.access _ _ _ _ hstmt rfl rfl)
      (Reading.place?_field ht.object _) (Reading.place?_var ht.context _)
  storeField hpts hstmt := by
    obtain ⟨c, i, ht⟩ := taken_of_pointsTo hs hpts
    exact flows_of_linked hR hw hs hidle (ht.access _ _ _ _ hstmt rfl rfl)
      (Reading.place?_var ht.context _) (Reading.place?_field ht.object _)
  loadArray hpts hstmt := by
    obtain ⟨c, i, ht⟩ := taken_of_pointsTo hs hpts
    exact flows_of_linked hR hw hs hidle (ht.access _ _ _ _ hstmt rfl rfl)
      (Reading.place?_element ht.object) (Reading.place?_var ht.context _)
  storeArray hpts hstmt := by
    obtain ⟨c, i, ht⟩ := taken_of_pointsTo hs hpts
    exact flows_of_linked hR hw hs hidle (ht.access _ _ _ _ hstmt rfl rfl)
      (Reading.place?_var ht.context _) (Reading.place?_element ht.object)
  callOn hpts hstmt hbase hm := by
    obtain ⟨c, i, ht⟩ := taken_of_pointsTo hs hpts
    obtain ⟨c', hc', hcalled, -⟩ := ht.call _ _ hstmt hbase _ _ hstmt hm
    exact calls_of_called hidle hcalled (Reading.qualified?_eq ht.context _)
      (Reading.qualified?_eq hc' _)
  receiver hpts hstmt hbase hm hthis := by
    obtain ⟨c, i, ht⟩ := taken_of_pointsTo hs hpts
    obtain ⟨c', hc', -, hr⟩ := ht.call _ _ hstmt hbase _ _ hstmt hm
    exact pointsTo_of_reaches hidle (hr _ hthis) (Reading.place?_var hc' _) ht.object
  callee hcall := by
    obtain ⟨e, he, -, hb⟩ := hcall
    exact ⟨e.callee, (hs.connected e he).callee, hb⟩
  argument hcall hstmt hmem := by
    obtain ⟨e, he, ha, hb⟩ := hcall
    obtain ⟨ka, hka, rfl⟩ := Option.map_eq_some_iff.mp ha
    obtain ⟨kb, hkb, rfl⟩ := Option.map_eq_some_iff.mp hb
    exact flows_of_linked hR hw hs hidle ((hs.connected e he).argument _ _ _ hstmt hmem)
      (Reading.place?_var hka _) (Reading.place?_var hkb _)
  result hcall hstmt hresult hmem := by
    obtain ⟨e, he, ha, hb⟩ := hcall
    obtain ⟨ka, hka, rfl⟩ := Option.map_eq_some_iff.mp ha
    obtain ⟨kb, hkb, rfl⟩ := Option.map_eq_some_iff.mp hb
    exact flows_of_linked hR hw hs hidle ((hs.connected e he).result _ _ _ hstmt hresult hmem)
      (Reading.place?_var hkb _) (Reading.place?_var hka _)

end Idle

/-! ## 3. Runs -/

/-- **One item of work**, whichever end of the queue it comes from. -/
theorem step_advances {ρ : Type} {plugin : Plugin κ ν ρ} {J : EngineState κ ν → ρ → Prop}
    (hR : R.Faithful p rules A) (hS : S.Closed p heap A start)
    (hplugin : plugin.Cooperates R p rules heap S J) {run next : EngineState κ ν × ρ}
    (hw : Within R heap S run.1) (hs : Saturated R A p heap run.1) (hJ : J run.1 run.2)
    (h : Engine.step p rules plugin run = some next) : Advances R A p heap S J run.1 next := by
  obtain ⟨⟨w, rest⟩, hq, hstep⟩ := Option.map_eq_some_iff.mp h
  subst hstep
  cases w with
  | points id objects => exact doPoints_advances hR hS hplugin hw hs hJ hq
  | call e => exact doCall_advances hR hS hplugin hw hs hJ hq

/-- The state without facts and without work. -/
def EngineState.blank (κ : Type) {ν : Type} (heap : HeapPolicy) (names : ν) (order : QueueOrder) :
    EngineState κ ν :=
  { heap := { policy := heap }, names := names, queue := { order := order } }

theorem blank_saturated (hv : R.Valid { policy := heap } names) (order : QueueOrder) :
    Within R heap S (.blank κ heap names order) ∧
      Saturated R A p heap (.blank κ heap names order) := by
  refine ⟨⟨hv, rfl, PointerGraph.wf_empty, ?_, ?_, ?_, ?_, ?_, ?_⟩, ⟨?_, ?_, ?_, ?_⟩⟩
  all_goals simp [EngineState.blank, EngineState.pointsTo, PointerGraph.pointsTo, PointerGraph.successors,
    WorkQueue.toList, CallGraph.hasMethod, IdSet.mem_def, IdSet.empty]

/-- **The state a run starts from.** -/
theorem start_saturated (hR : R.Faithful p rules A) (hS : S.Closed p heap A start)
    (hv : R.Valid { policy := heap } names) (order : QueueOrder) :
    let s := Engine.start p rules names heap order start
    Within R heap S s ∧ Saturated R A p heap s ∧
      s.calls.hasMethod ⟨rules.entryContext, start⟩ = true ∧ s.calls.edges = #[] := by
  obtain ⟨hw, hs⟩ := blank_saturated (A := A) (p := p) (S := S) hv order
  obtain ⟨hw', he, hentered⟩ := reach_extends hR hS hw
    (Reading.qualified?_eq (hR.entry hv) start) hS.entry
  have hcalls : (Engine.start p rules names heap order start).calls
      = ((EngineState.blank κ heap names order).calls.addReachable
          ⟨rules.entryContext, start⟩).addEntry ⟨rules.entryContext, start⟩ :=
    congrArg (fun g : ContextCallGraph κ => g.addEntry ⟨rules.entryContext, start⟩) he.calls
  have hmethods : ∀ m, (Engine.start p rules names heap order start).calls.hasMethod m = true ↔
      m = ⟨rules.entryContext, start⟩ := by
    intro m
    rw [hcalls, CallGraph.hasMethod_addEntry, CallGraph.hasMethod_addReachable]
    simp [EngineState.blank, CallGraph.hasMethod]
  have hedges : (Engine.start p rules names heap order start).calls.edges = #[] := by
    rw [hcalls, CallGraph.edges_addEntry, CallGraph.edges_addReachable]
    rfl
  have hadded : Grows R (EngineState.reach p rules (.blank κ heap names order)
      ⟨rules.entryContext, start⟩) (Engine.start p rules names heap order start) := by
    refine grows_withCalls (fun m hm => CallGraph.hasMethod_addEntry.mpr (.inl hm)) fun e hm => ?_
    rw [CallGraph.edges_addEntry]
    exact hm
  have hreached : Grows R (EngineState.blank κ heap names order)
      { EngineState.blank κ heap names order with
        calls := (EngineState.blank κ heap names order).calls.addReachable
          ⟨rules.entryContext, start⟩ } := by
    refine grows_withCalls (fun m hm => CallGraph.hasMethod_addReachable.mpr (.inl hm)) fun e hm => ?_
    rw [CallGraph.edges_addReachable]
    exact hm
  have hg := (hreached.trans he.grows).trans hadded
  have hsets : ∀ id, (Engine.start p rules names heap order start).pointsTo id
      = (EngineState.blank κ heap names order).pointsTo id := he.sets
  refine ⟨hw'.withCalls (fun m hm => ?_)
      (fun m hm => CallGraph.hasMethod_addEntry.mpr (.inl hm)) (fun m hm => .inl ?_)
      (fun e hm => .inl ?_),
    hs.grows hw hg (he.flows hs.flow) (fun m hm => .inr fun here hhere => ?_)
      (fun id c v i _ hi => .inl ?_) (fun e hm => ?_), (hmethods _).mpr rfl, hedges⟩
  · rcases CallGraph.mem_entries_addEntry.mp hm with hold | rfl
    · exact .inl hold
    · exact .inr ((hmethods _).mpr rfl)
  · rw [(hmethods m).mp hm, he.calls]
    exact CallGraph.hasMethod_addReachable.mpr (.inr rfl)
  · rw [CallGraph.edges_addEntry] at hm
    exact hm
  · rw [(hmethods m).mp hm] at hhere ⊢
    rcases hentered with hold | hnew
    · simp [EngineState.blank, CallGraph.hasMethod] at hold
    · exact (hnew here hhere).grows hadded
  · rw [hsets] at hi
    exact hi
  · rw [hedges] at hm
    simp at hm

/-- **What holds of every state of a run**: it is saturated, within every solution of a class of
    closed ones, and the plugin keeps its invariant. -/
structure RunKeeps {ρ : Type} (R : Reading κ ν K O) (A : Abstraction K O) (p : Program)
    (rules : Sensitivity κ ν) (heap : HeapPolicy) (start : MethodId) (Model : Solution K O → Prop)
    (J : Solution K O → EngineState κ ν → ρ → Prop) (run : EngineState κ ν × ρ) : Prop where
  entry : run.1.calls.hasMethod ⟨rules.entryContext, start⟩ = true
  saturated : Saturated R A p heap run.1
  within : ∀ S, Model S → Within R heap S run.1
  plugin : ∀ S, Model S → J S run.1 run.2

section Runs

variable {ρ : Type} {plugin : Plugin κ ν ρ} {memory : ρ} {Model : Solution K O → Prop}
  {J : Solution K O → EngineState κ ν → ρ → Prop} (hR : R.Faithful p rules A)
  (hclosed : ∀ S, Model S → S.Closed p heap A start) (hall : Model (Solution.all K O))
  (hplugin : ∀ S, Model S → plugin.Cooperates R p rules heap S (J S))

include hR hclosed hall in
/-- It holds at the start, if the plugin's invariant does where nothing is called yet. -/
theorem start_keeps (hv : R.Valid { policy := heap } names) (order : QueueOrder)
    (hJ : ∀ S, Model S → ∀ s, Within R heap S s → s.calls.edges = #[] → J S s memory) :
    RunKeeps R A p rules heap start Model J
      (Engine.start p rules names heap order start, memory) := by
  obtain ⟨-, hs, hentry, hedges⟩ := start_saturated hR (hclosed _ hall) hv order
  have hw : ∀ S, Model S → Within R heap S (Engine.start p rules names heap order start) :=
    fun S hS => (start_saturated hR (hclosed S hS) hv order).1
  exact ⟨hentry, hs, hw, fun S hS => hJ S hS _ (hw S hS) hedges⟩

include hR hclosed hall hplugin in
/-- Every item of work keeps it. -/
theorem step_keeps {run next : EngineState κ ν × ρ}
    (hrun : RunKeeps R A p rules heap start Model J run)
    (h : Engine.step p rules plugin run = some next) :
    RunKeeps R A p rules heap start Model J next := by
  have hadv : ∀ S, Model S → Advances R A p heap S (J S) run.1 next := fun S hS =>
    step_advances hR (hclosed S hS) (hplugin S hS) (hrun.within S hS) hrun.saturated
      (hrun.plugin S hS) h
  exact ⟨(hadv _ hall).grows.methods hrun.entry, (hadv _ hall).saturated,
    fun S hS => (hadv S hS).within, fun S hS => (hadv S hS).plugin⟩

include hR hclosed hall hplugin in
/-- **Where a run stops no work is left**, and what every state keeps holds there. -/
theorem keeps_of_iterate {run final : EngineState κ ν × ρ} {allowance : Nat}
    (hrun : RunKeeps R A p rules heap start Model J run)
    (h : iterate (Engine.step p rules plugin) allowance run = some final) :
    RunKeeps R A p rules heap start Model J final ∧ final.1.queue.toList = [] := by
  obtain ⟨hfinal, hstop⟩ := iterate_invariant (P := RunKeeps R A p rules heap start Model J)
    (fun _ _ hrun hstep => step_keeps hR hclosed hall hplugin hrun hstep) hrun h
  exact ⟨hfinal, (WorkQueue.pop?_eq_none_iff _).mp (Option.map_eq_none_iff.mp hstop)⟩

include hR hall in
/-- The solution such a final state stands for is closed. -/
theorem RunKeeps.closed {final : EngineState κ ν × ρ}
    (h : RunKeeps R A p rules heap start Model J final) (hidle : final.1.queue.toList = []) :
    (R.solution final.1).Closed p heap A start :=
  h.saturated.closed hR (h.within _ hall) hidle h.entry

end Runs

/-- **The solution a finished run stands for is the least closed one**, in either order of the
    queue. -/
theorem run_least (hR : R.Faithful p rules A) (hv : R.Valid { policy := heap } names)
    {order : QueueOrder} {allowance : Nat} {t : EngineState κ ν}
    (h : Engine.runWithin p rules Plugin.none () allowance
      (Engine.start p rules names heap order start) = some (t, ())) :
    (∀ S : Solution K O, S.Closed p heap A start → Within R heap S t) ∧
      (R.solution t).Closed p heap A start := by
  obtain ⟨⟨u, r⟩, hiter, hend⟩ := Option.map_eq_some_iff.mp h
  cases hend
  have hclosed : ∀ S : Solution K O, S.Closed p heap A start → S.Closed p heap A start :=
    fun _ hS => hS
  have hall := Solution.all_closed p heap A start
  obtain ⟨hkeeps, hidle⟩ := keeps_of_iterate hR hclosed hall
    (fun _ _ => Plugin.none_cooperates)
    (start_keeps hR hclosed hall hv order fun _ _ _ _ _ => trivial) hiter
  exact ⟨hkeeps.within, hkeeps.closed hR hall hidle⟩

end Least

/-! ## 4. Reading results -/

/-- What a pointer stands for, when every context and every object stands for something. -/
def Pointer.read {κ K O : Type} (context : κ → K) (object : Nat → O) : Pointer κ → Place K O
  | .var c v => .var (context c) v
  | .staticField f => .staticField f
  | .field i f => .field (object i) f
  | .element i => .element (object i)

section Results

variable {κ ν K O : Type} [DecidableEq κ] {R : Reading κ ν K O} {heap : HeapPolicy}
  {S : Solution K O} {s : EngineState κ ν} {context : κ → K} {object : Nat → O}
  (hc : ∀ c k, R.context? s.heap s.names c = some k → context c = k)
  (ho : ∀ i o, R.object? s.heap s.names i = some o → object i = o)

include hc ho in
omit [DecidableEq κ] in
theorem read_eq {a : Pointer κ} {x : Place K O} (h : R.place? s.heap s.names a = some x) :
    a.read context object = x := by
  cases a with
  | staticField f => exact Option.some.inj h
  | var c v =>
    obtain ⟨k, hk, rfl⟩ := Option.map_eq_some_iff.mp h
    exact congrArg (Place.var · v) (hc c k hk)
  | field i f =>
    obtain ⟨o, hi, rfl⟩ := Option.map_eq_some_iff.mp h
    exact congrArg (Place.field · f) (ho i o hi)
  | element i =>
    obtain ⟨o, hi, rfl⟩ := Option.map_eq_some_iff.mp h
    exact congrArg Place.element (ho i o hi)

include hc ho in
/-- The table of all pointers, read with total readings. -/
theorem pointsTo_iff_read (hw : Within R heap S s) {x : Place K O} {o : O} :
    (R.solution s).pointsTo x o ↔ ∃ a, a.read context object = x ∧
      ∃ i ∈ (s.graph.entries.lookup a).getD .empty, object i = o := by
  constructor
  · intro ⟨id, i, hid, hi, hmem⟩
    obtain ⟨a, ha, hx⟩ := Option.bind_eq_some_iff.mp hid
    exact ⟨a, read_eq hc ho hx, i,
      (PointerGraph.mem_lookup_entries hw.graph).mpr ⟨id, ha, hmem⟩, ho i o hi⟩
  · intro ⟨a, ha, i, hmem, hi⟩
    obtain ⟨id, hid, hmem⟩ := (PointerGraph.mem_lookup_entries hw.graph).mp hmem
    obtain ⟨x', o', hx', ho', -⟩ := hw.points id i hmem
    obtain ⟨a', ha', hplace⟩ := Option.bind_eq_some_iff.mp hx'
    rw [hid, Option.some.injEq] at ha'
    subst ha'
    rw [← ha, read_eq hc ho hplace, ← hi, ho i o' ho']
    exact ⟨id, i, hx', ho', hmem⟩

include hc in
theorem reachable_iff_read (hw : Within R heap S s) {n : Qualified K MethodId} :
    (R.solution s).reachable n ↔
      ∃ m, s.calls.hasMethod m = true ∧ (⟨context m.context, m.item⟩ : Qualified K MethodId) = n := by
  constructor
  · intro ⟨m, hm, hn⟩
    obtain ⟨k, hk, rfl⟩ := Option.map_eq_some_iff.mp hn
    exact ⟨m, hm, by rw [hc _ k hk]⟩
  · intro hread
    obtain ⟨m, hm, rfl⟩ := hread
    obtain ⟨n, hn, -⟩ := hw.reachable m hm
    obtain ⟨k, hk, rfl⟩ := Option.map_eq_some_iff.mp hn
    refine ⟨m, hm, ?_⟩
    rw [hc _ k hk]
    exact hn

include hc in
theorem calls_iff_read (hw : Within R heap S s) {a : Qualified K Site} {b : Qualified K MethodId} :
    (R.solution s).calls a b ↔
      ∃ e ∈ s.calls.edges, (⟨context e.site.context, e.site.item⟩ : Qualified K Site) = a ∧
        (⟨context e.callee.context, e.callee.item⟩ : Qualified K MethodId) = b := by
  constructor
  · intro ⟨e, he, ha, hb⟩
    obtain ⟨ka, hka, rfl⟩ := Option.map_eq_some_iff.mp ha
    obtain ⟨kb, hkb, rfl⟩ := Option.map_eq_some_iff.mp hb
    exact ⟨e, he, by rw [hc _ ka hka], by rw [hc _ kb hkb]⟩
  · intro hread
    obtain ⟨e, he, rfl, rfl⟩ := hread
    obtain ⟨a, b, ha, hb, -⟩ := hw.calls e he
    obtain ⟨ka, hka, rfl⟩ := Option.map_eq_some_iff.mp ha
    obtain ⟨kb, hkb, rfl⟩ := Option.map_eq_some_iff.mp hb
    refine ⟨e, he, ?_, ?_⟩
    · rw [hc _ ka hka]
      exact ha
    · rw [hc _ kb hkb]
      exact hb

end Results

end ObjectFlow
