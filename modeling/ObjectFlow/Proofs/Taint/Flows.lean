/-
  File:      ObjectFlow/Proofs/Taint/Flows.lean
  Subject:   TAINT FLOWS ARE REPORTED EXACTLY WHEN THEY CAN BE DERIVED.

  * `Tracking.taintClosed`: with no work left, the solution of the run is closed under the rules
    of taint tracking as well, so it is the least solution of all rules;
  * `Tracking.mem_flowsInto`: what is read off the remembered sinks are the flows that this
    solution derives;
  * `TaintReport`: solution and flows as the rules determine them; there is one only, so the order
    of work does not matter.
-/
import ObjectFlow.Proofs.Taint.Vocabulary

namespace ObjectFlow

/-! ## 1. Lists of flows -/

instance : Std.TransOrd Site :=
  inferInstanceAs (Std.TransCmp (compareLex (compareOn Site.method) (compareOn Site.index)))

instance : Std.LawfulEqOrd Site where
  eq_of_compare {a b} h := by
    obtain ⟨hmethod, hindex⟩ := Ordering.then_eq_eq.mp h
    cases a
    cases b
    cases Std.LawfulEqOrd.eq_of_compare hmethod
    cases Std.LawfulEqOrd.eq_of_compare hindex
    rfl

namespace TaintFlow

instance : Std.TransOrd TaintFlow :=
  inferInstanceAs (Std.TransCmp (compareLex (compareLex (compareOn TaintFlow.source)
    (compareOn TaintFlow.sink)) (compareOn TaintFlow.index)))

instance : Std.LawfulEqOrd TaintFlow where
  eq_of_compare {a b} h := by
    obtain ⟨hends, hindex⟩ := Ordering.then_eq_eq.mp h
    obtain ⟨hsource, hsink⟩ := Ordering.then_eq_eq.mp hends
    cases a
    cases b
    cases Std.LawfulEqOrd.eq_of_compare hsource
    cases Std.LawfulEqOrd.eq_of_compare hsink
    cases Std.LawfulEqOrd.eq_of_compare hindex
    rfl

/-- Flows are listed in ascending order, each once. -/
def Ascending (flows : List TaintFlow) : Prop := flows.Pairwise fun f g => compare f g = .lt

theorem mem_insert {f g : TaintFlow} {flows : List TaintFlow} :
    g ∈ insert f flows ↔ g = f ∨ g ∈ flows := by
  induction flows with
  | nil => exact List.mem_cons
  | cons h rest ih =>
    unfold insert
    cases hcompare : compare f h with
    | lt => exact List.mem_cons
    | eq =>
      rw [Std.LawfulEqOrd.eq_of_compare hcompare, List.mem_cons, ← or_assoc, or_self]
    | gt => rw [List.mem_cons, ih, List.mem_cons, or_left_comm]

theorem Ascending.insert {flows : List TaintFlow} (h : Ascending flows) (f : TaintFlow) :
    Ascending (insert f flows) := by
  induction flows with
  | nil => exact List.pairwise_singleton _ f
  | cons g rest ih =>
    obtain ⟨hhead, hrest⟩ := List.pairwise_cons.mp h
    unfold TaintFlow.insert
    cases hcompare : compare f g with
    | lt =>
      refine List.pairwise_cons.mpr ⟨fun g' hg' => ?_, h⟩
      rcases List.mem_cons.mp hg' with rfl | hg'
      · exact hcompare
      · exact Std.TransCmp.lt_trans hcompare (hhead g' hg')
    | eq => exact h
    | gt =>
      refine List.pairwise_cons.mpr ⟨fun g' hg' => ?_, ih hrest⟩
      rcases mem_insert.mp hg' with rfl | hg'
      · exact Std.OrientedCmp.lt_of_gt hcompare
      · exact hhead g' hg'

/-- Inserting flows one by one. -/
theorem foldl_insert (found : List TaintFlow) {flows : List TaintFlow} (h : Ascending flows) :
    Ascending (found.foldl (fun flows f => insert f flows) flows) ∧
      ∀ g, g ∈ found.foldl (fun flows f => insert f flows) flows ↔ g ∈ found ∨ g ∈ flows := by
  induction found generalizing flows with
  | nil => exact ⟨h, fun g => by simp only [List.foldl_nil, List.not_mem_nil, false_or]⟩
  | cons f found ih =>
    obtain ⟨hascending, hmem⟩ := ih (h.insert f)
    refine ⟨hascending, fun g => ?_⟩
    rw [List.foldl_cons, hmem, mem_insert, List.mem_cons, or_left_comm, or_assoc]

/-- Ascending lists of the same flows are the same. -/
theorem Ascending.eq_of_mem_iff {flows flows' : List TaintFlow} (h : Ascending flows)
    (h' : Ascending flows') (hmem : ∀ f, f ∈ flows ↔ f ∈ flows') : flows = flows' := by
  have hnodup : ∀ {l}, Ascending l → l.Nodup := fun hl => hl.imp fun {f g} hlt heq => by
    rw [heq, Std.ReflOrd.compare_self] at hlt
    cases hlt
  refine ((List.perm_ext_iff_of_nodup (hnodup h) (hnodup h')).mpr hmem).eq_of_pairwise
    (fun f g _ _ hlt hgt => ?_) h h'
  rw [Std.OrientedCmp.gt_of_lt hgt] at hlt
  cases hlt

end TaintFlow

/-! ## 2. With no work left -/

section Idle

variable {κ ν K O : Type} [DecidableEq κ] {R : Reading κ ν K O} {A : TaintAbstraction K O}
  {p : Program} {taint : TaintRules} {rules : Sensitivity κ ν} {heap : HeapPolicy}
  {S : Solution K O} {start : MethodId} {s : EngineState κ ν} {memory : TaintMemory}

/-- A call of the solution is a call edge, and what it asks for was done. -/
theorem Tracking.of_calls (hJ : Tracking R A p taint S s memory) {a : Qualified K Site}
    {b : Qualified K MethodId} (h : (R.solution s).calls a b) :
    ∃ e : ContextCallEdge κ, R.context? s.heap s.names e.site.context = some a.context ∧
      e.site.item = a.item ∧ e.callee.item = b.item ∧ CallTracked R A p taint e (s, memory) := by
  obtain ⟨e, he, ha, hb⟩ := h
  obtain ⟨k, hk, rfl⟩ := Option.map_eq_some_iff.mp ha
  obtain ⟨k', -, rfl⟩ := Option.map_eq_some_iff.mp hb
  exact ⟨e, hk, rfl, rfl, hJ.calls e he⟩

/-- With no work left, the solution is closed along the edges of the plugin. -/
theorem Tracking.retags (hR : R.TaintFaithful p rules A) (hw : Within R heap S s)
    (hJ : Tracking R A p taint S s memory) (hidle : s.queue.toList = []) {e : TaintEdge}
    (he : e ∈ memory.edges) {x y : Place K O} (hx : R.placeAt? s e.source = some x)
    (hy : R.placeAt? s e.target = some y) : (R.solution s).Retags A x y e.ty := by
  intro o site ⟨id, i, hid, hi, hmem⟩ hsite
  obtain ⟨a, ha, hplace⟩ := Option.bind_eq_some_iff.mp hx
  have hsame := pointer_unique hR.toFaithful hw hid ha hplace
  subst hsame
  obtain ⟨b, o', hb, ho', hpassed⟩ := hJ.tracks.passed e he i hmem
  rw [hi] at ho'
  cases ho'
  obtain ⟨j, hj, hr⟩ := hpassed site hsite
  obtain ⟨b', hb', hplace'⟩ := Option.bind_eq_some_iff.mp hy
  rw [hb] at hb'
  cases hb'
  exact pointsTo_of_reaches hidle hr hplace' hj

/-- **With no work left, the solution is closed under the rules of taint tracking.** -/
theorem Tracking.taintClosed (hR : R.TaintFaithful p rules A) (hw : Within R heap S s)
    (hclosed : (R.solution s).Closed p heap A.toAbstraction start)
    (hJ : Tracking R A p taint S s memory) (hidle : s.queue.toList = []) :
    (R.solution s).TaintClosed p heap taint A start where
  toClosed := hclosed
  source hcall hstmt hresult hty := by
    obtain ⟨e, hc, hsite, hcallee, ht⟩ := hJ.of_calls hcall
    rw [← hsite] at hstmt ⊢
    rw [← hcallee] at hty
    obtain ⟨j, hj, hr⟩ := ht.source _ _ _ hstmt hresult hty
    exact pointsTo_of_reaches hidle hr (Reading.place?_var hc _) hj
  transfer hcall hstmt htr hx hy := by
    obtain ⟨e, hc, hsite, hcallee, ht⟩ := hJ.of_calls hcall
    rw [← hsite] at hstmt
    rw [← hcallee] at htr
    obtain ⟨source, target, hsource, htarget, hedge⟩ := ht.transfer _ _ hstmt htr _ _ hx hy
    exact hJ.retags hR hw hidle hedge
      (Option.bind_eq_some_iff.mpr ⟨_, hsource, Reading.place?_var hc _⟩)
      (Option.bind_eq_some_iff.mpr ⟨_, htarget, Reading.place?_var hc _⟩)

omit [DecidableEq κ] in
theorem Taint.mem_flowsInto {sink : SinkSlot} {f : TaintFlow} :
    f ∈ flowsInto rules s sink ↔ ∃ i ∈ s.pointsTo sink.pointer,
      s.taintSource? rules i = some f.source ∧ sink.site = f.sink ∧ sink.index = f.index := by
  unfold flowsInto
  rw [List.mem_filterMap]
  constructor
  · intro ⟨i, hi, hf⟩
    obtain ⟨source, hsource, rfl⟩ := Option.map_eq_some_iff.mp hf
    exact ⟨i, hi, hsource, rfl, rfl⟩
  · intro ⟨i, hi, hsource, hsink, hindex⟩
    refine ⟨i, hi, Option.map_eq_some_iff.mpr ⟨f.source, hsource, ?_⟩⟩
    rw [hsink, hindex]

/-- **The flows into the remembered sinks are the ones the solution derives.** -/
theorem Tracking.mem_flowsInto (hR : R.TaintFaithful p rules A)
    (hw : Within R heap (R.solution s) s) (hJ : Tracking R A p taint (R.solution s) s memory)
    {f : TaintFlow} :
    f ∈ memory.sinks.flatMap (Taint.flowsInto rules s) ↔ (R.solution s).Leaks p taint A f := by
  rw [List.mem_flatMap]
  constructor
  · intro ⟨sink, hmem, hf⟩
    obtain ⟨i, hi, hsource, hsite, hindex⟩ := Taint.mem_flowsInto.mp hf
    obtain ⟨c, b, call, v, hv, hcall, hrule, hstmt, harg⟩ := hJ.tracks.sinks sink hmem
    rw [hsite] at hcall hstmt
    rw [hindex] at hrule harg
    obtain ⟨x, o, hx, ho, hpts⟩ := hw.points sink.pointer i hi
    rw [hv] at hx
    cases hx
    rw [Taint.taintSource?_eq hR hw.valid ho] at hsource
    exact ⟨c, b, call, v, o, hcall, hrule, hstmt, harg, hpts, hsource⟩
  · intro ⟨c, b, call, v, o, hcall, hrule, hstmt, harg, ⟨id', i, hid', hi, hmem⟩, hsource⟩
    obtain ⟨e, hc, hsite, hcallee, ht⟩ := hJ.of_calls hcall
    rw [← hcallee] at hrule
    have hstmt' : p.stmt? e.site.item = some (.call call) := hsite.symm ▸ hstmt
    obtain ⟨id, hid, hsink⟩ := ht.sink _ _ hstmt' hrule v harg
    have hsame := pointer_unique hR.toFaithful hw hid' hid (Reading.place?_var hc v)
    subst hsame
    refine ⟨_, hsink, Taint.mem_flowsInto.mpr ⟨i, hmem, ?_, hsite, rfl⟩⟩
    rw [Taint.taintSource?_eq hR hw.valid hi]
    exact hsource

end Idle

/-! ## 3. What is reported -/

/-- **What an analysis with taint tracking has to report**: the least solution of all rules, and
    in ascending order the flows that it derives. -/
structure TaintReport {K O : Type} (p : Program) (heap : HeapPolicy) (taint : TaintRules)
    (A : TaintAbstraction K O) (start : MethodId) (S : Solution K O) (flows : List TaintFlow) :
    Prop where
  least : IsLeast {T | T.TaintClosed p heap taint A start} S
  derivable : ∀ f, f ∈ flows ↔ S.Leaks p taint A f
  /-- Every reported source is a call of a source. -/
  sources : ∀ f ∈ flows, S.CallsSource taint f.source
  ascending : TaintFlow.Ascending flows

/-- There is one report only. -/
theorem TaintReport.unique {K O : Type} {p : Program} {heap : HeapPolicy} {taint : TaintRules}
    {A : TaintAbstraction K O} {start : MethodId} {S S' : Solution K O}
    {flows flows' : List TaintFlow} (h : TaintReport p heap taint A start S flows)
    (h' : TaintReport p heap taint A start S' flows') : S = S' ∧ flows = flows' := by
  have hsame : S = S' := h.least.unique h'.least
  subst hsame
  exact ⟨rfl, h.ascending.eq_of_mem_iff h'.ascending fun f =>
    (h.derivable f).trans (h'.derivable f).symm⟩

section Runs

variable {κ ν K O : Type} [DecidableEq κ] {R : Reading κ ν K O} {A : TaintAbstraction K O}
  {p : Program} {taint : TaintRules} {rules : Sensitivity κ ν} {heap : HeapPolicy}
  {start : MethodId} {names : ν} {order : QueueOrder} {allowance : Nat} {s : EngineState κ ν}
  {memory : TaintMemory}

/-- **A finished run with taint tracking** lies within every solution closed under the rules and
    reports its own. -/
theorem taintReport_of_run (hR : R.TaintFaithful p rules A)
    (hv : R.Valid { policy := heap } names)
    (h : Engine.runWithin p rules (Taint.plugin p taint) {} allowance
      (Engine.start p rules names heap order start) = some (s, memory)) :
    Within R heap (R.solution s) s ∧
      TaintReport p heap taint A start (R.solution s) memory.flows := by
  obtain ⟨⟨_, remembered⟩, hiter, hend⟩ := Option.map_eq_some_iff.mp h
  cases hend
  have hclosed : ∀ S : Solution K O, S.TaintClosed p heap taint A start →
      S.Closed p heap A.toAbstraction start := fun _ hS => hS.toClosed
  have hall := Solution.all_taintClosed p heap taint A start
  obtain ⟨hkeeps, hidle⟩ := keeps_of_iterate hR.toFaithful hclosed hall
    (fun _ hS => Taint.plugin_cooperates hR hS)
    (start_keeps hR.toFaithful hclosed hall hv order
      fun _ _ _ _ hedges => Taint.tracking_start hedges) hiter
  have htaint := (hkeeps.plugin _ hall).taintClosed hR (hkeeps.within _ hall)
    (hkeeps.closed hR.toFaithful hall hidle) hidle
  have hleast : IsLeast {T | T.TaintClosed p heap taint A start} (R.solution s) :=
    ⟨htaint, fun T hT => (hkeeps.within T hT).solution_le⟩
  have hJ := hkeeps.plugin _ htaint
  -- nothing was listed before the end
  have hblank : TaintFlow.Ascending remembered.flows := by
    rw [hJ.tracks.flows]
    exact List.Pairwise.nil
  obtain ⟨hascending, hmem⟩ := TaintFlow.foldl_insert
    (remembered.sinks.flatMap (Taint.flowsInto rules s)) hblank
  have hflows : ∀ f, f ∈ ((Taint.plugin p taint).onFinish rules s remembered).flows ↔
      (R.solution s).Leaks p taint A f := by
    intro f
    refine (hmem f).trans ?_
    rw [hJ.mem_flowsInto hR (hkeeps.within _ htaint), hJ.tracks.flows, or_iff_left List.not_mem_nil]
  refine ⟨hkeeps.within _ htaint, hleast, hflows, fun f hf => ?_, hascending⟩
  obtain ⟨_, _, _, _, _, _, _, _, _, hpts, hsource⟩ := (hflows f).mp hf
  exact Solution.sourced_of_isLeast hleast hpts hsource

end Runs

variable {p : Program} {options : PointsToOptions} {taint : TaintRules} {allowance : Nat}
  {entry : MethodId} {memory : TaintMemory}

theorem Plain.taintReport {r : PlainResult}
    (h : analyzeWithin p options (Taint.plugin p taint) {} allowance entry = some (r, memory)) :
    TaintReport p options.heap taint taintAbstraction entry r.solution memory.flows := by
  obtain ⟨⟨s, memory'⟩, hrun, hend⟩ := Option.map_eq_some_iff.mp h
  cases hend
  obtain ⟨hw, hreport⟩ := taintReport_of_run (reading_taintFaithful p) Interner.distinct_empty hrun
  rw [result_solution hw]
  exact hreport

theorem ContextSensitive.taintReport {r : ContextResult}
    (h : analyzeWithin p options (Taint.plugin p taint) {} allowance entry = some (r, memory)) :
    TaintReport p options.heap taint options.selector.taintAbstraction entry r.solution
      memory.flows := by
  obtain ⟨⟨s, memory'⟩, hrun, hend⟩ := Option.map_eq_some_iff.mp h
  cases hend
  obtain ⟨hw, hreport⟩ := taintReport_of_run (reading_taintFaithful p options.selector)
    (named_empty options.heap) hrun
  rw [result_solution hw]
  exact hreport

/-- **Taint flows are reported exactly when they can be derived**, for every program, entry
    method, rules, selector and heap policy: the analysis with contexts and the one without end in
    either order of work with the least solution of all rules and the flows that it derives, and
    both orders with the same. -/
theorem taint_flows_exact (p : Program) (options : PointsToOptions) (taint : TaintRules)
    (entry : MethodId) :
    (∃ S flows, TaintReport p options.heap taint options.selector.taintAbstraction entry S flows ∧
      ∀ order, ∃ n r memory, (∀ m, n ≤ m → ContextSensitive.analyzeWithin p
          { options with order := order } (Taint.plugin p taint) {} m entry = some (r, memory)) ∧
        r.solution = S ∧ memory.flows = flows) ∧
    (∃ S flows, TaintReport p options.heap taint Plain.taintAbstraction entry S flows ∧
      ∀ order, ∃ n r memory, (∀ m, n ≤ m → Plain.analyzeWithin p
          { options with order := order } (Taint.plugin p taint) {} m entry = some (r, memory)) ∧
        r.solution = S ∧ memory.flows = flows) := by
  constructor
  · obtain ⟨n, ⟨r, memory⟩, hn⟩ := ContextSensitive.taintAnalysis_ends p options taint entry
    have hreport := ContextSensitive.taintReport (hn n (Nat.le_refl n))
    refine ⟨r.solution, memory.flows, hreport, fun order => ?_⟩
    obtain ⟨n', ⟨r', memory'⟩, hn'⟩ :=
      ContextSensitive.taintAnalysis_ends p { options with order := order } taint entry
    exact ⟨n', r', memory', hn',
      (ContextSensitive.taintReport (hn' n' (Nat.le_refl n'))).unique hreport⟩
  · obtain ⟨n, ⟨r, memory⟩, hn⟩ := Plain.taintAnalysis_ends p options taint entry
    have hreport := Plain.taintReport (hn n (Nat.le_refl n))
    refine ⟨r.solution, memory.flows, hreport, fun order => ?_⟩
    obtain ⟨n', ⟨r', memory'⟩, hn'⟩ :=
      Plain.taintAnalysis_ends p { options with order := order } taint entry
    exact ⟨n', r', memory', hn', (Plain.taintReport (hn' n' (Nat.le_refl n'))).unique hreport⟩

/-- `main` reads data, wraps it and writes what it wrapped. -/
def wrapping : Program where
  classes := #[{ name := "Main", methods := [0, 1, 2, 3] }]
  methods := #[
    { name := "main", owner := 0, subsig := 0, paramTypes := [], retType := .prim .int
      isStatic := true, isAbstract := false, vars := [0, 1]
      body := #[⟨1, .call ⟨.static, ⟨0, 1⟩, none, [], some 0⟩⟩,
        ⟨2, .call ⟨.static, ⟨0, 2⟩, none, [0], some 1⟩⟩,
        ⟨3, .call ⟨.static, ⟨0, 3⟩, none, [1], none⟩⟩] },
    { name := "read", owner := 0, subsig := 1, paramTypes := [], retType := .object 0
      isStatic := true, isAbstract := false },
    { name := "wrap", owner := 0, subsig := 2, paramTypes := [.object 0], retType := .object 0
      isStatic := true, isAbstract := false, params := [2], vars := [2] },
    { name := "write", owner := 0, subsig := 3, paramTypes := [.object 0], retType := .prim .int
      isStatic := true, isAbstract := false, params := [3], vars := [3] }]
  vars := #[⟨"data", .object 0, 0, 0⟩, ⟨"wrapped", .object 0, 0, 1⟩, ⟨"x", .object 0, 2, 0⟩,
    ⟨"y", .object 0, 3, 0⟩]
  subsigs := #["int main()", "Main read()", "Main wrap(Main)", "int write(Main)"]

/-- What `read` makes is tainted, `wrap` passes it on, and `write` must not receive it. -/
def wrappingRules : TaintRules where
  sources := [(1, .object 0)]
  sinks := [(3, 0)]
  transfers := [(2, ⟨.arg 0, .result, .object 0⟩)]

-- the call of `wrap` may be connected before or after the data arrives at its argument
example (order : QueueOrder) :
    ((ContextSensitive.analyzeWithin wrapping { selector := .callSite 1, order := order }
      (Taint.plugin wrapping wrappingRules) {} 20 0).map fun (_, memory) => memory.flows)
      = some [⟨⟨0, 0⟩, ⟨0, 2⟩, 0⟩] := by
  cases order <;> decide +kernel

end ObjectFlow
