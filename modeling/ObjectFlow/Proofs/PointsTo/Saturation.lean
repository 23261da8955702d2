/-
  File:      ObjectFlow/Proofs/PointsTo/Saturation.lean
  Subject:   NOTHING IS LOST AND NOTHING IS MADE UP, at any moment of a run of the engine.

  * `Saturated`: what the rules ask of the facts a state knows is there or pending;
  * `Arrival`: all that happens to a state when objects arrive at a pointer;
  * `Plugin.Cooperates`: a plugin may take part as long as it only extends the state within the
    solution, and may have an invariant of its own;
  * `doPoints_advances`, `doCall_advances`: one item of work keeps a state saturated and within
    every closed solution, whichever end of the queue it came from, and leaves less work or a new
    fact behind.
-/
import ObjectFlow.Proofs.PointsTo.Effects

namespace ObjectFlow

/-! ## 1. Saturated states -/

/-- **What the rules ask of the facts a state knows is there or pending.** -/
structure Saturated {κ ν K O : Type} [DecidableEq κ] (R : Reading κ ν K O) (A : Abstraction K O)
    (p : Program) (heap : HeapPolicy) (s : EngineState κ ν) : Prop where
  flow : ∀ id t i, t ∈ s.graph.successors id → i ∈ s.pointsTo id → s.Arrives t i
  entered : ∀ m, s.calls.hasMethod m = true →
    ∀ here ∈ p.sitesOf m.item, Entered R A p heap m.context here s
  taken : ∀ id c v i, s.graph.pointer? id = some (.var c v) → i ∈ s.pointsTo id →
    ∃ k o, TakenUp R A p k o c v i s
  connected : ∀ e ∈ s.calls.edges, Connected p e s

section Saturated

variable {κ ν K O : Type} [DecidableEq κ] {R : Reading κ ν K O} {A : Abstraction K O}
  {p : Program} {rules : Sensitivity κ ν} {heap : HeapPolicy} {S : Solution K O}
  {start : MethodId} {s s' : EngineState κ ν}

/-- **Only what is new has to be taken care of.** -/
theorem Saturated.grows (h : Saturated R A p heap s) (hw : Within R heap S s) (g : Grows R s s')
    (hflow : ∀ id t i, t ∈ s'.graph.successors id → i ∈ s'.pointsTo id → s'.Arrives t i)
    (hentered : ∀ m, s'.calls.hasMethod m = true → s.calls.hasMethod m = true ∨
      ∀ here ∈ p.sitesOf m.item, Entered R A p heap m.context here s')
    (htaken : ∀ id c v i, s'.graph.pointer? id = some (.var c v) → i ∈ s'.pointsTo id →
      i ∈ s.pointsTo id ∨ ∃ k o, TakenUp R A p k o c v i s')
    (hconnected : ∀ e ∈ s'.calls.edges, e ∈ s.calls.edges ∨ Connected p e s') :
    Saturated R A p heap s' where
  flow := hflow
  entered m hm here hhere := by
    rcases hentered m hm with hold | hnew
    · exact (h.entered m hold here hhere).grows g
    · exact hnew here hhere
  taken id c v i hid hi := by
    rcases htaken id c v i hid hi with hold | hnew
    · -- the pointer had its number before, because it pointed to something
      obtain ⟨x, o, hx, -, -⟩ := hw.points id i hold
      obtain ⟨a, ha, -⟩ := Option.bind_eq_some_iff.mp hx
      have hsame : some a = some (.var c v) := (g.pointers id a ha).symm.trans hid
      obtain ⟨k, o, ht⟩ := h.taken id c v i (ha.trans hsame) hold
      exact ⟨k, o, ht.grows g⟩
    · exact hnew
  connected e he := by
    rcases hconnected e he with hold | hnew
    · exact (h.connected e hold).grows g
    · exact hnew

omit [DecidableEq κ] in
/-- Extending a state keeps what flows along its edges. -/
theorem Extends.flows (he : Extends R s s')
    (hflow : ∀ id t i, t ∈ s.graph.successors id → i ∈ s.pointsTo id → s.Arrives t i)
    (id t : PointerId) (i : Nat) (ht : t ∈ s'.graph.successors id) (hi : i ∈ s'.pointsTo id) :
    s'.Arrives t i := by
  rw [he.sets id] at hi
  rcases he.flow id t ht with hold | hnew
  · exact he.arrives (hflow id t i hold hi)
  · exact .inr (hnew i hi)

/-! ## 2. Changing the call graph -/

/-- Only new methods and new call edges have to be justified. -/
theorem Within.withCalls (h : Within R heap S s) {calls : ContextCallGraph κ}
    (hentries : ∀ m ∈ calls.entries, m ∈ s.calls.entries ∨ calls.hasMethod m = true)
    (hmethods : ∀ m, s.calls.hasMethod m = true → calls.hasMethod m = true)
    (hreach : ∀ m, calls.hasMethod m = true → s.calls.hasMethod m = true ∨
      ∃ n, R.qualified? s.heap s.names m = some n ∧ S.reachable n)
    (hcalls : ∀ e ∈ calls.edges, e ∈ s.calls.edges ∨ R.JustifiedCall S s e) :
    Within R heap S { s with calls := calls } where
  valid := h.valid
  policy := h.policy
  graph := h.graph
  points := h.points
  edges := h.edges
  queue w hw := by
    have hj := h.queue w hw
    cases w with
    | points id objects => exact hj
    | call e => exact hj
  entries m hm := (hentries m hm).elim (fun hold => hmethods m (h.entries m hold)) id
  reachable m hm := (hreach m hm).elim (h.reachable m) id
  calls e he := (hcalls e he).elim (h.calls e) id

/-- The call graph may grow. -/
theorem grows_withCalls {calls : ContextCallGraph κ}
    (hm : ∀ m, s.calls.hasMethod m = true → calls.hasMethod m = true)
    (he : ∀ e ∈ s.calls.edges, e ∈ calls.edges) : Grows R s { s with calls := calls } where
  keeps := .refl R _ _
  pointers := Interner.keeps_refl _
  linked h := h
  reaches h := h
  methods h := hm _ h
  called h := by
    rcases h with ⟨e, hmem, hsite, hcallee⟩ | hp
    · exact .inl ⟨e, he e hmem, hsite, hcallee⟩
    · exact .inr hp

/-- A method becomes reachable; its statements are entered unless they were before. -/
theorem reach_extends (hR : R.Faithful p rules A) (hS : S.Closed p heap A start)
    (h : Within R heap S s) {m : Qualified κ MethodId} {n : Qualified K MethodId}
    (hm : R.qualified? s.heap s.names m = some n) (hreach : S.reachable n) :
    let t := s.reach p rules m
    Within R heap S t ∧ Extends R { s with calls := s.calls.addReachable m } t ∧
      (s.calls.hasMethod m = true ∨ ∀ here ∈ p.sitesOf m.item, Entered R A p heap m.context here t) := by
  intro t
  by_cases hknown : s.calls.hasMethod m = true
  · have hcalls : s.calls.addReachable m = s.calls := if_pos hknown
    have ht : t = s := if_pos hknown
    rw [ht, hcalls]
    exact ⟨h, .refl R s, .inl hknown⟩
  · have hadded : Within R heap S { s with calls := s.calls.addReachable m } := by
      refine h.withCalls (fun m' hm' => .inl ?_)
        (fun m' hm' => CallGraph.hasMethod_addReachable.mpr (.inl hm')) (fun m' hm' => ?_)
        (fun e he => .inl ?_)
      · rw [CallGraph.entries_addReachable] at hm'
        exact hm'
      · rcases CallGraph.hasMethod_addReachable.mp hm' with hold | rfl
        · exact .inl hold
        · exact .inr ⟨n, hm, hreach⟩
      · rw [CallGraph.edges_addReachable] at he
        exact he
    have ht : t = (p.sitesOf m.item).foldl (EngineState.enterStmt p rules m.context)
        { s with calls := s.calls.addReachable m } := if_neg hknown
    rw [ht]
    obtain ⟨hw, he, hentered⟩ := EngineState.enterAll_extends hR hS hadded hm hreach
    exact ⟨hw, he, .inr hentered⟩

/-! ## 3. Taking an item from the queue -/

theorem Within.pop (h : Within R heap S s) {w : WorkItem (ContextCallEdge κ)}
    {rest : WorkQueue (WorkItem (ContextCallEdge κ))} (hq : s.queue.pop? = some (w, rest)) :
    Within R heap S { s with queue := rest } where
  valid := h.valid
  policy := h.policy
  graph := h.graph
  points := h.points
  edges := h.edges
  queue w' hw' := by
    have hj := h.queue w' ((WorkQueue.mem_of_pop? hq w').mpr (.inr hw'))
    cases w' with
    | points id objects => exact hj
    | call e => exact hj
  entries := h.entries
  reachable := h.reachable
  calls := h.calls

omit [DecidableEq κ] in
/-- A call edge on its way is no object on its way. -/
theorem arrives_of_popped_call {e : ContextCallEdge κ}
    {rest : WorkQueue (WorkItem (ContextCallEdge κ))} {calls : ContextCallGraph κ}
    (hq : s.queue.pop? = some (.call e, rest)) {id : PointerId} {i : Nat} (ha : s.Arrives id i) :
    EngineState.Arrives { s with queue := rest, calls := calls } id i := by
  rcases ha with hi | ⟨objects, hmem, hi⟩
  · exact .inl hi
  · rcases (WorkQueue.mem_of_pop? hq _).mp hmem with heq | hrest
    · cases heq
    · exact .inr ⟨objects, hrest, hi⟩

/-- The call edge that leaves the queue enters the call graph. -/
theorem grows_of_popped_call {e : ContextCallEdge κ}
    {rest : WorkQueue (WorkItem (ContextCallEdge κ))} {calls : ContextCallGraph κ}
    (hq : s.queue.pop? = some (.call e, rest))
    (hm : ∀ m, s.calls.hasMethod m = true → calls.hasMethod m = true)
    (he : ∀ e' ∈ s.calls.edges, e' ∈ calls.edges)
    (hknown : ∃ e' ∈ calls.edges, e'.site = e.site ∧ e'.callee = e.callee) :
    Grows R s { s with queue := rest, calls := calls } where
  keeps := .refl R _ _
  pointers := Interner.keeps_refl _
  linked h := h
  reaches h := by
    obtain ⟨id, hid, ha⟩ := h
    exact ⟨id, hid, arrives_of_popped_call hq ha⟩
  methods h := hm _ h
  called h := by
    rcases h with ⟨e', hmem, hsite, hcallee⟩ | ⟨kind, hp⟩
    · exact .inl ⟨e', he e' hmem, hsite, hcallee⟩
    · rcases (WorkQueue.mem_of_pop? hq _).mp hp with heq | hrest
      · cases heq
        exact .inl hknown
      · exact .inr ⟨kind, hrest⟩

/-- The edges after a new one has entered the call graph. -/
theorem mem_edges_admitted {e e' : ContextCallEdge κ}
    (hnew : s.calls.hasEdge e.site e.callee = false) :
    e' ∈ ((s.calls.addEdge e).addReachable e.callee).edges ↔ e' ∈ s.calls.edges ∨ e' = e := by
  rw [CallGraph.edges_addReachable]
  exact CallGraph.mem_edges_addEdge hnew

/-- A new call edge enters the call graph with its callee. -/
theorem grows_of_admitted {e : ContextCallEdge κ}
    {rest : WorkQueue (WorkItem (ContextCallEdge κ))}
    (hq : s.queue.pop? = some (.call e, rest)) (hnew : s.calls.hasEdge e.site e.callee = false) :
    Grows R s
      { s with queue := rest, calls := (s.calls.addEdge e).addReachable e.callee } := by
  refine grows_of_popped_call hq (fun m hm => ?_)
    (fun e' he' => (mem_edges_admitted hnew).mpr (.inl he'))
    ⟨e, (mem_edges_admitted hnew).mpr (.inr rfl), rfl, rfl⟩
  rw [CallGraph.hasMethod_addReachable, CallGraph.hasMethod_addEdge]
  exact .inl hm

/-! ## 4. Objects that flow into a pointer -/

omit [DecidableEq κ] in
/-- Sending objects to several pointers only adds to the queue. -/
theorem foldl_send (objects : IdSet) (targets : List PointerId) (s : EngineState κ ν) :
    ∃ queue, targets.foldl (fun s t => s.send t objects) s = { s with queue := queue } ∧
      queue.toList = s.queue.toList ++ targets.map (.points · objects) := by
  induction targets generalizing s with
  | nil => exact ⟨s.queue, rfl, (List.append_nil _).symm⟩
  | cons t targets ih =>
    obtain ⟨queue, hs, hq⟩ := ih (s.send t objects)
    refine ⟨queue, hs, ?_⟩
    rw [hq]
    show (s.queue.push _).toList ++ _ = _
    rw [WorkQueue.toList_push, List.append_assoc]
    rfl

omit [DecidableEq κ] in
/-- What is new at a pointer is added to it and sent along the edges out of it. -/
theorem grow_eq (s : EngineState κ ν) (id : PointerId) (objects : IdSet) :
    ∃ queue, s.grow id objects = (objects.diff (s.pointsTo id),
        { s with graph := s.graph.addObjects id (objects.diff (s.pointsTo id)), queue := queue }) ∧
      ∀ w, w ∈ queue.toList ↔ w ∈ s.queue.toList ∨
        (objects.diff (s.pointsTo id) ≠ .empty ∧
          ∃ t ∈ s.graph.successors id, w = .points t (objects.diff (s.pointsTo id))) := by
  unfold EngineState.grow
  simp only
  by_cases hempty : (objects.diff (s.pointsTo id)).isEmpty = true
  · rw [if_pos hempty]
    refine ⟨s.queue, rfl, fun w => ?_⟩
    simp [IdSet.isEmpty_iff.mp hempty]
  · rw [if_neg hempty]
    obtain ⟨queue, hs, hq⟩ := foldl_send (objects.diff (s.pointsTo id)) (s.graph.successors id)
      { s with graph := s.graph.addObjects id (objects.diff (s.pointsTo id)) }
    refine ⟨queue, Prod.ext rfl hs, fun w => ?_⟩
    have hne : objects.diff (s.pointsTo id) ≠ .empty := fun e => hempty (IdSet.isEmpty_iff.mpr e)
    rw [hq, List.mem_append, List.mem_map]
    simp only [hne, ne_eq, not_false_eq_true, true_and, eq_comm]

omit [DecidableEq κ] in
theorem mem_grow_fst (s : EngineState κ ν) (id : PointerId) (objects : IdSet) (i : Nat) :
    i ∈ (s.grow id objects).1 ↔ i ∈ objects ∧ ¬ i ∈ s.pointsTo id := by
  obtain ⟨queue, hgrow, -⟩ := grow_eq s id objects
  rw [hgrow]
  exact IdSet.mem_diff

omit [DecidableEq κ] in
/-- Where nothing is new nothing is sent. -/
theorem queue_grow_of_isEmpty (s : EngineState κ ν) (id : PointerId) (objects : IdSet)
    (h : (s.grow id objects).1.isEmpty = true) : (s.grow id objects).2.queue = s.queue := by
  obtain ⟨queue, hgrow, -⟩ := grow_eq s id objects
  have hempty : (objects.diff (s.pointsTo id)).isEmpty = true := by
    rw [hgrow] at h
    exact h
  unfold EngineState.grow
  simp only
  rw [if_pos hempty]

/-- **All that happens when objects arrive at a pointer**: they leave the queue, are added to what
    the pointer points to, and the new ones are sent along the edges out of it. -/
structure Arrival (s : EngineState κ ν) (id : PointerId) (objects : IdSet) (t : EngineState κ ν) :
    Prop where
  heap : t.heap = s.heap
  names : t.names = s.names
  calls : t.calls = s.calls
  pointers : t.graph.pointers = s.graph.pointers
  successors : t.graph.successors = s.graph.successors
  graph : s.graph.WF → t.graph.WF
  sets : ∀ id' i, i ∈ t.pointsTo id' ↔ i ∈ s.pointsTo id' ∨ (id' = id ∧ i ∈ objects)
  left : ∀ w ∈ s.queue.toList, w = .points id objects ∨ w ∈ t.queue.toList
  sent : ∀ i ∈ objects, i ∈ s.pointsTo id ∨ ∀ t' ∈ s.graph.successors id, t.Pending t' i
  queue : ∀ w ∈ t.queue.toList, w ∈ s.queue.toList ∨
    ∃ t' ∈ s.graph.successors id, ∃ delta, w = .points t' delta ∧ ∀ i ∈ delta, i ∈ objects

theorem arrival_of_pop? (h : Within R heap S s) {id : PointerId} {objects : IdSet}
    {rest : WorkQueue (WorkItem (ContextCallEdge κ))}
    (hq : s.queue.pop? = some (.points id objects, rest)) :
    Arrival s id objects (EngineState.grow { s with queue := rest } id objects).2 := by
  have hitem : ∀ i ∈ objects, R.Justified S s id i :=
    h.queue _ ((WorkQueue.mem_of_pop? hq _).mpr (.inl rfl))
  obtain ⟨queue, hgrow, hqueue⟩ := grow_eq { s with queue := rest } id objects
  rw [hgrow]
  refine ⟨rfl, rfl, rfl, rfl, rfl, fun hg => hg.addObjects _ _, fun id' i => ?_, fun w hw => ?_,
    fun i hi => ?_, fun w hw => ?_⟩
  · show i ∈ (s.graph.addObjects _ _).pointsTo id' ↔ _
    rw [PointerGraph.mem_pointsTo_addObjects h.graph, IdSet.mem_diff]
    constructor
    · intro hcase
      rcases hcase with hold | ⟨-, hid, hi, -⟩
      · exact .inl hold
      · exact .inr ⟨hid, hi⟩
    · intro hcase
      rcases hcase with hold | ⟨hid, hi⟩
      · exact .inl hold
      · subst hid
        by_cases hold : i ∈ s.pointsTo id'
        · exact .inl hold
        · obtain ⟨x, o, hx, -, -⟩ := hitem i hi
          obtain ⟨a, ha, -⟩ := Option.bind_eq_some_iff.mp hx
          exact .inr ⟨PointerGraph.lt_size_of_pointer? ha, rfl, hi, hold⟩
  · rcases (WorkQueue.mem_of_pop? hq w).mp hw with heq | hrest
    · exact .inl heq
    · exact .inr ((hqueue w).mpr (.inl hrest))
  · by_cases hold : i ∈ s.pointsTo id
    · exact .inl hold
    · have hdelta : i ∈ objects.diff (s.pointsTo id) := IdSet.mem_diff.mpr ⟨hi, hold⟩
      refine .inr fun t' ht' => ⟨_, (hqueue _).mpr (.inr ⟨fun hempty => ?_, t', ht', rfl⟩), hdelta⟩
      exact IdSet.not_mem_empty (hempty ▸ hdelta)
  · rcases (hqueue w).mp hw with hrest | ⟨-, t', ht', rfl⟩
    · exact .inl ((WorkQueue.mem_of_pop? hq w).mpr (.inr hrest))
    · exact .inr ⟨t', ht', _, rfl, fun i hi => (IdSet.mem_diff.mp hi).1⟩

section Arrival

variable {t : EngineState κ ν} {id : PointerId} {objects : IdSet}

omit [DecidableEq κ] in
theorem Arrival.arrives (a : Arrival s id objects t) {id' : PointerId} {i : Nat}
    (h : s.Arrives id' i) : t.Arrives id' i := by
  rcases h with hi | ⟨objects', hmem, hi⟩
  · exact .inl ((a.sets id' i).mpr (.inl hi))
  · rcases a.left _ hmem with heq | hleft
    · -- the item that left the queue is at its pointer now
      cases heq
      exact .inl ((a.sets _ i).mpr (.inr ⟨rfl, hi⟩))
    · exact .inr ⟨objects', hleft, hi⟩

theorem Arrival.grows (a : Arrival s id objects t) : Grows R s t where
  keeps := by
    rw [a.heap, a.names]
    exact .refl R _ _
  pointers := by
    rw [a.pointers]
    exact Interner.keeps_refl _
  linked h := by
    obtain ⟨id₁, id₂, h₁, h₂, hmem⟩ := h
    refine ⟨id₁, id₂, ?_, ?_, ?_⟩
    · unfold PointerGraph.pointer?
      rw [a.pointers]
      exact h₁
    · unfold PointerGraph.pointer?
      rw [a.pointers]
      exact h₂
    · rw [a.successors]
      exact hmem
  reaches h := by
    obtain ⟨id', hid, ha⟩ := h
    refine ⟨id', ?_, a.arrives ha⟩
    unfold PointerGraph.pointer?
    rw [a.pointers]
    exact hid
  methods h := by
    rw [a.calls]
    exact h
  called h := by
    rcases h with hk | ⟨kind, hp⟩
    · exact .inl (a.calls.symm ▸ hk)
    · rcases a.left _ hp with heq | hleft
      · cases heq
      · exact .inr ⟨kind, hleft⟩

omit [DecidableEq κ] in
/-- What flows along the edges is there or pending again. -/
theorem Arrival.flows (a : Arrival s id objects t)
    (hflow : ∀ id t i, t ∈ s.graph.successors id → i ∈ s.pointsTo id → s.Arrives t i)
    (id' t' : PointerId) (i : Nat) (ht : t' ∈ t.graph.successors id') (hi : i ∈ t.pointsTo id') :
    t.Arrives t' i := by
  rw [a.successors] at ht
  rcases (a.sets id' i).mp hi with hold | ⟨rfl, hnew⟩
  · exact a.arrives (hflow id' t' i ht hold)
  · rcases a.sent i hnew with hold | hsent
    · exact a.arrives (hflow _ t' i ht hold)
    · exact .inr (hsent t' ht)

omit [DecidableEq κ] in
theorem Arrival.placeAt (a : Arrival s id objects t) (id' : PointerId) :
    R.placeAt? t id' = R.placeAt? s id' := by
  unfold Reading.placeAt? PointerGraph.pointer?
  rw [a.pointers, a.heap, a.names]

omit [DecidableEq κ] in
theorem Arrival.justified (a : Arrival s id objects t) {id' : PointerId} {i : Nat}
    (h : R.Justified S s id' i) : R.Justified S t id' i := by
  unfold Reading.Justified at h ⊢
  rw [a.placeAt, a.heap, a.names]
  exact h

/-- **Objects that arrive stay within the solution.** -/
theorem Arrival.within (a : Arrival s id objects t) (h : Within R heap S s)
    (hitem : ∀ i ∈ objects, R.Justified S s id i) : Within R heap S t where
  valid := by
    rw [a.heap, a.names]
    exact h.valid
  policy := by
    rw [a.heap]
    exact h.policy
  graph := a.graph h.graph
  points id' i hi := by
    refine a.justified ?_
    rcases (a.sets id' i).mp hi with hold | ⟨rfl, hnew⟩
    · exact h.points id' i hold
    · exact hitem i hnew
  edges id' t' ht := by
    unfold Reading.JustifiedEdge
    rw [a.successors] at ht
    rw [a.placeAt, a.placeAt]
    exact h.edges id' t' ht
  queue w hw := by
    rcases a.queue w hw with hold | ⟨t', ht', delta, rfl, hdelta⟩
    · have hj := h.queue w hold
      cases w with
      | points id' objects' => exact fun i hi => a.justified (hj i hi)
      | call e =>
        unfold Reading.JustifiedItem Reading.JustifiedCall at hj ⊢
        rw [a.heap, a.names]
        exact hj
    · intro i hi
      obtain ⟨x, o, hx, ho, hS⟩ := hitem i (hdelta i hi)
      obtain ⟨x', y, hx', hy, hflows⟩ := h.edges id t' ht'
      rw [hx, Option.some.injEq] at hx'
      subst hx'
      exact a.justified ⟨y, o, hy, ho, hflows o hS⟩
  entries m hm := by
    rw [a.calls] at hm ⊢
    exact h.entries m hm
  reachable m hm := by
    rw [a.calls] at hm
    rw [a.heap, a.names]
    exact h.reachable m hm
  calls e he := by
    rw [a.calls] at he
    unfold Reading.JustifiedCall
    rw [a.heap, a.names]
    exact h.calls e he

/-- After an arrival, what is new at its pointer has to be taken up. -/
theorem Arrival.saturated {u : EngineState κ ν} (a : Arrival s id objects u)
    (h : Within R heap S s) (hs : Saturated R A p heap s) (he : Extends R u t)
    (htaken : ∀ c v, t.graph.pointer? id = some (.var c v) →
      ∀ i ∈ objects, i ∈ s.pointsTo id ∨ ∃ k o, TakenUp R A p k o c v i t) :
    Saturated R A p heap t ∧ Grows R s t := by
  have hg : Grows R s t := a.grows.trans he.grows
  refine ⟨hs.grows h hg (he.flows (a.flows hs.flow)) (fun m hm => .inl ?_)
    (fun id' c v i hid hi => ?_) (fun e hc => .inl ?_), hg⟩
  · rw [he.calls, a.calls] at hm
    exact hm
  · rw [he.sets] at hi
    rcases (a.sets id' i).mp hi with hold | ⟨rfl, hnew⟩
    · exact .inl hold
    · exact htaken c v hid i hnew
  · rw [he.calls, a.calls] at hc
    exact hc

end Arrival

/-! ## 5. Plugins -/

/-- Nothing happened from one state to the other that a plugin is told of. -/
structure Calm (R : Reading κ ν K O) (p : Program) (s t : EngineState κ ν) : Prop where
  grows : Grows R s t
  sets : ∀ id i, i ∈ t.pointsTo id → i ∈ s.pointsTo id
  edges : ∀ e ∈ t.calls.edges, e ∈ s.calls.edges ∨ p.invoke? e.site.item = none

theorem Extends.calm (he : Extends R s s') : Calm R p s s' where
  grows := he.grows
  sets id _ hi := (he.sets id) ▸ hi
  edges _ hc := .inl (he.calls ▸ hc)

/-- **A plugin that takes part in an analysis**: whenever it is told something it only extends the
    state, within the solution, and keeps an invariant `J` of its own. -/
structure Plugin.Cooperates {ρ : Type} (plugin : Plugin κ ν ρ) (R : Reading κ ν K O) (p : Program)
    (rules : Sensitivity κ ν) (heap : HeapPolicy) (S : Solution K O)
    (J : EngineState κ ν → ρ → Prop) : Prop where
  calm : ∀ {s t r}, Calm R p s t → J s r → J t r
  onObjects : ∀ {s u id objects delta r}, Within R heap S u → Arrival s id objects u →
    (∀ i, i ∈ delta ↔ i ∈ objects ∧ ¬ i ∈ s.pointsTo id) → J s r →
    let out := plugin.onObjects rules id delta (u, r)
    Within R heap S out.1 ∧ Extends R u out.1 ∧ J out.1 out.2
  onCall : ∀ {s u e r}, Within R heap S u → Grows R s u →
    (∀ id i, i ∈ u.pointsTo id → i ∈ s.pointsTo id) →
    (∀ e', e' ∈ u.calls.edges ↔ e' ∈ s.calls.edges ∨ e' = e) → J s r →
    let out := plugin.onCall rules e (u, r)
    Within R heap S out.1 ∧ Extends R u out.1 ∧ J out.1 out.2

/-- The plugin that does nothing takes part in every analysis. -/
theorem Plugin.none_cooperates :
    (Plugin.none : Plugin κ ν Unit).Cooperates R p rules heap S fun _ _ => True where
  calm _ _ := trivial
  onObjects hu _ _ _ := ⟨hu, .refl R _, trivial⟩
  onCall hu _ _ _ _ := ⟨hu, .refl R _, trivial⟩

/-! ## 6. One item of work -/

/-- **What one item of work does**: it keeps the state saturated and within the solution and the
    plugin's invariant true, takes no fact back, and leaves less work or a new fact behind. -/
structure Advances {ρ : Type} (R : Reading κ ν K O) (A : Abstraction K O) (p : Program)
    (heap : HeapPolicy) (S : Solution K O) (J : EngineState κ ν → ρ → Prop) (s : EngineState κ ν)
    (out : EngineState κ ν × ρ) : Prop where
  within : Within R heap S out.1
  saturated : Saturated R A p heap out.1
  grows : Grows R s out.1
  plugin : J out.1 out.2
  sets : ∀ id i, i ∈ s.pointsTo id → i ∈ out.1.pointsTo id
  edges : ∀ e ∈ s.calls.edges, e ∈ out.1.calls.edges
  progress : out.1.queue.toList.length < s.queue.toList.length ∨
    (∃ id i, i ∈ out.1.pointsTo id ∧ ¬ i ∈ s.pointsTo id) ∨
    ∃ e ∈ out.1.calls.edges, s.calls.hasEdge e.site e.callee = false

/-- New objects at a pointer are taken up one by one, if it is a variable. -/
theorem takeUp_extends (hR : R.Faithful p rules A) (hS : S.Closed p heap A start)
    (h : Within R heap S s) {c : κ} {v : VarId} {id : PointerId}
    (hid : s.graph.pointer? id = some (.var c v)) {delta : IdSet}
    (hdelta : ∀ i ∈ delta, i ∈ s.pointsTo id) :
    let t := delta.elems.foldl (EngineState.newObject p rules (p.usesOf v) c) s
    Within R heap S t ∧ Extends R s t ∧ ∀ i ∈ delta.elems, ∃ k o, TakenUp R A p k o c v i t := by
  refine EngineState.foldl_extends (Q := fun i u => ∃ k o, TakenUp R A p k o c v i u)
    (fun he hq => ?_) delta.elems h fun i hi u hu hsu => ?_
  · obtain ⟨k, o, ht⟩ := hq
    exact ⟨k, o, ht.grows he.grows⟩
  · obtain ⟨x, o, hx, ho, hpts⟩ := h.points id i (hdelta i hi)
    obtain ⟨a, ha, hplace⟩ := Option.bind_eq_some_iff.mp hx
    rw [hid, Option.some.injEq] at ha
    subst ha
    obtain ⟨k, hk, rfl⟩ := Option.map_eq_some_iff.mp hplace
    obtain ⟨hw, he, ht⟩ := EngineState.newObject_extends hR hS hu (hsu.keeps.context hk)
      (hsu.keeps.object ho) hpts
    exact ⟨hw, he, k, o, ht⟩

/-- After an arrival the state may be extended while the new objects are taken up. -/
theorem Arrival.advances {ρ : Type} {J : EngineState κ ν → ρ → Prop} {out : EngineState κ ν × ρ}
    {u : EngineState κ ν} {id : PointerId} {objects : IdSet} (a : Arrival s id objects u)
    (h : Within R heap S s) (hs : Saturated R A p heap s) (hw : Within R heap S out.1)
    (he : Extends R u out.1) (hJ : J out.1 out.2)
    (htaken : ∀ c v, out.1.graph.pointer? id = some (.var c v) →
      ∀ i ∈ objects, i ∈ s.pointsTo id ∨ ∃ k o, TakenUp R A p k o c v i out.1)
    (hprogress : out.1.queue.toList.length < s.queue.toList.length ∨
      ∃ i ∈ objects, ¬ i ∈ s.pointsTo id) : Advances R A p heap S J s out where
  within := hw
  saturated := (a.saturated h hs he htaken).1
  grows := (a.saturated h hs he htaken).2
  plugin := hJ
  sets id' i hi := by
    rw [he.sets]
    exact (a.sets id' i).mpr (.inl hi)
  edges e hc := by
    rw [he.calls, a.calls]
    exact hc
  progress := by
    rcases hprogress with hless | ⟨i, hi, hnew⟩
    · exact .inl hless
    · refine .inr (.inl ⟨id, i, ?_, hnew⟩)
      rw [he.sets]
      exact (a.sets id i).mpr (.inr ⟨rfl, hi⟩)

/-- **Letting objects flow into a pointer** is an item of work. -/
theorem doPoints_advances {ρ : Type} {plugin : Plugin κ ν ρ} {J : EngineState κ ν → ρ → Prop}
    {r : ρ} (hR : R.Faithful p rules A) (hS : S.Closed p heap A start)
    (hplugin : plugin.Cooperates R p rules heap S J) (h : Within R heap S s)
    (hs : Saturated R A p heap s) (hJ : J s r) {id : PointerId} {objects : IdSet}
    {rest : WorkQueue (WorkItem (ContextCallEdge κ))}
    (hq : s.queue.pop? = some (.points id objects, rest)) :
    Advances R A p heap S J s
      (Engine.doPoints p rules plugin id objects ({ s with queue := rest }, r)) := by
  have hitem : ∀ i ∈ objects, R.Justified S s id i :=
    h.queue _ ((WorkQueue.mem_of_pop? hq _).mpr (.inl rfl))
  have ha := arrival_of_pop? h hq
  have hu := ha.within h hitem
  have hmem : ∀ i, i ∈ (EngineState.grow { s with queue := rest } id objects).1 ↔
      i ∈ objects ∧ ¬ i ∈ s.pointsTo id := mem_grow_fst { s with queue := rest } id objects
  have hrest := queue_grow_of_isEmpty { s with queue := rest } id objects
  unfold Engine.doPoints
  simp only
  generalize EngineState.grow { s with queue := rest } id objects = grown at ha hu hmem hrest
  obtain ⟨delta, u⟩ := grown
  split
  · rename_i hempty
    have hold : ∀ i ∈ objects, i ∈ s.pointsTo id := by
      intro i hi
      by_cases hold : i ∈ s.pointsTo id
      · exact hold
      · have hi' := (hmem i).mpr ⟨hi, hold⟩
        rw [IdSet.isEmpty_iff.mp hempty] at hi'
        exact absurd hi' IdSet.not_mem_empty
    have hcalm : Calm R p s u :=
      { grows := ha.grows
        sets := fun id' i hi => by
          rcases (ha.sets id' i).mp hi with hi | ⟨rfl, hi⟩
          · exact hi
          · exact hold i hi
        edges := fun e hc => .inl (ha.calls ▸ hc) }
    have hless : u.queue.toList.length < s.queue.toList.length := by
      rw [WorkQueue.length_of_pop? hq]
      show u.queue.toList.length < _
      rw [hrest hempty]
      exact Nat.lt_succ_self _
    have hJu : J (u, r).1 (u, r).2 := hplugin.calm hcalm hJ
    exact ha.advances h hs hu (.refl R u) hJu (fun c v _ i hi => .inl (hold i hi)) (.inl hless)
  · rename_i hfull
    obtain ⟨i₀, hi₀⟩ := IdSet.exists_mem_of_not_isEmpty hfull
    have hnew : ∃ i ∈ objects, ¬ i ∈ s.pointsTo id := ⟨i₀, (hmem i₀).mp hi₀⟩
    obtain ⟨hw, he, hJ'⟩ := hplugin.onObjects hu ha hmem hJ
    have hat : ∀ i ∈ delta, i ∈ (plugin.onObjects rules id delta (u, r)).1.pointsTo id := by
      intro i hi
      rw [he.sets]
      exact (ha.sets id i).mpr (.inr ⟨rfl, ((hmem i).mp hi).1⟩)
    split
    · rename_i c v hid
      obtain ⟨hw', he', ht⟩ := takeUp_extends hR hS hw hid hat
      refine ha.advances h hs hw' (he.trans he') (hplugin.calm he'.calm hJ')
        (fun c' v' hid' i hi => ?_) (.inr hnew)
      have hsame := (he'.pointers id _ hid).symm.trans hid'
      cases hsame
      by_cases hold : i ∈ s.pointsTo id
      · exact .inl hold
      · exact .inr (ht i ((hmem i).mpr ⟨hi, hold⟩))
    · rename_i hnot
      exact ha.advances h hs hw he hJ' (fun c v hid => absurd hid (hnot c v)) (.inr hnew)

/-- A call edge that leaves the queue enters the call graph with its callee; the edge has to be
    connected and the callee entered. -/
theorem Saturated.call {t : EngineState κ ν} (hs : Saturated R A p heap s) (h : Within R heap S s)
    {e : ContextCallEdge κ} {rest : WorkQueue (WorkItem (ContextCallEdge κ))}
    (hq : s.queue.pop? = some (.call e, rest)) (hnew : s.calls.hasEdge e.site e.callee = false)
    (he : Extends R
      { s with queue := rest, calls := (s.calls.addEdge e).addReachable e.callee } t)
    (hentered : s.calls.hasMethod e.callee = true ∨
      ∀ here ∈ p.sitesOf e.callee.item, Entered R A p heap e.callee.context here t)
    (hconnected : Connected p e t) : Saturated R A p heap t := by
  have hmethods : ∀ m, ((s.calls.addEdge e).addReachable e.callee).hasMethod m = true ↔
      s.calls.hasMethod m = true ∨ m = e.callee := by
    intro m
    rw [CallGraph.hasMethod_addReachable, CallGraph.hasMethod_addEdge]
  have hg := (grows_of_admitted (R := R) hq hnew).trans he.grows
  refine hs.grows h hg (he.flows fun id t i ht hi => ?_) (fun m hm => ?_)
    (fun id c v i _ hi => ?_) (fun e' hc => ?_)
  · exact arrives_of_popped_call hq (hs.flow id t i ht hi)
  · rw [he.calls] at hm
    rcases (hmethods m).mp hm with hold | rfl
    · exact .inl hold
    · exact hentered
  · rw [he.sets] at hi
    exact .inl hi
  · rw [he.calls] at hc
    rcases (mem_edges_admitted hnew).mp hc with hold | rfl
    · exact .inl hold
    · exact .inr hconnected

/-- After a new call edge has entered the call graph the state may be extended while it is
    connected. -/
theorem Saturated.advances_call {ρ : Type} {J : EngineState κ ν → ρ → Prop}
    {out : EngineState κ ν × ρ} (hs : Saturated R A p heap s) (h : Within R heap S s)
    {e : ContextCallEdge κ} {rest : WorkQueue (WorkItem (ContextCallEdge κ))}
    (hq : s.queue.pop? = some (.call e, rest)) (hnew : s.calls.hasEdge e.site e.callee = false)
    (hw : Within R heap S out.1)
    (he : Extends R
      { s with queue := rest, calls := (s.calls.addEdge e).addReachable e.callee } out.1)
    (hJ : J out.1 out.2)
    (hentered : s.calls.hasMethod e.callee = true ∨
      ∀ here ∈ p.sitesOf e.callee.item, Entered R A p heap e.callee.context here out.1)
    (hconnected : Connected p e out.1) : Advances R A p heap S J s out where
  within := hw
  saturated := hs.call h hq hnew he hentered hconnected
  grows := (grows_of_admitted hq hnew).trans he.grows
  plugin := hJ
  sets id i hi := by
    rw [he.sets]
    exact hi
  edges e' hc := by
    rw [he.calls]
    exact (mem_edges_admitted hnew).mpr (.inl hc)
  progress := by
    refine .inr (.inr ⟨e, ?_, hnew⟩)
    rw [he.calls]
    exact (mem_edges_admitted hnew).mpr (.inr rfl)

/-- A call edge that is known already changes nothing. -/
theorem Saturated.advances_known {ρ : Type} {plugin : Plugin κ ν ρ}
    {J : EngineState κ ν → ρ → Prop} {r : ρ} (hs : Saturated R A p heap s) (h : Within R heap S s)
    (hplugin : plugin.Cooperates R p rules heap S J) (hJ : J s r) {e : ContextCallEdge κ}
    {rest : WorkQueue (WorkItem (ContextCallEdge κ))} (hq : s.queue.pop? = some (.call e, rest))
    (hknown : s.calls.hasEdge e.site e.callee = true) :
    Advances R A p heap S J s ({ s with queue := rest }, r) := by
  have hg : Grows R s { s with queue := rest } :=
    grows_of_popped_call hq (fun _ hm => hm) (fun _ he => he) (CallGraph.hasEdge_iff.mp hknown)
  refine ⟨h.pop hq, hs.grows h hg (fun id t i ht hi => ?_) (fun _ hm => .inl hm)
    (fun _ _ _ _ _ hi => .inl hi) (fun _ he => .inl he), hg,
    hplugin.calm ⟨hg, fun _ _ hi => hi, fun _ he => .inl he⟩ hJ, fun _ _ hi => hi, fun _ he => he,
    .inl ?_⟩
  · exact arrives_of_popped_call hq (hs.flow id t i ht hi)
  · rw [WorkQueue.length_of_pop? hq]
    exact Nat.lt_succ_self _

/-- **Connecting a call edge** is an item of work. -/
theorem doCall_advances {ρ : Type} {plugin : Plugin κ ν ρ} {J : EngineState κ ν → ρ → Prop}
    {r : ρ} (hR : R.Faithful p rules A) (hS : S.Closed p heap A start)
    (hplugin : plugin.Cooperates R p rules heap S J) (h : Within R heap S s)
    (hs : Saturated R A p heap s) (hJ : J s r) {e : ContextCallEdge κ}
    {rest : WorkQueue (WorkItem (ContextCallEdge κ))}
    (hq : s.queue.pop? = some (.call e, rest)) :
    Advances R A p heap S J s
      (Engine.doCall p rules plugin e ({ s with queue := rest }, r)) := by
  have hj : R.JustifiedCall S s e := h.queue _ ((WorkQueue.mem_of_pop? hq _).mpr (.inl rfl))
  unfold Engine.doCall
  simp only
  split
  · rename_i hknown
    exact hs.advances_known h hplugin hJ hq hknown
  · rename_i hnew
    rw [Bool.not_eq_true] at hnew
    have hadded : Within R heap S { s with queue := rest, calls := s.calls.addEdge e } := by
      refine (h.pop hq).withCalls (fun m hm => .inl ?_) (fun m hm => ?_) (fun m hm => .inl ?_)
        (fun e' he' => ?_)
      · rw [CallGraph.entries_addEdge] at hm
        exact hm
      · rw [CallGraph.hasMethod_addEdge]
        exact hm
      · rw [CallGraph.hasMethod_addEdge] at hm
        exact hm
      · rcases (CallGraph.mem_edges_addEdge hnew).mp he' with hold | rfl
        · exact .inl hold
        · exact .inr hj
    obtain ⟨a, b, ha, hb, hcall⟩ := hj
    obtain ⟨hw, he, hentered⟩ := reach_extends hR hS hadded hb (hS.callee hcall)
    rw [CallGraph.hasMethod_addEdge] at hentered
    have hcallee : (EngineState.reach p rules { s with queue := rest, calls := s.calls.addEdge e }
        e.callee).calls.hasMethod e.callee = true := by
      rw [he.calls]
      exact CallGraph.hasMethod_addReachable.mpr (.inr rfl)
    have hedges : ∀ {u}, Extends R
        { s with queue := rest, calls := (s.calls.addEdge e).addReachable e.callee } u →
        ∀ e', e' ∈ u.calls.edges ↔ e' ∈ s.calls.edges ∨ e' = e := by
      intro u hu e'
      rw [hu.calls]
      exact mem_edges_admitted hnew
    split
    · rename_i hinvoke
      have hnone : ∀ i, ¬ p.stmt? e.site.item = some (.call i) := by
        intro i hi
        rw [Program.invoke?_eq_some_iff.mpr hi] at hinvoke
        cases hinvoke
      refine hs.advances_call h hq hnew hw he
        (hplugin.calm ⟨?_, fun id i hi => ?_, fun e' hc => ?_⟩ hJ) hentered
        ⟨hcallee, fun i _ _ hi => absurd hi (hnone i), fun i _ _ hi => absurd hi (hnone i)⟩
      · exact (grows_of_admitted hq hnew).trans he.grows
      · rw [he.sets] at hi
        exact hi
      · rcases (hedges he e').mp hc with hold | rfl
        · exact .inl hold
        · exact .inr hinvoke
    · rename_i i hinvoke
      obtain ⟨hw₂, he₂, hconn⟩ := EngineState.connect_extends hS hw
        (hw.calls e ((hedges he e).mpr (.inr rfl))) hcallee (Program.invoke?_eq_some_iff.mp hinvoke)
      have hsets : ∀ id j, j ∈ (EngineState.connect p (EngineState.reach p rules
          { s with queue := rest, calls := s.calls.addEdge e } e.callee) e i).pointsTo id →
          j ∈ s.pointsTo id := fun id _ hj => ((he.trans he₂).sets id) ▸ hj
      obtain ⟨hw₃, he₃, hJ'⟩ := hplugin.onCall hw₂
        ((grows_of_admitted hq hnew).trans (he.trans he₂).grows) hsets (hedges (he.trans he₂)) hJ
      refine hs.advances_call h hq hnew hw₃ (he.trans (he₂.trans he₃)) hJ' ?_
        (hconn.grows he₃.grows)
      rcases hentered with hold | hnew'
      · exact .inl hold
      · exact .inr fun here hhere => (hnew' here hhere).grows (he₂.trans he₃).grows

end Saturated

end ObjectFlow
