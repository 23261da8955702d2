/-
  File:      ObjectFlow/Proofs/PointsTo/EveryMoment.lean
  Subject:   BETWEEN TWO ITEMS OF WORK NOTHING IS LOST, in both analyses, with taint tracking and
             without.

  * `Engine.after n`: the state of a run after `n` items of work; what a run gives is the one of
    these where no work is left (`after_of_runWithin`, `runWithin_of_after`);
  * `NothingLost`: what a state owes to what it knows is there or pending, said of the numbers of
    the state itself;
  * `Saturated.nothingLost`: a saturated state within some solution owes nothing, and
    `after_saturated`: each of these states is one;
  * `nothing_lost_at_any_moment`: so it is after any number of items.
-/
import ObjectFlow.Proofs.PointsTo.Contextual
import ObjectFlow.Proofs.PointsTo.Plain
import ObjectFlow.Proofs.Taint.Tracking

namespace ObjectFlow

/-! ## 1. The states of a run -/

namespace Engine

variable {κ ν ρ : Type} [DecidableEq κ]

/-- The state of a run after `n` items of work; `none` if no work was left before. -/
def after (p : Program) (rules : Sensitivity κ ν) (plugin : Plugin κ ν ρ)
    (first : EngineState κ ν × ρ) : Nat → Option (EngineState κ ν × ρ)
  | 0 => some first
  | n + 1 => (after p rules plugin first n).bind (step p rules plugin)

variable {p : Program} {rules : Sensitivity κ ν} {plugin : Plugin κ ν ρ}

/-- **What every item of work keeps holds after any number of items.** -/
theorem after_invariant {P : EngineState κ ν × ρ → Prop}
    (hstep : ∀ run next, P run → step p rules plugin run = some next → P next)
    {first run : EngineState κ ν × ρ} (hfirst : P first) {n : Nat}
    (h : after p rules plugin first n = some run) : P run := by
  induction n generalizing run with
  | zero =>
    cases h
    exact hfirst
  | succ n ih =>
    obtain ⟨before, hbefore, hnext⟩ := Option.bind_eq_some_iff.mp h
    exact hstep before run (ih hbefore) hnext

/-- The items after the first `n` are a run of their own. -/
theorem after_add (first : EngineState κ ν × ρ) (n k : Nat) :
    after p rules plugin first (n + k)
      = (after p rules plugin first n).bind fun run => after p rules plugin run k := by
  induction k with
  | zero => exact (Option.bind_fun_some _).symm
  | succ k ih =>
    show (after p rules plugin first (n + k)).bind _ = _
    rw [ih, Option.bind_assoc]
    rfl

/-- **What a run gives is the state after some number of items**, where no work is left. -/
theorem after_of_runWithin {memory result : ρ} {allowance : Nat} {s t : EngineState κ ν}
    (h : runWithin p rules plugin memory allowance s = some (t, result)) :
    ∃ n m, n < allowance ∧ after p rules plugin (s, memory) n = some (t, m) ∧
      t.queue.toList = [] ∧ result = plugin.onFinish rules t m := by
  obtain ⟨⟨t', m⟩, hiter, hend⟩ := Option.map_eq_some_iff.mp h
  obtain ⟨rfl, rfl⟩ := Prod.mk.inj hend
  clear h hend
  generalize (s, memory) = run at hiter ⊢
  induction allowance generalizing run with
  | zero => cases hiter
  | succ allowance ih =>
    cases hnext : step p rules plugin run with
    | none =>
      rw [iterate_succ_of_none allowance hnext] at hiter
      cases hiter
      exact ⟨0, m, Nat.succ_pos _, rfl,
        (WorkQueue.pop?_eq_none_iff _).mp (Option.map_eq_none_iff.mp hnext), rfl⟩
    | some next =>
      rw [iterate_succ_of_some allowance hnext] at hiter
      obtain ⟨n, m', hn, hafter, hrest⟩ := ih next hiter
      refine ⟨n + 1, m', Nat.succ_lt_succ hn, ?_, hrest⟩
      rw [Nat.add_comm, after_add, show after p rules plugin run 1 = some next from hnext]
      exact hafter

/-- Once `n` items are done, a run goes on from the state after them. -/
theorem iterate_of_after {first run : EngineState κ ν × ρ} {n : Nat}
    (h : after p rules plugin first n = some run) (k : Nat) :
    iterate (step p rules plugin) (n + k) first = iterate (step p rules plugin) k run := by
  induction n generalizing run k with
  | zero =>
    cases h
    rw [Nat.zero_add]
  | succ n ih =>
    obtain ⟨before, hbefore, hnext⟩ := Option.bind_eq_some_iff.mp h
    rw [Nat.succ_add_eq_add_succ, ih hbefore, iterate_succ_of_some k hnext]

/-- A state where no work is left is what a run gives, with any allowance beyond the items done
    before it. -/
theorem runWithin_of_after {memory m : ρ} {allowance n : Nat} {s t : EngineState κ ν}
    (h : after p rules plugin (s, memory) n = some (t, m)) (hidle : t.queue.toList = [])
    (hn : n < allowance) :
    runWithin p rules plugin memory allowance s = some (t, plugin.onFinish rules t m) := by
  obtain ⟨k, rfl⟩ := Nat.exists_eq_add_of_lt hn
  have hstop : step p rules plugin (t, m) = none :=
    Option.map_eq_none_iff.mpr ((WorkQueue.pop?_eq_none_iff _).mpr hidle)
  have hiter : iterate (step p rules plugin) (n + k + 1) (s, memory) = some (t, m) :=
    (iterate_of_after h (k + 1)).trans (iterate_succ_of_none k hstop)
  rw [runWithin, hiter]
  rfl

end Engine

/-- The state of the analysis without contexts after `n` items of work. -/
def Plain.after {ρ : Type} (p : Program) (options : PointsToOptions) (plugin : Plugin Unit Unit ρ)
    (memory : ρ) (entry : MethodId) (n : Nat) : Option (EngineState Unit Unit × ρ) :=
  Engine.after p sensitivity plugin
    (Engine.start p sensitivity () options.heap options.order entry, memory) n

/-- The state of the analysis with contexts after `n` items of work. -/
def ContextSensitive.after {ρ : Type} (p : Program) (options : PointsToOptions)
    (plugin : Plugin ContextId ContextNames ρ) (memory : ρ) (entry : MethodId) (n : Nat) :
    Option (EngineState ContextId ContextNames × ρ) :=
  Engine.after p (sensitivity options.selector) plugin
    (Engine.start p (sensitivity options.selector) {} options.heap options.order entry, memory) n

/-! ## 2. What a state owes -/

/-- **Nothing is lost**: what a state owes to what it knows is there or pending. -/
structure NothingLost {κ ν : Type} [DecidableEq κ] (p : Program) (rules : Sensitivity κ ν)
    (s : EngineState κ ν) : Prop where
  /-- What is at the source of an edge is at its target, or on its way there. -/
  flow : ∀ id t i, t ∈ s.graph.successors id → i ∈ s.pointsTo id → s.Arrives t i
  /-- Each field and array access through a variable has its edge to the field or the elements of
      each object there. -/
  access : ∀ id c v i site stmt source target, s.graph.pointer? id = some (.var c v) →
    i ∈ s.pointsTo id → p.stmt? site = some stmt → accessed? stmt = some v →
    accessEdge? c i stmt = some (source, target) → s.Linked source target
  /-- Each call on a variable that resolves for an object there has its edge, known or pending, to
      the callee under the context chosen, and the object is at the receiver of the callee or on
      its way there. -/
  call : ∀ id c v i site invoke m, s.graph.pointer? id = some (.var c v) → i ∈ s.pointsTo id →
    p.stmt? site = some (.call invoke) → invoke.base = some v →
    p.callee? (some (s.heap.tyOf (rules.heapObject s.names i))) invoke = some m →
    let chosen := (rules.calleeContext p s.heap ⟨c, site⟩ (some i) s.names).1
    s.Called ⟨c, site⟩ ⟨chosen, m⟩ ∧
      ∀ this, (p.methodAt m).this = some this → s.Reaches (.var chosen this) i
  /-- The callee of a call edge is reachable, and arguments and results are linked. -/
  connected : ∀ e ∈ s.calls.edges, Connected p e s

section Owed

variable {κ ν K O : Type} [DecidableEq κ] {R : Reading κ ν K O} {A : Abstraction K O}
  {p : Program} {rules : Sensitivity κ ν} {heap : HeapPolicy} {S : Solution K O}
  {s : EngineState κ ν}

omit [DecidableEq κ] in
/-- What was taken up is owed no more. Choosing the context of a callee again gives the same one,
    because it stands for the same thing. -/
theorem TakenUp.called (hR : R.Faithful p rules A) (hv : R.Valid s.heap s.names) {k : K} {o : O}
    {c : κ} {v : VarId} {i : Nat} (h : TakenUp R A p k o c v i s) {site : Site} {invoke : Invoke}
    {m : MethodId} (hstmt : p.stmt? site = some (.call invoke)) (hbase : invoke.base = some v)
    (hm : p.callee? (some (s.heap.tyOf (rules.heapObject s.names i))) invoke = some m) :
    let chosen := (rules.calleeContext p s.heap ⟨c, site⟩ (some i) s.names).1
    s.Called ⟨c, site⟩ ⟨chosen, m⟩ ∧
      ∀ this, (p.methodAt m).this = some this → s.Reaches (.var chosen this) i := by
  intro chosen
  have hty : s.heap.tyOf (rules.heapObject s.names i) = (A.heapObject o).ty :=
    congrArg HeapObject.ty (hR.heapObject hv h.object)
  rw [hty] at hm
  obtain ⟨c', hc', hcalled, hthis⟩ := h.call site invoke hstmt hbase invoke m hstmt hm
  obtain ⟨hv', hkeeps, hchosen⟩ := hR.callee ⟨c, site⟩ (some i) (some o) hv h.context
    (congrArg some h.object)
  have hsame : c' = chosen := hR.context_inj hv' (hkeeps.context hc') hchosen
  rw [← hsame]
  exact ⟨hcalled, hthis⟩

/-- **A saturated state within a solution has lost nothing.** -/
theorem Saturated.nothingLost (hR : R.Faithful p rules A) (hw : Within R heap S s)
    (hs : Saturated R A p heap s) : NothingLost p rules s where
  flow := hs.flow
  access id c v i site stmt source target hid hi hstmt hv hedge := by
    obtain ⟨k, o, ht⟩ := hs.taken id c v i hid hi
    exact ht.access site stmt source target hstmt hv hedge
  call id c v i site invoke m hid hi hstmt hbase hm := by
    obtain ⟨k, o, ht⟩ := hs.taken id c v i hid hi
    exact ht.called hR hw.valid hstmt hbase hm
  connected := hs.connected

/-- **After any number of items the state is saturated and within the solution with all facts**,
    whatever the plugin, if it takes part in the analysis within a class of closed solutions that
    has this one. -/
theorem after_saturated {ρ : Type} {plugin : Plugin κ ν ρ} {memory : ρ} {names : ν}
    {start : MethodId} {order : QueueOrder} {Model : Solution K O → Prop}
    {J : Solution K O → EngineState κ ν → ρ → Prop} (hR : R.Faithful p rules A)
    (hv : R.Valid { policy := heap } names)
    (hclosed : ∀ S, Model S → S.Closed p heap A start) (hall : Model (Solution.all K O))
    (hplugin : ∀ S, Model S → plugin.Cooperates R p rules heap S (J S))
    (hJ : ∀ S, Model S → ∀ s, Within R heap S s → s.calls.edges = #[] → J S s memory)
    {n : Nat} {m : ρ}
    (h : Engine.after p rules plugin (Engine.start p rules names heap order start, memory) n
      = some (s, m)) : Saturated R A p heap s ∧ Within R heap (Solution.all K O) s := by
  have hkeeps : RunKeeps R A p rules heap start Model J (s, m) :=
    Engine.after_invariant
      (fun _ _ hrun hstep => step_keeps hR hclosed hall hplugin hrun hstep)
      (start_keeps hR hclosed hall hv order hJ) h
  exact ⟨hkeeps.saturated, hkeeps.within _ hall⟩

end Owed

/-! ## 3. Both analyses -/

section Both

variable (p : Program) (options : PointsToOptions) (taint : TaintRules) (entry : MethodId)

theorem Plain.after_saturated {n : Nat} {s : EngineState Unit Unit} {m : Unit}
    (h : Plain.after p options .none () entry n = some (s, m)) :
    Saturated reading abstraction p options.heap s ∧
      Within reading options.heap (Solution.all Unit HeapObject) s :=
  ObjectFlow.after_saturated (reading_faithful p) Interner.distinct_empty (fun _ hS => hS)
    (Solution.all_closed p options.heap abstraction entry) (fun _ _ => Plugin.none_cooperates)
    (fun _ _ _ _ _ => trivial) h

theorem Plain.after_saturated_taint {n : Nat} {s : EngineState Unit Unit} {m : TaintMemory}
    (h : Plain.after p options (Taint.plugin p taint) {} entry n = some (s, m)) :
    Saturated reading abstraction p options.heap s ∧
      Within reading options.heap (Solution.all Unit HeapObject) s :=
  ObjectFlow.after_saturated (reading_taintFaithful p).toFaithful Interner.distinct_empty
    (fun _ hS => hS.toClosed)
    (Solution.all_taintClosed p options.heap taint taintAbstraction entry)
    (fun _ hS => Taint.plugin_cooperates (reading_taintFaithful p) hS)
    (fun _ _ _ _ hedges => Taint.tracking_start hedges) h

theorem ContextSensitive.after_saturated {n : Nat} {s : EngineState ContextId ContextNames}
    {m : Unit} (h : ContextSensitive.after p options .none () entry n = some (s, m)) :
    Saturated reading options.selector.abstraction p options.heap s ∧
      Within reading options.heap (Solution.all _ _) s :=
  ObjectFlow.after_saturated (reading_faithful p options.selector) (named_empty options.heap)
    (fun _ hS => hS) (Solution.all_closed p options.heap options.selector.abstraction entry)
    (fun _ _ => Plugin.none_cooperates) (fun _ _ _ _ _ => trivial) h

theorem ContextSensitive.after_saturated_taint {n : Nat}
    {s : EngineState ContextId ContextNames} {m : TaintMemory}
    (h : ContextSensitive.after p options (Taint.plugin p taint) {} entry n = some (s, m)) :
    Saturated reading options.selector.abstraction p options.heap s ∧
      Within reading options.heap (Solution.all _ _) s :=
  ObjectFlow.after_saturated (reading_taintFaithful p options.selector).toFaithful
    (named_empty options.heap) (fun _ hS => hS.toClosed)
    (Solution.all_taintClosed p options.heap taint options.selector.taintAbstraction entry)
    (fun _ hS => Taint.plugin_cooperates (reading_taintFaithful p options.selector) hS)
    (fun _ _ _ _ hedges => Taint.tracking_start hedges) h

end Both

/-- **No points-to update is lost at any moment**: for every program, entry method and settings,
    after any number of items of work of either analysis, with taint tracking and without. -/
theorem nothing_lost_at_any_moment (p : Program) (options : PointsToOptions) (taint : TaintRules)
    (entry : MethodId) (n : Nat) :
    (∀ s m, Plain.after p options .none () entry n = some (s, m) →
      NothingLost p Plain.sensitivity s) ∧
    (∀ s m, Plain.after p options (Taint.plugin p taint) {} entry n = some (s, m) →
      NothingLost p Plain.sensitivity s) ∧
    (∀ s m, ContextSensitive.after p options .none () entry n = some (s, m) →
      NothingLost p (ContextSensitive.sensitivity options.selector) s) ∧
    (∀ s m, ContextSensitive.after p options (Taint.plugin p taint) {} entry n = some (s, m) →
      NothingLost p (ContextSensitive.sensitivity options.selector) s) := by
  have hplain := Plain.reading_faithful p
  have hcontext := ContextSensitive.reading_faithful p options.selector
  refine ⟨fun s m h => ?_, fun s m h => ?_, fun s m h => ?_, fun s m h => ?_⟩
  · obtain ⟨hs, hw⟩ := Plain.after_saturated p options entry h
    exact hs.nothingLost hplain hw
  · obtain ⟨hs, hw⟩ := Plain.after_saturated_taint p options taint entry h
    exact hs.nothingLost hplain hw
  · obtain ⟨hs, hw⟩ := ContextSensitive.after_saturated p options entry h
    exact hs.nothingLost hcontext hw
  · obtain ⟨hs, hw⟩ := ContextSensitive.after_saturated_taint p options taint entry h
    exact hs.nothingLost hcontext hw

/-- After five items of the sample program its call is connected, and there is still work: what
    comes back from it, and with taint tracking the tainted data it makes. -/
theorem nothing_lost_after_five :
    let options : PointsToOptions := { selector := .object 1 }
    let taint : TaintRules :=
      { sources := [(1, .object 1)], transfers := [(1, ⟨.result, .base, .object 1⟩)] }
    (∃ s m, Plain.after Plain.sample options .none () 0 5 = some (s, m) ∧
      (s.queue.toList.length, s.calls.edges.size) = (1, 1) ∧
      NothingLost Plain.sample Plain.sensitivity s) ∧
    (∃ s m, Plain.after Plain.sample options (Taint.plugin Plain.sample taint) {} 0 5 =
        some (s, m) ∧
      (s.queue.toList.length, s.calls.edges.size) = (2, 1) ∧
      NothingLost Plain.sample Plain.sensitivity s) ∧
    (∃ s m, ContextSensitive.after Plain.sample options .none () 0 5 = some (s, m) ∧
      (s.queue.toList.length, s.calls.edges.size) = (1, 1) ∧
      NothingLost Plain.sample (ContextSensitive.sensitivity options.selector) s) ∧
    (∃ s m, ContextSensitive.after Plain.sample options (Taint.plugin Plain.sample taint) {} 0 5 =
        some (s, m) ∧
      (s.queue.toList.length, s.calls.edges.size) = (2, 1) ∧
      NothingLost Plain.sample (ContextSensitive.sensitivity options.selector) s) := by
  intro options taint
  obtain ⟨hplain, hplainTaint, hcontext, hcontextTaint⟩ :=
    nothing_lost_at_any_moment Plain.sample options taint 0 5
  have h₁ : ((Plain.after Plain.sample options .none () 0 5).map fun (s, _) =>
      (s.queue.toList.length, s.calls.edges.size)) = some (1, 1) := by
    decide +kernel
  have h₂ : ((Plain.after Plain.sample options (Taint.plugin Plain.sample taint) {} 0 5).map
      fun (s, _) => (s.queue.toList.length, s.calls.edges.size)) = some (2, 1) := by
    decide +kernel
  have h₃ : ((ContextSensitive.after Plain.sample options .none () 0 5).map fun (s, _) =>
      (s.queue.toList.length, s.calls.edges.size)) = some (1, 1) := by
    decide +kernel
  have h₄ : ((ContextSensitive.after Plain.sample options (Taint.plugin Plain.sample taint) {} 0
      5).map fun (s, _) => (s.queue.toList.length, s.calls.edges.size)) = some (2, 1) := by
    decide +kernel
  obtain ⟨⟨s₁, m₁⟩, hs₁, hq₁⟩ := Option.map_eq_some_iff.mp h₁
  obtain ⟨⟨s₂, m₂⟩, hs₂, hq₂⟩ := Option.map_eq_some_iff.mp h₂
  obtain ⟨⟨s₃, m₃⟩, hs₃, hq₃⟩ := Option.map_eq_some_iff.mp h₃
  obtain ⟨⟨s₄, m₄⟩, hs₄, hq₄⟩ := Option.map_eq_some_iff.mp h₄
  exact ⟨⟨s₁, m₁, hs₁, hq₁, hplain s₁ m₁ hs₁⟩, ⟨s₂, m₂, hs₂, hq₂, hplainTaint s₂ m₂ hs₂⟩,
    ⟨s₃, m₃, hs₃, hq₃, hcontext s₃ m₃ hs₃⟩, ⟨s₄, m₄, hs₄, hq₄, hcontextTaint s₄ m₄ hs₄⟩⟩

end ObjectFlow
