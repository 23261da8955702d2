/-
  File:      ObjectFlow/Proofs/PointsTo/ContextDepth.lean
  Subject:   THE DEPTH OF CONTEXTS IS BOUNDED IN EVERY STATE OF EVERY RUN, and each callee is called
             under the context its selector chooses.

  * `Chosen`: the context of a callee has the elements it should have, of the call or of a
    receiver that the state knows;
  * `Shallow`: the tables are shallow, all contexts of variables are in use, and all call edges,
    known or pending, are chosen;
  * `Leads`: what the engine does to a shallow state: it stays shallow, and nothing that is
    numbered or pointed to is taken back. One lemma for each function of the engine and of taint
    tracking;
  * `contexts_bounded_in_every_state`: so it is after any number of items of work.
-/
import ObjectFlow.Proofs.PointsTo.ContextChoice
import ObjectFlow.Proofs.PointsTo.EveryMoment
import ObjectFlow.Proofs.PointsTo.OneContext

namespace ObjectFlow

namespace ContextSensitive

/-! ## 1. Shallow states -/

/-- **The context of the callee is the one the selector chooses**: for a static call, or for an
    object that the base of the call points to under the context of the caller. -/
inductive Chosen (selector : Selector) (p : Program) (s : EngineState ContextId ContextNames)
    (e : ContextCallEdge ContextId) : Prop
  | static {i : Invoke} {caller : List ContextElem} (stmt : p.stmt? e.site.item = some (.call i))
      (kind : i.kind = .static) (resolved : p.callee? none i = some e.callee.item)
      (site : s.names.HasElems e.site.context caller)
      (callee : s.names.HasElems e.callee.context
        (selector.calleeElems p s.heap ⟨caller, e.site.item⟩ none))
  | receiver {i : Invoke} {v : VarId} {id : PointerId} {o : Nat}
      {r : Qualified (List ContextElem) ObjectId} {caller : List ContextElem}
      (stmt : p.stmt? e.site.item = some (.call i)) (base : i.base = some v)
      (pointer : s.graph.pointer? id = some (.var e.site.context v))
      (points : o ∈ s.pointsTo id) (object : s.names.HasObject o r)
      (resolved : p.callee? (some (s.heap.tyOf r.item)) i = some e.callee.item)
      (site : s.names.HasElems e.site.context caller)
      (callee : s.names.HasElems e.callee.context
        (selector.calleeElems p s.heap ⟨caller, e.site.item⟩ (some r)))

/-- **Shallow states**: the tables are shallow, and what is known or pending is under contexts in
    use. -/
structure Shallow (selector : Selector) (p : Program) (s : EngineState ContextId ContextNames) :
    Prop where
  names : Bounded selector.depth s.heap s.names
  vars : ∀ {id c v}, s.graph.pointer? id = some (.var c v) → s.names.InUse c
  pending : ∀ {e}, .call e ∈ s.queue.toList → Chosen selector p s e
  calls : ∀ {e}, e ∈ s.calls.edges → Chosen selector p s e

/-- What is numbered keeps its number, and no set loses an object. -/
structure Kept (s t : EngineState ContextId ContextNames) : Prop where
  names : NamesKept s.heap s.names t.heap t.names
  pointers : s.graph.pointers.Keeps t.graph.pointers
  sets : ∀ {id i}, i ∈ s.pointsTo id → i ∈ t.pointsTo id

/-- **From `s` to the shallow state `t`.** -/
structure Leads (selector : Selector) (p : Program) (s t : EngineState ContextId ContextNames) :
    Prop where
  shallow : Shallow selector p t
  kept : Kept s t

section Shallow

variable {selector : Selector} {p : Program} {s t u : EngineState ContextId ContextNames}

theorem Kept.trans (a : Kept s t) (b : Kept t u) : Kept s u :=
  ⟨a.names.trans b.names, a.pointers.trans b.pointers, fun hi => b.sets (a.sets hi)⟩

/-- Other work and other calls take nothing back. -/
theorem kept_apart (s : EngineState ContextId ContextNames)
    (queue : WorkQueue (WorkItem (ContextCallEdge ContextId))) (calls : ContextCallGraph ContextId) :
    Kept s { s with queue := queue, calls := calls } :=
  ⟨.refl _ _, Interner.keeps_refl _, fun hi => hi⟩

theorem Shallow.stays (h : Shallow selector p s) : Leads selector p s s :=
  ⟨h, kept_apart s s.queue s.calls⟩

theorem Leads.trans (a : Leads selector p s t) (b : Leads selector p t u) :
    Leads selector p s u := ⟨b.shallow, a.kept.trans b.kept⟩

theorem Chosen.inUse {e : ContextCallEdge ContextId} (h : Chosen selector p s e) :
    s.names.InUse e.site.context ∧ s.names.InUse e.callee.context := by
  cases h with
  | static _ _ _ site callee => exact ⟨⟨_, site⟩, _, callee⟩
  | receiver _ _ _ _ _ _ site callee => exact ⟨⟨_, site⟩, _, callee⟩

/-- A context that was chosen stays the one to choose. -/
theorem Chosen.kept {e : ContextCallEdge ContextId} (h : Chosen selector p s e)
    (hb : Bounded selector.depth s.heap s.names) (hk : Kept s t) : Chosen selector p t e := by
  cases h with
  | static stmt kind resolved site callee =>
    refine .static stmt kind resolved (hk.names.hasElems site) ?_
    rw [selector.calleeElems_none p s.heap t.heap]
    exact hk.names.hasElems callee
  | receiver stmt base pointer points object resolved site callee =>
    have hat := hk.names.objectAt hb object
    refine .receiver stmt base (hk.pointers _ _ pointer) (hk.sets points)
      (hk.names.hasObject object) ?_ (hk.names.hasElems site) ?_
    · rw [show t.heap.tyOf _ = s.heap.tyOf _ from congrArg HeapObject.ty hat]
      exact resolved
    · rw [selector.calleeElems_some p _ hat]
      exact hk.names.hasElems callee

/-- **Only what is new has to be shown.** -/
theorem Shallow.leads (h : Shallow selector p s) (hk : Kept s t)
    (hnames : Bounded selector.depth t.heap t.names)
    (hvars : ∀ id c v, t.graph.pointer? id = some (.var c v) →
      s.graph.pointer? id = some (.var c v) ∨ t.names.InUse c)
    (hpending : ∀ e, .call e ∈ t.queue.toList → .call e ∈ s.queue.toList ∨ Chosen selector p t e)
    (hcalls : ∀ e ∈ t.calls.edges, .call e ∈ s.queue.toList ∨ e ∈ s.calls.edges) :
    Leads selector p s t where
  kept := hk
  shallow :=
    { names := hnames
      vars := fun hid => (hvars _ _ _ hid).elim (fun hold => hk.names.inUse (h.vars hold))
        fun hnew => hnew
      pending := fun he => (hpending _ he).elim (fun hold => (h.pending hold).kept h.names hk)
        fun hnew => hnew
      calls := fun he => (hcalls _ he).elim (fun hold => (h.pending hold).kept h.names hk)
        fun hold => (h.calls hold).kept h.names hk }

/-! ## 2. Pointers and work -/

/-- The heap and the naming may grow as long as the tables stay shallow. -/
theorem Shallow.renamed (h : Shallow selector p s) {heap : Heap} {names : ContextNames}
    (hb : Bounded selector.depth heap names) (hk : NamesKept s.heap s.names heap names) :
    Leads selector p s { s with heap := heap, names := names } :=
  h.leads ⟨hk, Interner.keeps_refl _, fun hi => hi⟩ hb (fun _ _ _ hid => .inl hid)
    (fun _ he => .inl he) fun _ he => .inr he

theorem Shallow.pointer (h : Shallow selector p s) {a : Pointer ContextId}
    (ha : ∀ c v, a = .var c v → s.names.InUse c) : Leads selector p s (s.pointer a).2 := by
  obtain ⟨-, hkeeps, hsets, -, -⟩ := PointerGraph.intern_spec s.graph a
  refine h.leads ⟨.refl _ _, hkeeps, fun {id i} hi => ?_⟩ h.names (fun id c v hid => ?_)
    (fun _ he => .inl he) fun _ he => .inr he
  · show i ∈ (s.graph.intern a).2.pointsTo id
    rw [hsets]
    exact hi
  · rcases PointerGraph.pointer?_intern hid with hold | heq
    · exact .inl hold
    · exact .inr (ha c v heq.symm)

/-- **Queueing an item**: a call has to be to the context chosen. -/
theorem Shallow.push (h : Shallow selector p s) (item : WorkItem (ContextCallEdge ContextId))
    (hitem : ∀ e, item = .call e → Chosen selector p s e) :
    Leads selector p s { s with queue := s.queue.push item } := by
  have hk := kept_apart s (s.queue.push item) s.calls
  refine h.leads hk h.names (fun _ _ _ hid => .inl hid) (fun e he => ?_) fun _ he => .inr he
  rw [WorkQueue.toList_push, List.mem_append, List.mem_singleton] at he
  exact he.imp_right fun heq => (hitem e heq.symm).kept h.names hk

theorem Shallow.send (h : Shallow selector p s) (id : PointerId) (objects : IdSet) :
    Leads selector p s (s.send id objects) :=
  h.push _ fun _ heq => by cases heq

theorem Shallow.sendTo (h : Shallow selector p s) {c : ContextId} (hc : s.names.InUse c) (v : VarId)
    (objects : IdSet) :
    Leads selector p s ((s.pointer (.var c v)).2.send (s.pointer (.var c v)).1 objects) := by
  have hpointer := h.pointer (a := .var c v) fun c' v' heq => by
    cases heq
    exact hc
  exact hpointer.trans (hpointer.shallow.send _ objects)

theorem Shallow.sendCall (h : Shallow selector p s) {e : ContextCallEdge ContextId}
    (he : Chosen selector p s e) : Leads selector p s (s.sendCall e) :=
  h.push _ fun _ heq => by
    cases heq
    exact he

/-- Linking two pointers under contexts in use. -/
theorem Shallow.link (h : Shallow selector p s) {a b : Pointer ContextId}
    (ha : ∀ c v, a = .var c v → s.names.InUse c) (hb : ∀ c v, b = .var c v → s.names.InUse c) :
    Leads selector p s (s.link a b) := by
  have hsource := h.pointer ha
  have htarget := hsource.shallow.pointer (a := b) fun c v heq =>
    hsource.kept.names.inUse (hb c v heq)
  have hboth := hsource.trans htarget
  unfold EngineState.link
  simp only
  generalize ((s.pointer a).2.pointer b).2 = u at hboth ⊢
  split
  · exact hboth
  · have hadded : Leads selector p u
        { u with graph := u.graph.addEdge (s.pointer a).1 ((s.pointer a).2.pointer b).1 } := by
      refine hboth.shallow.leads ⟨.refl _ _, ?_, fun {id i} hi => ?_⟩ hboth.shallow.names
        (fun id c v hid => .inl ?_) (fun _ he => .inl he) fun _ he => .inr he
      · show u.graph.pointers.Keeps (u.graph.addEdge _ _).pointers
        rw [PointerGraph.pointers_addEdge]
        exact Interner.keeps_refl _
      · show i ∈ (u.graph.addEdge _ _).pointsTo id
        rw [PointerGraph.pointsTo_addEdge]
        exact hi
      · have hget : (u.graph.addEdge _ _).pointers.get? id = some (.var c v) := hid
        rw [PointerGraph.pointers_addEdge] at hget
        exact hget
    split
    · exact hboth.trans hadded
    · exact (hboth.trans hadded).trans (hadded.shallow.send _ _)

/-- A variable under a context in use. -/
theorem inUse_of_var {c : ContextId} {v : VarId} (hc : s.names.InUse c) (c' : ContextId)
    (v' : VarId) (h : Pointer.var c v = .var c' v') : s.names.InUse c' := by
  cases h
  exact hc

/-- **A loop leads on if each of its steps does.** -/
theorem Shallow.foldl {α : Type} {f : EngineState ContextId ContextNames → α →
    EngineState ContextId ContextNames} (l : List α) (h : Shallow selector p s)
    (hf : ∀ a ∈ l, ∀ u, Leads selector p s u → Leads selector p u (f u a)) :
    Leads selector p s (l.foldl f s) := by
  induction l generalizing s with
  | nil => exact h.stays
  | cons a l ih =>
    have ha := hf a List.mem_cons_self s h.stays
    exact ha.trans (ih ha.shallow fun b hb u hu => hf b (List.mem_cons_of_mem a hb) u (ha.trans hu))

/-! ## 3. Methods, objects and calls -/

/-- A static call is sent under the context chosen. -/
theorem Shallow.enterStatic (h : Shallow selector p s) {c : ContextId} (hc : s.names.InUse c)
    {site : Site} {i : Invoke} (hstmt : p.stmt? site = some (.call i)) :
    Leads selector p s (s.enterStmt p (sensitivity selector) c (site, .call i)) := by
  unfold EngineState.enterStmt
  simp only
  split
  · rename_i hkind
    split
    · rename_i m hm
      obtain ⟨caller, hcaller⟩ := hc
      obtain ⟨hb, hk, hchosen⟩ := h.names.calleeContext p ⟨c, site⟩ hcaller none none .none
      have hnamed := h.renamed hb hk
      exact hnamed.trans (hnamed.shallow.sendCall
        (.static hstmt hkind hm (hk.hasElems hcaller) hchosen))
    · exact h.stays
  · exact h.stays

/-- **Entering a statement** of a method under a context in use. -/
theorem Shallow.enterStmt (h : Shallow selector p s) {c : ContextId} (hc : s.names.InUse c)
    {site : Site} {stmt : Stmt} (hstmt : p.stmt? site = some stmt) :
    Leads selector p s (s.enterStmt p (sensitivity selector) c (site, stmt)) := by
  have hvar (v : VarId) := inUse_of_var (v := v) hc
  have hstatic (f : FieldId) (c : ContextId) (v : VarId)
      (heq : Pointer.staticField f = .var c v) : s.names.InUse c := by cases heq
  cases stmt with
  | alloc lhs ty length =>
    obtain ⟨hb₁, hk₁⟩ := h.names.internHeap (Heap.objectFor s.heap.policy site ty)
    have hget := (Interner.intern_spec s.heap.objects (Heap.objectFor s.heap.policy site ty)).1
    obtain ⟨hb₂, hk₂⟩ := hb₁.allocated (hk₁.inUse hc) ⟨_, hget⟩
    have hnamed := h.renamed hb₂ (hk₁.trans hk₂)
    exact hnamed.trans (hnamed.shallow.sendTo ((hk₁.trans hk₂).inUse hc) lhs _)
  | call i => exact h.enterStatic hc hstmt
  | assign lhs rhs =>
    cases rhs with
    | var v => exact h.link (hvar v) (hvar lhs)
    | cast ty v => exact h.link (hvar v) (hvar lhs)
    | int value => exact h.stays
    | binary op left right => exact h.stays
  | loadField lhs base f =>
    cases base with
    | none => exact h.link (hstatic f) (hvar lhs)
    | some b => exact h.stays
  | storeField base f rhs =>
    cases base with
    | none => exact h.link (hvar rhs) (hstatic f)
    | some b => exact h.stays
  | _ => exact h.stays

/-- **Making a method reachable** under a context in use. -/
theorem Shallow.reach (h : Shallow selector p s) {m : Qualified ContextId MethodId}
    (hm : s.names.InUse m.context) :
    Leads selector p s (s.reach p (sensitivity selector) m) := by
  unfold EngineState.reach
  split
  · exact h.stays
  · have hadded : Leads selector p s { s with calls := s.calls.addReachable m } := by
      refine h.leads (kept_apart s s.queue _) h.names (fun _ _ _ hid => .inl hid)
        (fun _ he => .inl he) fun e he => .inr ?_
      rw [CallGraph.edges_addReachable] at he
      exact he
    refine hadded.trans (hadded.shallow.foldl _ fun here hhere u hu => ?_)
    exact hu.shallow.enterStmt (hu.kept.names.inUse hm) (Program.mem_sitesOf.mp hhere).2

/-- The accesses through a variable under a context in use. -/
theorem Shallow.access (h : Shallow selector p s) {c : ContextId} (hc : s.names.InUse c)
    (uses : Program.VarUses) (object : Nat) : Leads selector p s (s.access p uses c object) := by
  -- each loop links a variable under `c` with a field or the elements of the object
  have hloop : ∀ {u : EngineState ContextId ContextNames}
      {f : EngineState ContextId ContextNames → Site → EngineState ContextId ContextNames}
      {sites : List Site},
      (∀ site u, f u site = u ∨ ∃ a b, f u site = u.link a b ∧ (∀ c' v, a = .var c' v → c' = c) ∧
        ∀ c' v, b = .var c' v → c' = c) →
      Leads selector p s u → Leads selector p s (sites.foldl f u) := by
    intro u f sites hf hu
    refine hu.trans (hu.shallow.foldl _ fun site _ w hw => ?_)
    rcases hf site w with heq | ⟨a, b, heq, ha, hb⟩
    · rw [heq]
      exact hw.shallow.stays
    · have hcw := (hu.trans hw).kept.names.inUse hc
      rw [heq]
      exact hw.shallow.link (fun c' v hv => ha c' v hv ▸ hcw) fun c' v hv => hb c' v hv ▸ hcw
  refine hloop ?_ (hloop ?_ (hloop ?_ (hloop ?_ h.stays)))
  all_goals
    intro site u
    split
    · refine .inr ⟨_, _, rfl, ?_, ?_⟩ <;>
        (intro c' v heq; cases heq; try rfl)
    · exact .inl rfl

/-- **A call on an object is sent under the context chosen for the object.** -/
theorem Shallow.callOn (h : Shallow selector p s) {c : ContextId} {v : VarId} {id : PointerId}
    {o : Nat} {r : Qualified (List ContextElem) ObjectId}
    (hid : s.graph.pointer? id = some (.var c v)) (hpoints : o ∈ s.pointsTo id)
    (ho : s.names.HasObject o r) {site : Site} {i : Invoke}
    (hstmt : p.stmt? site = some (.call i)) (hbase : i.base = some v) :
    Leads selector p s (s.callOn p (sensitivity selector) c o site) := by
  have hitem : (sensitivity selector).heapObject s.names o = r.item := by
    obtain ⟨c', hget, -⟩ := ho
    exact congrArg Qualified.item (names_objectAt_of_get? hget)
  unfold EngineState.callOn
  rw [Program.invoke?_eq_some_iff.mpr hstmt, hitem]
  dsimp only
  split
  · exact h.stays
  · rename_i m hm
    obtain ⟨caller, hcaller⟩ := h.vars hid
    obtain ⟨hb, hk, hchosen⟩ := h.names.calleeContext p ⟨c, site⟩ hcaller (some o)
      (some r) (.some ho)
    have hnamed := h.renamed hb hk
    let chosen := (sensitivity selector).calleeContext p s.heap ⟨c, site⟩ (some o) s.names
    have hedge : Chosen selector p { s with names := chosen.2 }
        ⟨i.kind, ⟨c, site⟩, ⟨chosen.1, m⟩⟩ :=
      .receiver hstmt hbase hid hpoints (hk.hasObject ho) hm (hk.hasElems hcaller) hchosen
    split
    · rename_i this _
      have hsent := hnamed.shallow.sendTo ⟨_, hchosen⟩ this (.singleton o)
      exact (hnamed.trans hsent).trans (hsent.shallow.sendCall (hedge.kept hb hsent.kept))
    · exact hnamed.trans (hnamed.shallow.sendCall hedge)

/-- **Taking up an object at a variable.** -/
theorem Shallow.newObject (h : Shallow selector p s) {c : ContextId} {v : VarId} {id : PointerId}
    {o : Nat} {r : Qualified (List ContextElem) ObjectId}
    (hid : s.graph.pointer? id = some (.var c v)) (hpoints : o ∈ s.pointsTo id)
    (ho : s.names.HasObject o r) :
    Leads selector p s (s.newObject p (sensitivity selector) (p.usesOf v) c o) := by
  have haccess := h.access (h.vars hid) (p.usesOf v) o
  refine haccess.trans (haccess.shallow.foldl _ fun site hsite u hu => ?_)
  have hall := haccess.trans hu
  obtain ⟨i, hstmt, hbase⟩ := Program.mem_invokes.mp hsite
  exact hu.shallow.callOn (hall.kept.pointers _ _ hid) (hall.kept.sets hpoints)
    (hall.kept.names.hasObject ho) hstmt hbase

/-- **Connecting a call** between contexts in use. -/
theorem Shallow.connect (h : Shallow selector p s) {e : ContextCallEdge ContextId}
    (hsite : s.names.InUse e.site.context) (hcallee : s.names.InUse e.callee.context) (i : Invoke) :
    Leads selector p s (s.connect p e i) := by
  have hargs := h.foldl (i.args.zip (p.methodAt e.callee.item).params)
    (f := fun u (x : VarId × VarId) =>
      u.link (.var e.site.context x.1) (.var e.callee.context x.2))
    fun x _ u hu => hu.shallow.link (inUse_of_var (hu.kept.names.inUse hsite))
      (inUse_of_var (hu.kept.names.inUse hcallee))
  unfold EngineState.connect
  simp only
  split
  · refine hargs.trans (hargs.shallow.foldl _ fun v _ u hu => ?_)
    have hall := hargs.trans hu
    exact hu.shallow.link (inUse_of_var (hall.kept.names.inUse hcallee))
      (inUse_of_var (hall.kept.names.inUse hsite))
  · exact hargs

end Shallow

/-! ## 4. Plugins -/

/-- **A plugin that keeps contexts shallow**, when it is told of calls under contexts in use. -/
structure KeepsShallow {ρ : Type} (plugin : Plugin ContextId ContextNames ρ) (selector : Selector)
    (p : Program) : Prop where
  onObjects : ∀ {s r} (id : PointerId) (delta : IdSet), Shallow selector p s →
    Leads selector p s (plugin.onObjects (sensitivity selector) id delta (s, r)).1
  onCall : ∀ {s r} {e : ContextCallEdge ContextId}, Shallow selector p s →
    s.names.InUse e.site.context →
    Leads selector p s (plugin.onCall (sensitivity selector) e (s, r)).1

theorem none_keepsShallow (selector : Selector) (p : Program) :
    KeepsShallow .none selector p where
  onObjects _ _ h := h.stays
  onCall h _ := h.stays

section Taint

variable {selector : Selector} {p : Program} {s : EngineState ContextId ContextNames}

theorem Shallow.taintObject (h : Shallow selector p s) (source : Site) (ty : Ty) :
    Leads selector p s (s.taintObject (sensitivity selector) source ty).2 := by
  obtain ⟨hb₁, hk₁⟩ := h.names.internHeap ⟨.taint source, ty⟩
  have hget := (Interner.intern_spec s.heap.objects ⟨.taint source, ty⟩).1
  obtain ⟨hb₂, hk₂⟩ := hb₁.unallocated ⟨_, hget⟩
  exact h.renamed hb₂ (hk₁.trans hk₂)

theorem Shallow.retag (h : Shallow selector p s) (ty : Ty) (objects : List Nat) :
    Leads selector p s (Taint.retag (sensitivity selector) ty s objects).2 := by
  refine List.foldlRecOn objects _
    (motive := fun out : IdSet × EngineState ContextId ContextNames => Leads selector p s out.2)
    h.stays fun out hout object _ => ?_
  obtain ⟨tagged, u⟩ := out
  simp only
  split
  · exact hout.trans (hout.shallow.taintObject _ ty)
  · exact hout

theorem Shallow.pass (h : Shallow selector p s) (objects : IdSet) (target : PointerId) (ty : Ty) :
    Leads selector p s (Taint.pass (sensitivity selector) s objects target ty) := by
  have hretag := h.retag ty objects.elems
  unfold Taint.pass
  simp only
  split
  · exact hretag
  · exact hretag.trans (hretag.shallow.send target _)

theorem Shallow.slotPointer (h : Shallow selector p s) {c : ContextId} (hc : s.names.InUse c)
    (i : Invoke) (slot : Slot) : Leads selector p s (Taint.slotPointer s c i slot).2 := by
  unfold Taint.slotPointer
  split
  · exact h.stays
  · exact h.pointer (inUse_of_var hc)

theorem Shallow.addSource (h : Shallow selector p s) {c : ContextId} (hc : s.names.InUse c)
    (site : Site) (result : VarId) (ty : Ty) :
    Leads selector p s (Taint.addSource (sensitivity selector) site c result s ty) := by
  have hmade := h.taintObject site ty
  exact hmade.trans (hmade.shallow.sendTo (hmade.kept.names.inUse hc) result _)

theorem Shallow.addTransfer (h : Shallow selector p s) {c : ContextId} (hc : s.names.InUse c)
    (i : Invoke) (memory : TaintMemory) (t : Transfer) :
    Leads selector p s (Taint.addTransfer (sensitivity selector) c i (s, memory) t).1 := by
  have hsource := h.slotPointer hc i t.source
  have htarget := hsource.shallow.slotPointer (hsource.kept.names.inUse hc) i t.target
  have hboth := hsource.trans htarget
  unfold Taint.addTransfer
  simp only
  split
  · split
    · exact hboth
    · exact hboth.trans (hboth.shallow.pass _ _ _)
  · exact hboth

theorem Shallow.addSink (h : Shallow selector p s) {c : ContextId} (hc : s.names.InUse c)
    (site : Site) (i : Invoke) (memory : TaintMemory) (k : Nat) :
    Leads selector p s (Taint.addSink site c i (s, memory) k).1 := by
  unfold Taint.addSink
  simp only
  split
  · exact h.stays
  · split <;> exact h.pointer (inUse_of_var hc)

/-- **Taint tracking keeps contexts shallow**: it makes objects without a context, and asks for
    variables under the context of the caller only. -/
theorem taint_keepsShallow (selector : Selector) (p : Program) (taint : TaintRules) :
    KeepsShallow (Taint.plugin p taint) selector p where
  onObjects {s memory} id delta h := by
    have hout : Leads selector p s ((memory.edges.filter (·.source = id)).foldl
        (fun s e => Taint.pass (sensitivity selector) s delta e.target e.ty) s) :=
      h.foldl _ fun e _ u hu => hu.shallow.pass delta e.target e.ty
    exact hout
  onCall {s memory e} h hc := by
    have hcall : Leads selector p s
        (Taint.onCall p taint (sensitivity selector) e (s, memory)).1 := by
      unfold Taint.onCall
      split
      · exact h.stays
      · rename_i i _
        let Led (run : EngineState ContextId ContextNames × TaintMemory) : Prop :=
          Leads selector p s run.1
        refine List.foldlRecOn _ _ (motive := Led)
          (List.foldlRecOn _ _ (motive := Led) ?sources ?transfers) ?sinks
        case sources =>
          show Leads selector p s _
          dsimp only
          split
          · exact h.foldl _ fun ty _ u hu =>
              hu.shallow.addSource (hu.kept.names.inUse hc) _ _ ty
          · exact h.stays
        case transfers =>
          exact fun run hrun t _ =>
            hrun.trans (hrun.shallow.addTransfer (hrun.kept.names.inUse hc) i run.2 t)
        case sinks =>
          exact fun run hrun k _ =>
            hrun.trans (hrun.shallow.addSink (hrun.kept.names.inUse hc) _ i run.2 k)
    exact hcall

end Taint

/-! ## 5. Runs -/

section Runs

variable {ρ : Type} {selector : Selector} {p : Program} {plugin : Plugin ContextId ContextNames ρ}
  {heap : HeapPolicy} {S : Solution (List ContextMark) (Qualified (List ContextMark) HeapObject)}
  {s : EngineState ContextId ContextNames} {r : ρ}

/-- An object that flows into a pointer is in use. -/
theorem hasObject_of_justified (hb : Bounded selector.depth s.heap s.names) {id : PointerId}
    {i : Nat} (h : reading.Justified S s id i) : ∃ r, s.names.HasObject i r := by
  obtain ⟨_, o, -, ho, -⟩ := h
  obtain ⟨q, hq, -⟩ := object?_eq_some.mp ho
  obtain ⟨l, hl⟩ := hb.hasObject hq
  exact ⟨_, hl⟩

/-- **Letting objects flow into a pointer** keeps contexts shallow. -/
theorem Shallow.doPoints (hplugin : KeepsShallow plugin selector p) (h : Shallow selector p s)
    (hw : Within reading heap S s) {id : PointerId} {objects : IdSet}
    {rest : WorkQueue (WorkItem (ContextCallEdge ContextId))}
    (hq : s.queue.pop? = some (.points id objects, rest)) :
    Leads selector p s (Engine.doPoints p (sensitivity selector) plugin id objects
      ({ s with queue := rest }, r)).1 := by
  have hitem : ∀ i ∈ objects, reading.Justified S s id i :=
    hw.queue _ ((WorkQueue.mem_of_pop? hq _).mpr (.inl rfl))
  have ha := arrival_of_pop? hw hq
  have hmem := mem_grow_fst { s with queue := rest } id objects
  rw [Engine.doPoints_eq]
  generalize EngineState.grow { s with queue := rest } id objects = grown at ha hmem ⊢
  obtain ⟨delta, u⟩ := grown
  have hk : Kept s u := by
    refine ⟨?_, ?_, fun {id' i} hi => (ha.sets id' i).mpr (.inl hi)⟩
    · rw [ha.heap, ha.names]
      exact .refl _ _
    · rw [ha.pointers]
      exact Interner.keeps_refl _
  have hgrown : Leads selector p s u := by
    refine h.leads hk ?_ (fun id' c v hid => .inl ?_) (fun e he => .inl ?_) fun e he => .inr ?_
    · rw [ha.heap, ha.names]
      exact h.names
    · have hget : u.graph.pointers.get? id' = some (.var c v) := hid
      rw [ha.pointers] at hget
      exact hget
    · rcases ha.queue _ he with hold | ⟨_, -, _, heq, -⟩
      · exact hold
      · cases heq
    · exact ha.calls ▸ he
  split
  · exact hgrown
  · have htold := hplugin.onObjects (r := r) id delta hgrown.shallow
    simp only
    generalize plugin.onObjects (sensitivity selector) id delta (u, r) = out at htold ⊢
    have hall := hgrown.trans htold
    unfold Engine.takeUp
    split
    · rename_i c v hid
      refine hall.trans (hall.shallow.foldl _ fun i hi w hw' => ?_)
      have hnew := ((hmem i).mp hi).1
      obtain ⟨q, hobject⟩ := hasObject_of_justified h.names (hitem i hnew)
      have hpoints := htold.kept.sets ((ha.sets id i).mpr (.inr ⟨rfl, hnew⟩))
      exact hw'.shallow.newObject (hw'.kept.pointers _ _ hid) (hw'.kept.sets hpoints)
        ((hall.trans hw').kept.names.hasObject hobject)
    · exact hall

/-- **Connecting a call edge** keeps contexts shallow. -/
theorem Shallow.doCall (hplugin : KeepsShallow plugin selector p) (h : Shallow selector p s)
    {e : ContextCallEdge ContextId} {rest : WorkQueue (WorkItem (ContextCallEdge ContextId))}
    (hq : s.queue.pop? = some (.call e, rest)) :
    Leads selector p s (Engine.doCall p (sensitivity selector) plugin e
      ({ s with queue := rest }, r)).1 := by
  have hmem := WorkQueue.mem_of_pop? hq
  have hpending : .call e ∈ s.queue.toList := (hmem _).mpr (.inl rfl)
  obtain ⟨hsite, hcallee⟩ := (h.pending hpending).inUse
  have hpopped : ∀ calls : ContextCallGraph ContextId,
      (∀ e' ∈ calls.edges, e' ∈ s.calls.edges ∨ e' = e) →
      Leads selector p s { s with queue := rest, calls := calls } := by
    intro calls hcalls
    refine h.leads (kept_apart s rest calls) h.names
      (fun _ _ _ hid => .inl hid) (fun e' he' => .inl ((hmem _).mpr (.inr he'))) fun e' he' => ?_
    rcases hcalls e' he' with hold | rfl
    · exact .inr hold
    · exact .inl hpending
  unfold Engine.doCall
  simp only
  split
  · exact hpopped s.calls fun _ he => .inl he
  · rename_i hnew
    rw [Bool.not_eq_true] at hnew
    have hadded := hpopped (s.calls.addEdge e) fun e' he' =>
      (CallGraph.mem_edges_addEdge hnew).mp he'
    have hreached := hadded.trans (hadded.shallow.reach (hadded.kept.names.inUse hcallee))
    split
    · exact hreached
    · rename_i i _
      have hconnected := hreached.trans (hreached.shallow.connect
        (hreached.kept.names.inUse hsite) (hreached.kept.names.inUse hcallee) i)
      exact hconnected.trans (hplugin.onCall hconnected.shallow
        (hconnected.kept.names.inUse hsite))

/-- **The step**: one item of work, whichever end of the queue it comes from. -/
theorem Shallow.step (hplugin : KeepsShallow plugin selector p)
    {run next : EngineState ContextId ContextNames × ρ} (h : Shallow selector p run.1)
    (hw : Within reading heap S run.1)
    (hstep : Engine.step p (sensitivity selector) plugin run = some next) :
    Leads selector p run.1 next.1 := by
  obtain ⟨⟨item, rest⟩, hq, rfl⟩ := Option.map_eq_some_iff.mp hstep
  cases item with
  | points id objects => exact h.doPoints hplugin hw hq
  | call e => exact h.doCall hplugin hq

/-- Before the first item of work there is the empty context only. -/
theorem start_shallow (selector : Selector) (p : Program) (heap : HeapPolicy) (order : QueueOrder)
    (entry : MethodId) :
    Shallow selector p (Engine.start p (sensitivity selector) {} heap order entry) := by
  have hblank : Shallow selector p (.blank ContextId heap {} order) := by
    refine ⟨bounded_empty _ heap, fun hid => ?_, fun he => ?_, fun he => ?_⟩
    · cases Interner.lt_size_of_get? hid
    · cases he
    · simp [EngineState.blank] at he
  have hreached := hblank.reach (m := ⟨Contexts.empty, entry⟩) ⟨[], hblank.names.empty⟩
  have hentered : Leads selector p _ (Engine.start p (sensitivity selector) {} heap order entry) :=
    hreached.shallow.leads (kept_apart _ _ _) hreached.shallow.names
      (fun _ _ _ hid => .inl hid) (fun _ he => .inl he) fun e he => .inr (by
        have hedges : e ∈ (CallGraph.addEntry _ _).edges := he
        rw [CallGraph.edges_addEntry] at hedges
        exact hedges)
  exact hentered.shallow

/-- **The run**: after any number of items of work contexts are shallow, and nothing was taken
    back. -/
theorem after_leads (hplugin : KeepsShallow plugin selector p)
    {first run : EngineState ContextId ContextNames × ρ} (hfirst : Shallow selector p first.1)
    (hw : ∀ n run, Engine.after p (sensitivity selector) plugin first n = some run →
      Within reading heap S run.1) {n : Nat}
    (h : Engine.after p (sensitivity selector) plugin first n = some run) :
    Leads selector p first.1 run.1 := by
  induction n generalizing run with
  | zero =>
    cases h
    exact hfirst.stays
  | succ n ih =>
    obtain ⟨before, hbefore, hstep⟩ := Option.bind_eq_some_iff.mp h
    have hled := ih hbefore
    exact hled.trans (hled.shallow.step hplugin (hw n before hbefore) hstep)

end Runs

/-! ## 6. The analysis with contexts -/

/-- **Contexts are bounded**: what is known or pending in a state is under contexts in use, of at
    most as many elements as the selector says and one less for heap contexts; contexts in use have
    different elements, the first one none; and every call edge is to the context chosen. -/
structure ContextsBounded (selector : Selector) (p : Program)
    (s : EngineState ContextId ContextNames) : Prop where
  methods : ∀ m, s.calls.hasMethod m = true →
    ∃ l, s.names.HasElems m.context l ∧ l.length ≤ selector.depth
  vars : ∀ id c v, s.graph.pointer? id = some (.var c v) →
    ∃ l, s.names.HasElems c l ∧ l.length ≤ selector.depth
  sites : ∀ e, e ∈ s.calls.edges ∨ .call e ∈ s.queue.toList →
    ∃ l, s.names.HasElems e.site.context l ∧ l.length ≤ selector.depth
  objects : ∀ i q, s.names.objects.get? i = some q →
    ∃ l, s.names.HasElems q.context l ∧ l.length ≤ selector.depth - 1
  distinct : ∀ c c' l, s.names.HasElems c l → s.names.HasElems c' l → c = c'
  empty : s.names.HasElems Contexts.empty []
  chosen : ∀ e, e ∈ s.calls.edges ∨ .call e ∈ s.queue.toList → Chosen selector p s e

section Bounds

variable {selector : Selector} {p : Program} {heap : HeapPolicy}
  {S : Solution (List ContextMark) (Qualified (List ContextMark) HeapObject)}
  {s : EngineState ContextId ContextNames}

theorem Shallow.contextsBounded (h : Shallow selector p s) (hw : Within reading heap S s) :
    ContextsBounded selector p s := by
  have hchosen : ∀ e, e ∈ s.calls.edges ∨ .call e ∈ s.queue.toList → Chosen selector p s e :=
    fun e he => he.elim h.calls h.pending
  have hdeep : ∀ {c}, s.names.InUse c →
      ∃ l, s.names.HasElems c l ∧ l.length ≤ selector.depth := by
    intro c ⟨l, hl⟩
    exact ⟨l, hl, h.names.contexts hl⟩
  refine ⟨fun m hm => hdeep ?_, fun id c v hid => hdeep (h.vars hid),
    fun e he => hdeep (hchosen e he).inUse.1, fun i q hi => h.names.heapContexts hi,
    fun c c' l hl hl' => h.names.distinct c c' l hl hl', h.names.empty, hchosen⟩
  obtain ⟨n, hn, -⟩ := hw.reachable m hm
  obtain ⟨marks, hmarks, -⟩ := Option.map_eq_some_iff.mp hn
  obtain ⟨l, hl, -⟩ := Option.bind_eq_some_iff.mp hmarks
  exact ⟨l, hl⟩

/-- Each state of the analysis is bounded, and those after it keep its contexts, if the plugin keeps
    contexts shallow and the run is within a solution. -/
theorem after_bounded {ρ : Type} {options : PointsToOptions}
    {plugin : Plugin ContextId ContextNames ρ} {memory : ρ} {entry : MethodId}
    (hplugin : KeepsShallow plugin options.selector p)
    (hw : ∀ n s m, after p options plugin memory entry n = some (s, m) → Within reading heap S s)
    {n : Nat} {m : ρ} (h : after p options plugin memory entry n = some (s, m)) :
    ContextsBounded options.selector p s ∧
      ∀ k t m', after p options plugin memory entry (n + k) = some (t, m') →
        ∀ c l, s.names.HasElems c l → t.names.HasElems c l := by
  have hled := after_leads hplugin
    (start_shallow options.selector p options.heap options.order entry)
    (fun n run hrun => hw n run.1 run.2 hrun) h
  refine ⟨hled.shallow.contextsBounded (hw n s m h), fun k t m' ht c l hl => ?_⟩
  have hgoesOn : ∀ k, after p options plugin memory entry (n + k)
      = Engine.after p (sensitivity options.selector) plugin (s, m) k := by
    intro k
    have hn : Engine.after p (sensitivity options.selector) plugin _ n = some (s, m) := h
    unfold after
    rw [Engine.after_add, hn]
    rfl
  rw [hgoesOn] at ht
  have hlater : Leads options.selector p s t := after_leads hplugin hled.shallow
    (fun j run hrun => hw (n + j) run.1 run.2 ((hgoesOn j).trans hrun)) ht
  exact hlater.kept.names.hasElems hl

end Bounds

/-- **The depth of contexts is bounded in every state of every run**: for every program, entry
    method, selector and settings, after any number of items of work, with taint tracking and
    without; and a context in use keeps its elements however the run goes on. -/
theorem contexts_bounded_in_every_state (p : Program) (options : PointsToOptions)
    (taint : TaintRules) (entry : MethodId) (n : Nat) :
    (∀ s m, after p options .none () entry n = some (s, m) →
      ContextsBounded options.selector p s ∧
      ∀ k t m', after p options .none () entry (n + k) = some (t, m') →
        ∀ c l, s.names.HasElems c l → t.names.HasElems c l) ∧
    (∀ s m, after p options (Taint.plugin p taint) {} entry n = some (s, m) →
      ContextsBounded options.selector p s ∧
      ∀ k t m', after p options (Taint.plugin p taint) {} entry (n + k) = some (t, m') →
        ∀ c l, s.names.HasElems c l → t.names.HasElems c l) := by
  refine ⟨fun s m h => ?_, fun s m h => ?_⟩
  · exact after_bounded (none_keepsShallow _ p)
      (fun _ _ _ hrun => (after_saturated p options entry hrun).2) h
  · exact after_bounded (taint_keepsShallow _ p taint)
      (fun _ _ _ hrun => (after_saturated_taint p options taint entry hrun).2) h

/-- With one object as context the sample program calls its method under its first object, and
    with taint tracking later also under the tainted data that the call itself made. -/
theorem contexts_bounded_after_five :
    let options : PointsToOptions := { selector := .object 1 }
    let taint : TaintRules :=
      { sources := [(1, .object 1)], transfers := [(1, ⟨.result, .base, .object 1⟩)] }
    (∃ s m, after Plain.sample options .none () 0 5 = some (s, m) ∧
      s.names.contexts.table.items.toList = [[], [.object 0]] ∧
      ContextsBounded options.selector Plain.sample s) ∧
    (∃ s m t m', after Plain.sample options (Taint.plugin Plain.sample taint) {} 0 5 =
        some (s, m) ∧
      after Plain.sample options (Taint.plugin Plain.sample taint) {} 0 (5 + 7) = some (t, m') ∧
      t.names.contexts.table.items.toList = [[], [.object 0], [.object 2]] ∧
      ContextsBounded options.selector Plain.sample s ∧
      ∀ c l, s.names.HasElems c l → t.names.HasElems c l) := by
  intro options taint
  have hfive := contexts_bounded_in_every_state Plain.sample options taint 0 5
  have h₁ : ((after Plain.sample options .none () 0 5).map fun (s, _) =>
      s.names.contexts.table.items.toList) = some [[], [.object 0]] := by
    decide +kernel
  have h₂ : (after Plain.sample options (Taint.plugin Plain.sample taint) {} 0 5).isSome := by
    decide +kernel
  have h₃ : ((after Plain.sample options (Taint.plugin Plain.sample taint) {} 0 (5 + 7)).map
      fun (s, _) => s.names.contexts.table.items.toList)
        = some [[], [.object 0], [.object 2]] := by
    decide +kernel
  obtain ⟨⟨s, m⟩, hs, hcontexts⟩ := Option.map_eq_some_iff.mp h₁
  obtain ⟨⟨u, m'⟩, hu⟩ := Option.isSome_iff_exists.mp h₂
  obtain ⟨⟨t, m''⟩, ht, hmore⟩ := Option.map_eq_some_iff.mp h₃
  obtain ⟨hbounded, hkept⟩ := hfive.2 u m' hu
  exact ⟨⟨s, m, hs, hcontexts, (hfive.1 s m hs).1⟩,
    ⟨u, m', t, m'', hu, ht, hmore, hbounded, hkept 7 t m'' ht⟩⟩

end ContextSensitive

end ObjectFlow
