/-
  File:      ObjectFlow/Proofs/PointsTo/Growth.lean
  Subject:   WHAT THE ENGINE DOES WHILE IT TAKES UP ONE ITEM OF WORK: numbers are given, edges
             drawn and work queued, and nothing is taken back.

  * `Within R heap S s`: all that the state `s` knows, and all that is pending in it, lies in the
    solution `S`;
  * `Extends R s s'`: `s'` has all the edges and all the work of `s`, the same objects at every
    pointer, and over each new edge what its source points to is pending;
  * `Within.extend`: only new edges and new work have to be justified;
  * one lemma for each of `pointer`, `send`, `sendCall` and `link`, and `foldl_extends` for the
    loops over them.
-/
import ObjectFlow.Proofs.PointsTo.Reading

namespace ObjectFlow

namespace EngineState

variable {κ ν : Type}

/-- An object is on its way to a pointer. -/
def Pending (s : EngineState κ ν) (id : PointerId) (i : Nat) : Prop :=
  ∃ objects, .points id objects ∈ s.queue.toList ∧ i ∈ objects

/-- An object is at a pointer or on its way to it. -/
def Arrives (s : EngineState κ ν) (id : PointerId) (i : Nat) : Prop :=
  i ∈ s.pointsTo id ∨ s.Pending id i

/-- There is an edge from one pointer to another. -/
def Linked (s : EngineState κ ν) (a b : Pointer κ) : Prop :=
  ∃ id t, s.graph.pointer? id = some a ∧ s.graph.pointer? t = some b ∧ t ∈ s.graph.successors id

/-- An object is at a pointer or on its way to it, the pointer given by what it is. -/
def Reaches (s : EngineState κ ν) (a : Pointer κ) (i : Nat) : Prop :=
  ∃ id, s.graph.pointer? id = some a ∧ s.Arrives id i

/-- A call edge is known or pending. -/
def Called (s : EngineState κ ν) (site : Qualified κ Site) (callee : Qualified κ MethodId) :
    Prop :=
  (∃ e ∈ s.calls.edges, e.site = site ∧ e.callee = callee) ∨
    ∃ kind, .call ⟨kind, site, callee⟩ ∈ s.queue.toList

end EngineState

/-! ## 1. States within a solution -/

namespace Reading

variable {κ ν K O : Type}

/-- What the pointer with a number stands for. -/
def placeAt? (R : Reading κ ν K O) (s : EngineState κ ν) (id : PointerId) : Option (Place K O) :=
  (s.graph.pointer? id).bind (R.place? s.heap s.names)

/-- The solution has the object at the pointer. -/
def Justified (R : Reading κ ν K O) (S : Solution K O) (s : EngineState κ ν) (id : PointerId)
    (i : Nat) : Prop :=
  ∃ x o, R.placeAt? s id = some x ∧ R.object? s.heap s.names i = some o ∧ S.pointsTo x o

/-- The solution has the call edge. -/
def JustifiedCall (R : Reading κ ν K O) (S : Solution K O) (s : EngineState κ ν)
    (e : ContextCallEdge κ) : Prop :=
  ∃ a b, R.qualified? s.heap s.names e.site = some a ∧
    R.qualified? s.heap s.names e.callee = some b ∧ S.calls a b

/-- The solution is closed along the edge. -/
def JustifiedEdge (R : Reading κ ν K O) (S : Solution K O) (s : EngineState κ ν)
    (id t : PointerId) : Prop :=
  ∃ x y, R.placeAt? s id = some x ∧ R.placeAt? s t = some y ∧ S.Flows x y

/-- The solution has what an item of work brings. -/
def JustifiedItem (R : Reading κ ν K O) (S : Solution K O) (s : EngineState κ ν) :
    WorkItem (ContextCallEdge κ) → Prop
  | .points id objects => ∀ i ∈ objects, R.Justified S s id i
  | .call e => R.JustifiedCall S s e

end Reading

/-- **All that a state knows, and all that is pending in it, lies in a solution.** -/
structure Within {κ ν K O : Type} [DecidableEq κ] (R : Reading κ ν K O) (heap : HeapPolicy)
    (S : Solution K O) (s : EngineState κ ν) : Prop where
  valid : R.Valid s.heap s.names
  policy : s.heap.policy = heap
  graph : s.graph.WF
  points : ∀ id i, i ∈ s.pointsTo id → R.Justified S s id i
  edges : ∀ id t, t ∈ s.graph.successors id → R.JustifiedEdge S s id t
  queue : ∀ w ∈ s.queue.toList, R.JustifiedItem S s w
  entries : ∀ m ∈ s.calls.entries, s.calls.hasMethod m = true
  reachable : ∀ m, s.calls.hasMethod m = true →
    ∃ n, R.qualified? s.heap s.names m = some n ∧ S.reachable n
  calls : ∀ e ∈ s.calls.edges, R.JustifiedCall S s e

/-! ## 2. Extending a state -/

/-- **What may happen while one item of work is taken up.** -/
structure Extends {κ ν K O : Type} (R : Reading κ ν K O) (s s' : EngineState κ ν) : Prop where
  keeps : R.Keeps s.heap s.names s'.heap s'.names
  policy : s'.heap.policy = s.heap.policy
  pointers : s.graph.pointers.Keeps s'.graph.pointers
  sets : ∀ id, s'.pointsTo id = s.pointsTo id
  edges : ∀ id t, t ∈ s.graph.successors id → t ∈ s'.graph.successors id
  /-- Over a new edge, what its source points to is pending. -/
  flow : ∀ id t, t ∈ s'.graph.successors id →
    t ∈ s.graph.successors id ∨ ∀ i ∈ s.pointsTo id, s'.Pending t i
  queue : ∀ w ∈ s.queue.toList, w ∈ s'.queue.toList
  calls : s'.calls = s.calls

section Extends

variable {κ ν K O : Type} {R : Reading κ ν K O} {s s' s'' : EngineState κ ν}

theorem Extends.refl (R : Reading κ ν K O) (s : EngineState κ ν) : Extends R s s :=
  ⟨.refl R _ _, rfl, Interner.keeps_refl _, fun _ => rfl, fun _ _ h => h, fun _ _ h => .inl h,
    fun _ h => h, rfl⟩

theorem Extends.pending (h : Extends R s s') {id : PointerId} {i : Nat} (hp : s.Pending id i) :
    s'.Pending id i := by
  obtain ⟨objects, hq, hi⟩ := hp
  exact ⟨objects, h.queue _ hq, hi⟩

theorem Extends.arrives (h : Extends R s s') {id : PointerId} {i : Nat} (ha : s.Arrives id i) :
    s'.Arrives id i := by
  rcases ha with hi | hp
  · exact .inl ((h.sets id).symm ▸ hi)
  · exact .inr (h.pending hp)

theorem Extends.trans (a : Extends R s s') (b : Extends R s' s'') : Extends R s s'' where
  keeps := a.keeps.trans b.keeps
  policy := b.policy.trans a.policy
  pointers := a.pointers.trans b.pointers
  sets id := (b.sets id).trans (a.sets id)
  edges id t h := b.edges id t (a.edges id t h)
  flow id t h := by
    rcases b.flow id t h with h' | h'
    · rcases a.flow id t h' with h'' | h''
      · exact .inl h''
      · exact .inr fun i hi => b.pending (h'' i hi)
    · exact .inr fun i hi => h' i ((a.sets id).symm ▸ hi)
  queue w h := b.queue w (a.queue w h)
  calls := b.calls.trans a.calls

theorem Extends.placeAt (h : Extends R s s') {id : PointerId} {x : Place K O}
    (e : R.placeAt? s id = some x) : R.placeAt? s' id = some x := by
  obtain ⟨a, ha, hx⟩ := Option.bind_eq_some_iff.mp e
  exact Option.bind_eq_some_iff.mpr ⟨a, h.pointers id a ha, h.keeps.place hx⟩

variable {S : Solution K O}

theorem Extends.justified (h : Extends R s s') {id : PointerId} {i : Nat}
    (hj : R.Justified S s id i) : R.Justified S s' id i := by
  obtain ⟨x, o, hx, ho, hS⟩ := hj
  exact ⟨x, o, h.placeAt hx, h.keeps.object ho, hS⟩

theorem Extends.justifiedEdge (h : Extends R s s') {id t : PointerId}
    (hj : R.JustifiedEdge S s id t) : R.JustifiedEdge S s' id t := by
  obtain ⟨x, y, hx, hy, hS⟩ := hj
  exact ⟨x, y, h.placeAt hx, h.placeAt hy, hS⟩

theorem Extends.justifiedCall (h : Extends R s s') {e : ContextCallEdge κ}
    (hj : R.JustifiedCall S s e) : R.JustifiedCall S s' e := by
  obtain ⟨a, b, ha, hb, hS⟩ := hj
  exact ⟨a, b, h.keeps.qualified ha, h.keeps.qualified hb, hS⟩

theorem Extends.justifiedItem (h : Extends R s s') {w : WorkItem (ContextCallEdge κ)}
    (hj : R.JustifiedItem S s w) : R.JustifiedItem S s' w := by
  cases w with
  | points id objects => exact fun i hi => h.justified (hj i hi)
  | call e => exact h.justifiedCall hj

/-- **Only what is new has to be justified.** -/
theorem Within.extend [DecidableEq κ] {heap : HeapPolicy} (h : Within R heap S s)
    (he : Extends R s s') (hv : R.Valid s'.heap s'.names) (hg : s'.graph.WF)
    (hedges : ∀ id t, t ∈ s'.graph.successors id →
      t ∈ s.graph.successors id ∨ R.JustifiedEdge S s' id t)
    (hqueue : ∀ w ∈ s'.queue.toList, w ∈ s.queue.toList ∨ R.JustifiedItem S s' w) :
    Within R heap S s' where
  valid := hv
  policy := he.policy.trans h.policy
  graph := hg
  points id i hi := he.justified (h.points id i ((he.sets id) ▸ hi))
  edges id t ht := by
    rcases hedges id t ht with ho | hn
    · exact he.justifiedEdge (h.edges id t ho)
    · exact hn
  queue w hw := by
    rcases hqueue w hw with ho | hn
    · exact he.justifiedItem (h.queue w ho)
    · exact hn
  entries m hm := by
    rw [he.calls] at hm ⊢
    exact h.entries m hm
  reachable m hm := by
    rw [he.calls] at hm
    obtain ⟨n, hn, hS⟩ := h.reachable m hm
    exact ⟨n, he.keeps.qualified hn, hS⟩
  calls e hc := by
    rw [he.calls] at hc
    exact he.justifiedCall (h.calls e hc)

end Extends

/-! ## 3. Numbers, work and edges -/

namespace EngineState

variable {κ ν K O : Type} [DecidableEq κ] {R : Reading κ ν K O} {heap : HeapPolicy}
  {S : Solution K O} {s : EngineState κ ν}

theorem pointer_extends (h : Within R heap S s) (a : Pointer κ) :
    (s.pointer a).2.graph.pointer? (s.pointer a).1 = some a ∧
      Within R heap S (s.pointer a).2 ∧ Extends R s (s.pointer a).2 := by
  obtain ⟨hget, hkeeps, hsets, hsucc, hwf⟩ := PointerGraph.intern_spec s.graph a
  have he : Extends R s (s.pointer a).2 :=
    { keeps := .refl R _ _
      policy := rfl
      pointers := hkeeps
      sets := hsets
      edges := fun id t ht => (hsucc id).symm ▸ ht
      flow := fun id t ht => .inl ((hsucc id) ▸ ht)
      queue := fun _ hw => hw
      calls := rfl }
  refine ⟨hget, h.extend he h.valid (hwf h.graph) (fun id t ht => ?_) (fun w hw => .inl hw), he⟩
  exact .inl ((hsucc id) ▸ ht)

/-- One more item of work, once it is justified. -/
theorem queued_extends (h : Within R heap S s) {w : WorkItem (ContextCallEdge κ)}
    (hj : R.JustifiedItem S s w) :
    let queued : EngineState κ ν := { s with queue := s.queue.push w }
    Within R heap S queued ∧ Extends R s queued ∧ w ∈ queued.queue.toList := by
  intro queued
  have hlist : queued.queue.toList = s.queue.toList ++ [w] := WorkQueue.toList_push _ _
  have he : Extends R s queued :=
    { Extends.refl R s with
      flow := fun _ _ ht => .inl ht
      queue := fun v hv => hlist ▸ List.mem_append_left _ hv }
  refine ⟨h.extend he h.valid h.graph (fun _ _ ht => .inl ht) (fun v hv => ?_), he,
    hlist ▸ List.mem_append_right _ (List.mem_singleton_self w)⟩
  rw [hlist, List.mem_append, List.mem_singleton] at hv
  rcases hv with ho | rfl
  · exact .inl ho
  · exact .inr (he.justifiedItem hj)

theorem send_extends (h : Within R heap S s) (id : PointerId) (objects : IdSet)
    (hj : ∀ i ∈ objects, R.Justified S s id i) :
    Within R heap S (s.send id objects) ∧ Extends R s (s.send id objects) ∧
      ∀ i ∈ objects, (s.send id objects).Pending id i := by
  obtain ⟨hw, he, hmem⟩ := queued_extends h (w := .points id objects) hj
  exact ⟨hw, he, fun i hi => ⟨objects, hmem, hi⟩⟩

theorem sendCall_extends (h : Within R heap S s) {e : ContextCallEdge κ}
    (hj : R.JustifiedCall S s e) :
    Within R heap S (s.sendCall e) ∧ Extends R s (s.sendCall e) ∧
      (s.sendCall e).Called e.site e.callee := by
  obtain ⟨hw, he, hmem⟩ := queued_extends h (w := .call e) hj
  exact ⟨hw, he, .inr ⟨e.kind, hmem⟩⟩

/-- The heap and the naming may grow as long as what was read before reads the same. -/
theorem renamed_extends (h : Within R heap S s) {heap' : Heap} {names : ν}
    (hk : R.Keeps s.heap s.names heap' names) (hv : R.Valid heap' names)
    (hp : heap'.policy = s.heap.policy) :
    Within R heap S { s with heap := heap', names := names } ∧
      Extends R s { s with heap := heap', names := names } := by
  have he : Extends R s { s with heap := heap', names := names } :=
    { Extends.refl R s with
      keeps := hk
      policy := hp
      flow := fun _ _ ht => .inl ht }
  exact ⟨h.extend he hv h.graph (fun _ _ ht => .inl ht) (fun _ hw => .inl hw), he⟩

/-- A new edge between numbered pointers, over which what its source points to is sent. -/
theorem addEdge_extends (h : Within R heap S s) {id t : PointerId}
    (hj : R.JustifiedEdge S s id t) :
    let linked : EngineState κ ν := { s with graph := s.graph.addEdge id t }
    let sent := if (s.pointsTo id).isEmpty then linked else linked.send t (s.pointsTo id)
    Within R heap S sent ∧ Extends R s sent ∧ t ∈ sent.graph.successors id := by
  intro linked sent
  obtain ⟨x, y, hx, hy, hS⟩ := hj
  obtain ⟨a, ha, -⟩ := Option.bind_eq_some_iff.mp hx
  have hmem := PointerGraph.mem_successors_addEdge h.graph
    (PointerGraph.lt_size_of_pointer? ha) t
  have hgraph : sent.graph = s.graph.addEdge id t := by
    simp only [sent]
    split <;> rfl
  have hheap : sent.heap = s.heap ∧ sent.names = s.names ∧ sent.calls = s.calls := by
    simp only [sent]
    split <;> exact ⟨rfl, rfl, rfl⟩
  have hqueue : ∀ w, w ∈ sent.queue.toList ↔
      w ∈ s.queue.toList ∨ (w = .points t (s.pointsTo id) ∧ ¬ (s.pointsTo id).isEmpty = true) := by
    intro w
    simp only [sent]
    split
    · rename_i hempty
      simp [hempty, linked]
    · rename_i hempty
      show w ∈ (s.queue.push _).toList ↔ _
      rw [WorkQueue.toList_push, List.mem_append, List.mem_singleton]
      simp [hempty]
  have he : Extends R s sent :=
    { keeps := by rw [hheap.1, hheap.2.1]; exact .refl R _ _
      policy := by rw [hheap.1]
      pointers := by rw [hgraph, PointerGraph.pointers_addEdge]; exact Interner.keeps_refl _
      sets := fun id' => by
        unfold EngineState.pointsTo
        rw [hgraph, PointerGraph.pointsTo_addEdge]
      edges := fun id' t' ht' => by rw [hgraph]; exact (hmem id' t').mpr (.inl ht')
      flow := fun id' t' ht' => by
        rw [hgraph] at ht'
        rcases (hmem id' t').mp ht' with hold | ⟨rfl, rfl⟩
        · exact .inl hold
        · refine .inr fun i hi => ⟨s.pointsTo id', (hqueue _).mpr (.inr ⟨rfl, fun hempty => ?_⟩), hi⟩
          rw [IdSet.isEmpty_iff.mp hempty] at hi
          exact IdSet.not_mem_empty hi
      queue := fun w hw => (hqueue w).mpr (.inl hw)
      calls := hheap.2.2 }
  refine ⟨h.extend he ?_ ?_ (fun id' t' ht' => ?_) (fun w hw => ?_), he, ?_⟩
  · rw [hheap.1, hheap.2.1]
    exact h.valid
  · rw [hgraph]
    exact h.graph.addEdge id t
  · rw [hgraph] at ht'
    rcases (hmem id' t').mp ht' with hold | ⟨rfl, rfl⟩
    · exact .inl hold
    · exact .inr (he.justifiedEdge ⟨x, y, hx, hy, hS⟩)
  · rcases (hqueue w).mp hw with hold | ⟨rfl, -⟩
    · exact .inl hold
    · refine .inr fun i hi => he.justified ?_
      obtain ⟨x', o, hx', ho, hpts⟩ := h.points id i hi
      rw [hx, Option.some.injEq] at hx'
      exact ⟨y, o, hy, ho, hS o (hx' ▸ hpts)⟩
  · rw [hgraph]
    exact (hmem id t).mpr (.inr ⟨rfl, rfl⟩)

/-- **Linking two pointers draws an edge between them.** -/
theorem link_extends (h : Within R heap S s) {a b : Pointer κ} {x y : Place K O}
    (ha : R.place? s.heap s.names a = some x) (hb : R.place? s.heap s.names b = some y)
    (hS : S.Flows x y) :
    Within R heap S (s.link a b) ∧ Extends R s (s.link a b) ∧ (s.link a b).Linked a b := by
  obtain ⟨hida, hw₁, he₁⟩ := pointer_extends h a
  obtain ⟨hidb, hw₂, he₂⟩ := pointer_extends hw₁ b
  have he := he₁.trans he₂
  have hida' := he₂.pointers _ _ hida
  have hj : R.JustifiedEdge S ((s.pointer a).2.pointer b).2 (s.pointer a).1
      ((s.pointer a).2.pointer b).1 :=
    ⟨x, y, Option.bind_eq_some_iff.mpr ⟨a, hida', he.keeps.place ha⟩,
      Option.bind_eq_some_iff.mpr ⟨b, hidb, he.keeps.place hb⟩, hS⟩
  unfold link
  simp only
  split
  · rename_i hedge
    refine ⟨hw₂, he, _, _, hida', hidb, ?_⟩
    simpa [PointerGraph.hasEdge] using hedge
  · obtain ⟨hw₃, he₃, hmem⟩ := addEdge_extends hw₂ hj
    simp only [pointsTo, PointerGraph.pointsTo_addEdge] at hw₃ he₃ hmem ⊢
    exact ⟨hw₃, he.trans he₃, _, _, he₃.pointers _ _ hida', he₃.pointers _ _ hidb, hmem⟩

/-! ## 4. Loops -/

/-- **A loop extends the state if each of its steps does**, and what each step establishes holds
    at its end, as long as extending the state keeps it. -/
theorem foldl_extends {α : Type} {f : EngineState κ ν → α → EngineState κ ν}
    {Q : α → EngineState κ ν → Prop} (hQ : ∀ {a u u'}, Extends R u u' → Q a u → Q a u')
    (l : List α) (h : Within R heap S s)
    (hf : ∀ a ∈ l, ∀ u, Within R heap S u → Extends R s u →
      Within R heap S (f u a) ∧ Extends R u (f u a) ∧ Q a (f u a)) :
    Within R heap S (l.foldl f s) ∧ Extends R s (l.foldl f s) ∧ ∀ a ∈ l, Q a (l.foldl f s) := by
  induction l generalizing s with
  | nil => exact ⟨h, .refl R s, fun a ha => absurd ha List.not_mem_nil⟩
  | cons a l ih =>
    obtain ⟨hw, he, hq⟩ := hf a List.mem_cons_self s h (.refl R s)
    obtain ⟨hw', he', hq'⟩ := ih hw fun b hb u hu hsu =>
      hf b (List.mem_cons_of_mem a hb) u hu (he.trans hsu)
    refine ⟨hw', he.trans he', fun b hb => ?_⟩
    rcases List.mem_cons.mp hb with rfl | hb
    · exact hQ he' hq
    · exact hq' b hb

end EngineState

/-! ## 5. What extending a state keeps -/

section Keeps

variable {κ ν K O : Type} {R : Reading κ ν K O} {s s' : EngineState κ ν}

theorem Extends.linked (h : Extends R s s') {a b : Pointer κ} (hl : s.Linked a b) :
    s'.Linked a b := by
  obtain ⟨id, t, hid, ht, hmem⟩ := hl
  exact ⟨id, t, h.pointers _ _ hid, h.pointers _ _ ht, h.edges id t hmem⟩

theorem Extends.reaches (h : Extends R s s') {a : Pointer κ} {i : Nat} (hr : s.Reaches a i) :
    s'.Reaches a i := by
  obtain ⟨id, hid, ha⟩ := hr
  exact ⟨id, h.pointers _ _ hid, h.arrives ha⟩

theorem Extends.called (h : Extends R s s') {site : Qualified κ Site}
    {callee : Qualified κ MethodId} (hc : s.Called site callee) : s'.Called site callee := by
  rcases hc with hk | ⟨kind, hp⟩
  · exact .inl (h.calls.symm ▸ hk)
  · exact .inr ⟨kind, h.queue _ hp⟩

end Keeps

end ObjectFlow
