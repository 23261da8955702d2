/-
  File:      ObjectFlow/Proofs/PointsTo/Contextual.lean
  Subject:   THE ANALYSIS WITH CONTEXTS COMPUTES THE LEAST SOLUTION OF ITS RULES and never merges
             contexts.

  Contexts are read as sequences of what their elements stand for, objects as what they stand for
  under their heap context:

  * `Selector.calleeMarks`, `Selector.heapMarks`: how a selector chooses contexts, said of such
    sequences;
  * `ContextResult.solution`: the facts a result states, with total readings;
  * `ContextSensitive.analysis_isLeast`: the least solution, and each set under each context
    number exactly what is derivable under the context it stands for.
-/
import Mathlib.Data.List.DropRight
import Mathlib.Data.List.Forall2
import ObjectFlow.Proofs.PointsTo.Least

namespace ObjectFlow

/-! ## 1. Contexts by what they are -/

/-- What an element of a context stands for. -/
inductive ContextMark where
  | site (s : Site)
  | object (o : HeapObject)
  | type (c : ClassId)
  deriving DecidableEq

/-- The class whose method allocated an object, or its own class if it is merged. -/
def HeapObject.allocationClass? (p : Program) (object : HeapObject) : Option ClassId :=
  match object.kind with
  | .alloc site => some (p.methodAt site.method).owner
  | .taint source => some (p.methodAt source.method).owner
  | .merged => object.ty.class?

theorem length_rtake_le {α : Type} (l : List α) (n : Nat) : (l.rtake n).length ≤ n := by
  rw [List.rtake, List.length_drop]
  omega

/-- The elements of a context in the table. -/
theorem Contexts.elems_eq {cs : Contexts} {c : ContextId} {l : List ContextElem}
    (h : cs.table.get? c = some l) : cs.elems c = l := by
  unfold Contexts.elems
  rw [h]
  rfl

namespace Selector

/-- The length contexts are cut to. -/
def depth : Selector → Nat
  | insensitive => 0
  | callSite k | object k | type k => k

/-- The heap context of an object allocated under a context: one element shallower. -/
def heapMarks : Selector → List ContextMark → List ContextMark
  | insensitive, _ => []
  | callSite k, c | object k, c | type k, c => c.rtake (k - 1)

/-- The context of a method called at a site, on a receiver if there is one. -/
def calleeMarks (s : Selector) (p : Program) (site : Qualified (List ContextMark) Site)
    (receiver : Option (Qualified (List ContextMark) HeapObject)) : List ContextMark :=
  match s, receiver with
  | insensitive, _ => []
  | callSite k, _ => (site.context ++ [ContextMark.site site.item]).rtake k
  | object k, some r => (r.context ++ [ContextMark.object r.item]).rtake k
  | object _, none => site.context
  | type k, some r =>
    match r.item.allocationClass? p with
    | some c => (r.context ++ [ContextMark.type c]).rtake k
    | none => site.context
  | type _, none => site.context

/-- Contexts are chosen by the selector, and objects are what they stand for under their heap
    context. -/
def abstraction (s : Selector) :
    Abstraction (List ContextMark) (Qualified (List ContextMark) HeapObject) where
  entry := []
  allocated c object := ⟨s.heapMarks c, object⟩
  heapObject o := o.item
  callee p site receiver := s.calleeMarks p site receiver

end Selector

/-! ## 2. What results say -/

namespace ContextResult

variable (r : ContextResult)

def markOf : ContextElem → ContextMark
  | .site s => .site s
  | .object o => .object (r.heap.objectAt o)
  | .type c => .type c

/-- The sequence a context number stands for. -/
def contextOf (c : ContextId) : List ContextMark := (r.names.contexts.elems c).map r.markOf

/-- What an object number stands for, under its heap context. -/
def objectOf (i : Nat) : Qualified (List ContextMark) HeapObject :=
  ⟨r.contextOf (r.names.objectAt i).context, r.heap.objectAt (r.names.objectAt i).item⟩

/-- The facts a result states, contexts and objects said by what they stand for. -/
def solution : Solution (List ContextMark) (Qualified (List ContextMark) HeapObject) where
  reachable n := ∃ m, r.calls.hasMethod m = true ∧ ⟨r.contextOf m.context, m.item⟩ = n
  calls a b := ∃ e ∈ r.calls.edges, ⟨r.contextOf e.site.context, e.site.item⟩ = a ∧
    ⟨r.contextOf e.callee.context, e.callee.item⟩ = b
  pointsTo x o := ∃ a : Pointer ContextId, a.read r.contextOf r.objectOf = x ∧
    ∃ i ∈ r.pointsTo a, r.objectOf i = o

end ContextResult

/-! ## 3. The numbering of a run -/

/-- What an element of a context stands for, if its object is known. -/
def ContextElem.mark? (h : Heap) : ContextElem → Option ContextMark
  | .site s => some (.site s)
  | .object o => (h.objects.get? o).map .object
  | .type c => some (.type c)

/-- What a sequence of elements stands for, if all its objects are known. -/
def marks? (h : Heap) : List ContextElem → Option (List ContextMark)
  | [] => some []
  | e :: elems => (e.mark? h).bind fun m => (marks? h elems).map (m :: ·)

theorem marks?_eq_some {h : Heap} {elems : List ContextElem} {marks : List ContextMark} :
    marks? h elems = some marks ↔
      List.Forall₂ (fun e m => e.mark? h = some m) elems marks := by
  induction elems generalizing marks with
  | nil =>
    rw [List.forall₂_nil_left_iff]
    unfold marks?
    exact ⟨fun e => (Option.some.inj e).symm, fun e => e ▸ rfl⟩
  | cons e elems ih =>
    rw [List.forall₂_cons_left_iff]
    unfold marks?
    rw [Option.bind_eq_some_iff]
    constructor
    · intro ⟨m, hm, hrest⟩
      obtain ⟨rest, hr, rfl⟩ := Option.map_eq_some_iff.mp hrest
      exact ⟨m, rest, hm, ih.mp hr, rfl⟩
    · intro ⟨m, rest, hm, hr, hmarks⟩
      exact ⟨m, hm, Option.map_eq_some_iff.mpr ⟨rest, ih.mpr hr, hmarks.symm⟩⟩

theorem mark?_inj {h : Heap} (hd : h.objects.Distinct) {e e' : ContextElem} {m : ContextMark}
    (he : e.mark? h = some m) (he' : e'.mark? h = some m) : e = e' := by
  cases e <;> cases e' <;>
    simp only [ContextElem.mark?, Option.map_eq_some_iff, Option.some.injEq] at he he'
  case site.site s s' =>
    subst he
    cases he'
    rfl
  case object.object i i' =>
    obtain ⟨o, ho, rfl⟩ := he
    obtain ⟨o', ho', heq⟩ := he'
    cases heq
    rw [hd i i' o ho ho']
  case type.type c c' =>
    subst he
    cases he'
    rfl
  all_goals grind

theorem marks?_inj {h : Heap} (hd : h.objects.Distinct) {l l' : List ContextElem}
    {marks : List ContextMark} (hl : marks? h l = some marks) (hl' : marks? h l' = some marks) :
    l = l' := by
  have hu : Relator.LeftUnique fun e m => ContextElem.mark? h e = some m :=
    fun _ _ _ he he' => mark?_inj hd he he'
  exact List.left_unique_forall₂' hu (marks?_eq_some.mp hl) (marks?_eq_some.mp hl')

/-- What stood for something still does when the heap has grown. -/
theorem marks?_keeps {h h' : Heap} (hk : h.objects.Keeps h'.objects) {l : List ContextElem}
    {marks : List ContextMark} (hl : marks? h l = some marks) : marks? h' l = some marks := by
  refine marks?_eq_some.mpr ((marks?_eq_some.mp hl).imp fun e m hm => ?_)
  cases e with
  | site s => exact hm
  | object i =>
    obtain ⟨o, ho, rfl⟩ := Option.map_eq_some_iff.mp hm
    exact Option.map_eq_some_iff.mpr ⟨o, hk i o ho, rfl⟩
  | type c => exact hm

theorem marks?_append {h : Heap} {l : List ContextElem} {marks : List ContextMark}
    {e : ContextElem} {m : ContextMark} (hl : marks? h l = some marks) (he : e.mark? h = some m) :
    marks? h (l ++ [e]) = some (marks ++ [m]) :=
  marks?_eq_some.mpr (List.rel_append (marks?_eq_some.mp hl) (.cons he .nil))

theorem marks?_newest {h : Heap} {l : List ContextElem} {marks : List ContextMark}
    (hl : marks? h l = some marks) (limit : Nat) :
    marks? h (Contexts.newest limit l) = some (marks.rtake limit) := by
  have hf := marks?_eq_some.mp hl
  unfold Contexts.newest List.rtake
  rw [hf.length_eq]
  exact marks?_eq_some.mpr (List.forall₂_drop _ hf)

namespace ContextSensitive

/-- Contexts and objects are read off their tables and the heap. -/
structure Named (h : Heap) (ns : ContextNames) : Prop where
  heap : h.objects.Distinct
  contexts : ns.contexts.table.Distinct
  objects : ns.objects.Distinct
  empty : ns.contexts.table.get? Contexts.empty = some []
  readable : ∀ c l, ns.contexts.table.get? c = some l → ∃ marks, marks? h l = some marks
  known : ∀ i q, ns.objects.get? i = some q →
    (∃ l, ns.contexts.table.get? q.context = some l) ∧ ∃ o, h.objects.get? q.item = some o

/-- The sequence a context number stands for, if it is in use. -/
def context? (h : Heap) (ns : ContextNames) (c : ContextId) : Option (List ContextMark) :=
  (ns.contexts.table.get? c).bind (marks? h)

/-- What an object number stands for, if it is in use. -/
def object? (h : Heap) (ns : ContextNames) (i : Nat) :
    Option (Qualified (List ContextMark) HeapObject) :=
  (ns.objects.get? i).bind fun q =>
    (context? h ns q.context).bind fun c => (h.objects.get? q.item).map (⟨c, ·⟩)

def reading : Reading ContextId ContextNames (List ContextMark)
    (Qualified (List ContextMark) HeapObject) where
  Valid := Named
  context? := context?
  object? := object?

theorem object?_eq_some {h : Heap} {ns : ContextNames} {i : Nat}
    {o : Qualified (List ContextMark) HeapObject} :
    object? h ns i = some o ↔ ∃ q, ns.objects.get? i = some q ∧
      context? h ns q.context = some o.context ∧ h.objects.get? q.item = some o.item := by
  unfold object?
  rw [Option.bind_eq_some_iff]
  constructor
  · intro ⟨q, hq, hrest⟩
    obtain ⟨c, hc, hrest⟩ := Option.bind_eq_some_iff.mp hrest
    obtain ⟨item, hitem, rfl⟩ := Option.map_eq_some_iff.mp hrest
    exact ⟨q, hq, hc, hitem⟩
  · intro ⟨q, hq, hc, hitem⟩
    exact ⟨q, hq, Option.bind_eq_some_iff.mpr
      ⟨o.context, hc, Option.map_eq_some_iff.mpr ⟨o.item, hitem, rfl⟩⟩⟩

theorem reading_keeps {h h' : Heap} {ns ns' : ContextNames} (hh : h.objects.Keeps h'.objects)
    (hc : ns.contexts.table.Keeps ns'.contexts.table) (ho : ns.objects.Keeps ns'.objects) :
    reading.Keeps h ns h' ns' := by
  have hcontext : ∀ {c k}, context? h ns c = some k → context? h' ns' c = some k := by
    intro c k e
    obtain ⟨l, hl, hm⟩ := Option.bind_eq_some_iff.mp e
    exact Option.bind_eq_some_iff.mpr ⟨l, hc c l hl, marks?_keeps hh hm⟩
  refine ⟨hcontext, fun e => ?_⟩
  obtain ⟨q, hq, hk, hitem⟩ := object?_eq_some.mp e
  exact object?_eq_some.mpr ⟨q, ho _ q hq, hcontext hk, hh _ _ hitem⟩

section Named

variable {h : Heap} {ns : ContextNames}

/-- Different contexts in use stand for different sequences. -/
theorem Named.context_inj (hn : Named h ns) {c c' : ContextId} {marks : List ContextMark}
    (hc : context? h ns c = some marks) (hc' : context? h ns c' = some marks) : c = c' := by
  obtain ⟨l, hl, hm⟩ := Option.bind_eq_some_iff.mp hc
  obtain ⟨l', hl', hm'⟩ := Option.bind_eq_some_iff.mp hc'
  have hsame := marks?_inj hn.heap hm hm'
  subst hsame
  exact hn.contexts _ _ l hl hl'

/-- Different objects in use stand for different objects. -/
theorem Named.object_inj (hn : Named h ns) {i i' : Nat}
    {o : Qualified (List ContextMark) HeapObject} (hi : object? h ns i = some o)
    (hi' : object? h ns i' = some o) : i = i' := by
  obtain ⟨⟨c, j⟩, hq, hc, hitem⟩ := object?_eq_some.mp hi
  obtain ⟨⟨c', j'⟩, hq', hc', hitem'⟩ := object?_eq_some.mp hi'
  have hsame := hn.context_inj hc hc'
  have hsame' := hn.heap _ _ _ hitem hitem'
  simp only at hsame hsame'
  subst hsame hsame'
  exact hn.objects _ _ _ hq hq'

/-- A new heap object leaves contexts and objects as they are. -/
theorem Named.internHeap (hn : Named h ns) (object : HeapObject) :
    Named (h.intern object).2 ns ∧ reading.Keeps h ns (h.intern object).2 ns := by
  obtain ⟨-, hkeeps, hdistinct⟩ := Interner.intern_spec h.objects object
  refine ⟨{ hn with
    heap := hdistinct hn.heap
    readable := fun c l hl => ?_
    known := fun i q hq => ?_ }, reading_keeps hkeeps (Interner.keeps_refl _) (Interner.keeps_refl _)⟩
  · obtain ⟨marks, hm⟩ := hn.readable c l hl
    exact ⟨marks, marks?_keeps hkeeps hm⟩
  · obtain ⟨hc, o, ho⟩ := hn.known i q hq
    exact ⟨hc, o, hkeeps _ o ho⟩

/-- **Interning a sequence of elements gives the context it stands for.** -/
theorem Named.internContext (hn : Named h ns) {l : List ContextElem} {marks : List ContextMark}
    (hl : marks? h l = some marks) :
    let named : ContextNames := { ns with contexts := (ns.contexts.intern l).2 }
    Named h named ∧ reading.Keeps h ns h named ∧
      context? h named (ns.contexts.intern l).1 = some marks := by
  intro named
  obtain ⟨hget, hkeeps, hdistinct⟩ := Interner.intern_spec ns.contexts.table l
  refine ⟨{ hn with
    contexts := hdistinct hn.contexts
    empty := hkeeps _ _ hn.empty
    readable := fun c l' hl' => ?_
    known := fun i q hq => ?_ }, reading_keeps (Interner.keeps_refl _) hkeeps (Interner.keeps_refl _),
    Option.bind_eq_some_iff.mpr ⟨l, hget, hl⟩⟩
  · rcases Interner.get?_intern hl' with hold | rfl
    · exact hn.readable c l' hold
    · exact ⟨marks, hl⟩
  · obtain ⟨⟨l', hl'⟩, ho⟩ := hn.known i q hq
    exact ⟨⟨l', hkeeps _ l' hl'⟩, ho⟩

/-- **Interning an object under a heap context gives the object it stands for.** -/
theorem Named.internObject (hn : Named h ns) {q : Qualified ContextId ObjectId}
    {o : Qualified (List ContextMark) HeapObject} (hc : context? h ns q.context = some o.context)
    (ho : h.objects.get? q.item = some o.item) :
    Named h (ns.intern q).2 ∧ reading.Keeps h ns h (ns.intern q).2 ∧
      object? h (ns.intern q).2 (ns.intern q).1 = some o := by
  obtain ⟨hget, hkeeps, hdistinct⟩ := Interner.intern_spec ns.objects q
  have hk : reading.Keeps h ns h (ns.intern q).2 :=
    reading_keeps (Interner.keeps_refl _) (Interner.keeps_refl _) hkeeps
  refine ⟨{ hn with objects := hdistinct hn.objects, known := fun i q' hq' => ?_ }, hk,
    object?_eq_some.mpr ⟨q, hget, hk.context hc, ho⟩⟩
  rcases Interner.get?_intern hq' with hold | rfl
  · exact hn.known i q' hold
  · obtain ⟨l, hl, -⟩ := Option.bind_eq_some_iff.mp hc
    exact ⟨⟨l, hl⟩, _, ho⟩

/-- A context with one more element, cut to a depth. -/
theorem Named.append (hn : Named h ns) {c : ContextId} {marks : List ContextMark}
    {e : ContextElem} {m : ContextMark} (hc : context? h ns c = some marks)
    (he : e.mark? h = some m) (limit : Nat) :
    let named : ContextNames := { ns with contexts := (ns.contexts.append c e limit).2 }
    Named h named ∧ reading.Keeps h ns h named ∧
      context? h named (ns.contexts.append c e limit).1 = some ((marks ++ [m]).rtake limit) := by
  obtain ⟨l, hl, hm⟩ := Option.bind_eq_some_iff.mp hc
  unfold Contexts.append
  rw [Contexts.elems_eq hl]
  exact hn.internContext (marks?_newest (marks?_append hm he) limit)

/-- A context cut to a depth. -/
theorem Named.suffix (hn : Named h ns) {c : ContextId} {marks : List ContextMark}
    (hc : context? h ns c = some marks) (limit : Nat) :
    let named : ContextNames := { ns with contexts := (ns.contexts.suffix c limit).2 }
    Named h named ∧ reading.Keeps h ns h named ∧
      context? h named (ns.contexts.suffix c limit).1 = some (marks.rtake limit) := by
  obtain ⟨l, hl, hm⟩ := Option.bind_eq_some_iff.mp hc
  unfold Contexts.suffix
  rw [Contexts.elems_eq hl]
  exact hn.internContext (marks?_newest hm limit)

theorem Named.context?_empty (hn : Named h ns) : context? h ns Contexts.empty = some [] :=
  Option.bind_eq_some_iff.mpr ⟨[], hn.empty, rfl⟩

theorem Named.heapContext (hn : Named h ns) (selector : Selector) {c : ContextId}
    {marks : List ContextMark} (hc : context? h ns c = some marks) :
    let named : ContextNames := { ns with contexts := (selector.heapContext ns.contexts c).2 }
    Named h named ∧ reading.Keeps h ns h named ∧
      context? h named (selector.heapContext ns.contexts c).1 = some (selector.heapMarks marks) := by
  cases selector with
  | insensitive => exact ⟨hn, .refl reading h ns, hn.context?_empty⟩
  | callSite k => exact hn.suffix hc (k - 1)
  | object k => exact hn.suffix hc (k - 1)
  | type k => exact hn.suffix hc (k - 1)

theorem names_objectAt_of_get? {i : Nat} {q : Qualified ContextId ObjectId}
    (hi : ns.objects.get? i = some q) : ns.objectAt i = q := by
  unfold ContextNames.objectAt
  rw [hi]
  rfl

theorem allocationClass?_eq {i : Nat} {o : HeapObject} (hi : h.objects.get? i = some o)
    (p : Program) : Selector.allocationClass? p h i = o.allocationClass? p := by
  show (h.objectAt i).allocationClass? p = _
  rw [Heap.objectAt_of_get? hi]

/-- **The context of a called method is the one the selector chooses.** -/
theorem Named.calleeContext (hn : Named h ns) (selector : Selector) (p : Program)
    {site : Qualified ContextId Site} {marks : List ContextMark}
    (hc : context? h ns site.context = some marks) (receiver : Option Nat)
    (o? : Option (Qualified (List ContextMark) HeapObject))
    (hr : receiver.map (object? h ns) = o?.map some) :
    let chosen := selector.calleeContext p h ns.contexts site (receiver.map ns.objectAt)
    let named : ContextNames := { ns with contexts := chosen.2 }
    Named h named ∧ reading.Keeps h ns h named ∧
      context? h named chosen.1 = some (selector.calleeMarks p ⟨marks, site.item⟩ o?) := by
  have hstay : Named h ns ∧ reading.Keeps h ns h ns ∧ context? h ns site.context = some marks :=
    ⟨hn, .refl reading h ns, hc⟩
  cases receiver with
  | none =>
    cases o? with
    | some o => cases hr
    | none =>
      cases selector with
      | insensitive => exact ⟨hn, .refl reading h ns, hn.context?_empty⟩
      | callSite k => exact hn.append hc rfl k
      | object k => exact hstay
      | type k => exact hstay
  | some i =>
    cases o? with
    | none => cases hr
    | some o =>
      obtain ⟨q, hq, hqc, hitem⟩ := object?_eq_some.mp (Option.some.inj hr)
      have hat := names_objectAt_of_get? hq
      cases selector with
      | insensitive => exact ⟨hn, .refl reading h ns, hn.context?_empty⟩
      | callSite k => exact hn.append hc rfl k
      | object k =>
        simp only [Selector.calleeContext, Option.map_some, hat]
        have hmark : (ContextElem.object q.item).mark? h = some (.object o.item) :=
          Option.map_eq_some_iff.mpr ⟨o.item, hitem, rfl⟩
        exact hn.append hqc hmark k
      | type k =>
        simp only [Selector.calleeContext, Selector.calleeMarks, Option.map_some, hat,
          allocationClass?_eq hitem p]
        cases o.item.allocationClass? p with
        | none => exact hstay
        | some cls => exact hn.append hqc rfl k

end Named

theorem reading_faithful (p : Program) (selector : Selector) :
    reading.Faithful p (sensitivity selector) selector.abstraction where
  context_inj hn hc hc' := hn.context_inj hc hc'
  object_inj hn hi hi' := hn.object_inj hi hi'
  entry hn := hn.context?_empty
  heapObject hn hi := by
    obtain ⟨q, hq, -, hitem⟩ := object?_eq_some.mp hi
    show Heap.objectAt _ (ContextNames.objectAt _ _).item = _
    rw [names_objectAt_of_get? hq]
    exact Heap.objectAt_of_get? hitem
  intern object hn := hn.internHeap object
  allocated := by
    intro h ns c marks id object hn hc ho
    obtain ⟨hn₁, hk₁, hc₁⟩ := Named.heapContext hn selector hc
    obtain ⟨hn₂, hk₂, hobj⟩ := hn₁.internObject
      (q := ⟨(selector.heapContext ns.contexts c).1, id⟩)
      (o := ⟨selector.heapMarks marks, object⟩) hc₁ ho
    exact ⟨hn₂, hk₁.trans hk₂, hobj⟩
  callee site receiver o? hn hc hr := Named.calleeContext hn selector p hc receiver o? hr

/-- Before the first object there is the empty context only. -/
theorem named_empty (heap : HeapPolicy) : Named { policy := heap } {} := by
  have hone : ∀ c l, ({} : Contexts).table.get? c = some l → c = 0 ∧ l = [] := by
    intro c l hl
    have hlt : c < 1 := Interner.lt_size_of_get? hl
    obtain rfl : c = 0 := by omega
    exact ⟨rfl, (Option.some.inj hl).symm⟩
  refine ⟨Interner.distinct_empty, fun c c' l hl hl' => ?_, Interner.distinct_empty, rfl,
    fun c l hl => ?_, fun i q hq => ?_⟩
  · rw [(hone c l hl).1, (hone c' l hl').1]
  · rw [(hone c l hl).2]
    exact ⟨[], rfl⟩
  · cases Interner.lt_size_of_get? hq

/-! ## 4. The least solution -/

section Result

variable {heap : HeapPolicy}
  {S : Solution (List ContextMark) (Qualified (List ContextMark) HeapObject)}
  {s : EngineState ContextId ContextNames}

theorem map_markOf {l : List ContextElem} {marks : List ContextMark}
    (hm : marks? s.heap l = some marks) : l.map (result s).markOf = marks := by
  have hf := marks?_eq_some.mp hm
  clear hm
  induction hf with
  | nil => rfl
  | @cons e m l marks he _ ih =>
    have hmark : (result s).markOf e = m := by
      cases e with
      | site s' => exact Option.some.inj he
      | object i =>
        obtain ⟨o, ho, rfl⟩ := Option.map_eq_some_iff.mp he
        exact congrArg ContextMark.object (Heap.objectAt_of_get? ho)
      | type cls => exact Option.some.inj he
    rw [List.map_cons, ih, hmark]

theorem contextOf_eq {c : ContextId} {marks : List ContextMark}
    (hc : context? s.heap s.names c = some marks) : (result s).contextOf c = marks := by
  obtain ⟨l, hl, hm⟩ := Option.bind_eq_some_iff.mp hc
  unfold ContextResult.contextOf Contexts.elems
  show ((s.names.contexts.table.get? c).getD []).map _ = _
  rw [hl]
  exact map_markOf hm

theorem objectOf_eq {i : Nat} {o : Qualified (List ContextMark) HeapObject}
    (hi : object? s.heap s.names i = some o) : (result s).objectOf i = o := by
  obtain ⟨q, hq, hc, hitem⟩ := object?_eq_some.mp hi
  unfold ContextResult.objectOf
  show (⟨(result s).contextOf (s.names.objectAt i).context,
    s.heap.objectAt (s.names.objectAt i).item⟩ : Qualified _ _) = o
  rw [names_objectAt_of_get? hq, contextOf_eq hc, Heap.objectAt_of_get? hitem]

/-- **A result says what the last state of its run knows.** -/
theorem result_solution (hw : Within reading heap S s) :
    (result s).solution = reading.solution s := by
  have hc : ∀ c k, reading.context? s.heap s.names c = some k → (result s).contextOf c = k :=
    fun _ _ hc => contextOf_eq hc
  have ho : ∀ i o, reading.object? s.heap s.names i = some o → (result s).objectOf i = o :=
    fun _ _ hi => objectOf_eq hi
  ext
  · exact (reachable_iff_read hc hw).symm
  · exact (calls_iff_read hc hw).symm
  · exact (pointsTo_iff_read hc ho hw).symm

/-- What a context number in use stands for. -/
theorem context?_contextOf (hn : Named s.heap s.names) {c : ContextId}
    (h : c < s.names.contexts.size) :
    context? s.heap s.names c = some ((result s).contextOf c) := by
  obtain ⟨l, hl⟩ := Interner.exists_get? h
  obtain ⟨marks, hm⟩ := hn.readable c l hl
  have hc : context? s.heap s.names c = some marks := Option.bind_eq_some_iff.mpr ⟨l, hl, hm⟩
  rw [contextOf_eq hc]
  exact hc

/-- What an object number in use stands for. -/
theorem object?_objectOf (hn : Named s.heap s.names) {i : Nat} (h : i < s.names.objects.size) :
    object? s.heap s.names i = some ((result s).objectOf i) := by
  obtain ⟨q, hq⟩ := Interner.exists_get? h
  obtain ⟨⟨l, hl⟩, o, ho⟩ := hn.known i q hq
  obtain ⟨marks, hm⟩ := hn.readable q.context l hl
  have hi : object? s.heap s.names i = some ⟨marks, o⟩ :=
    object?_eq_some.mpr ⟨q, hq, Option.bind_eq_some_iff.mpr ⟨l, hl, hm⟩, ho⟩
  rw [objectOf_eq hi]
  exact hi

/-- **A variable under a context number points to an object number just when the solution says so
    of what they stand for**: no two contexts in use are merged. -/
theorem mem_pointsTo_iff (hw : Within reading heap S s) {c : ContextId} {v : VarId} {i : Nat} :
    i ∈ (result s).pointsTo (.var c v) ↔
      c < s.names.contexts.size ∧ i < s.names.objects.size ∧
        (reading.solution s).pointsTo (.var ((result s).contextOf c) v) ((result s).objectOf i) := by
  constructor
  · intro hmem
    obtain ⟨id, hid, hmem⟩ := (PointerGraph.mem_lookup_entries hw.graph).mp hmem
    obtain ⟨x, o, hx, ho, -⟩ := hw.points id i hmem
    obtain ⟨a, ha, hplace⟩ := Option.bind_eq_some_iff.mp hx
    rw [hid, Option.some.injEq] at ha
    subst ha
    obtain ⟨marks, hm, rfl⟩ := Option.map_eq_some_iff.mp hplace
    obtain ⟨l, hl, -⟩ := Option.bind_eq_some_iff.mp hm
    obtain ⟨q, hq, -⟩ := object?_eq_some.mp ho
    refine ⟨Interner.lt_size_of_get? hl, Interner.lt_size_of_get? hq, id, i, ?_, ?_, hmem⟩
    · rw [contextOf_eq hm]
      exact hx
    · rw [objectOf_eq ho]
      exact ho
  · intro ⟨hc, hi, id, j, hid, hj, hmem⟩
    obtain ⟨a, ha, hplace⟩ := Option.bind_eq_some_iff.mp hid
    obtain ⟨c', rfl, hc'⟩ := Reading.eq_var_of_place? hplace
    have hsame := hw.valid.context_inj hc' (context?_contextOf hw.valid hc)
    have hsame' := hw.valid.object_inj hj (object?_objectOf hw.valid hi)
    subst hsame hsame'
    exact (PointerGraph.mem_lookup_entries hw.graph).mpr ⟨id, ha, hmem⟩

end Result

/-- **The analysis with contexts computes exactly the least solution of its rules**, for every
    program, entry method, selector, heap policy and order of work; and under each context number
    a variable points to exactly the objects that are derivable under the context it stands
    for. -/
theorem contextAnalysis_isLeast {p : Program} {options : PointsToOptions} {allowance : Nat}
    {entry : MethodId} {r : ContextResult}
    (h : analyzeWithin p options Plugin.none () allowance entry = some (r, ())) :
    IsLeast {S | S.Closed p options.heap options.selector.abstraction entry} r.solution ∧
      ∀ c v i, i ∈ r.pointsTo (.var c v) ↔
        c < r.names.contexts.size ∧ i < r.names.objects.size ∧
          ∀ S : Solution (List ContextMark) (Qualified (List ContextMark) HeapObject),
            S.Closed p options.heap options.selector.abstraction entry →
            S.pointsTo (.var (r.contextOf c) v) (r.objectOf i) := by
  obtain ⟨⟨s, m⟩, hrun, hend⟩ := Option.map_eq_some_iff.mp h
  cases hend
  obtain ⟨hw, hclosed⟩ := run_least (reading_faithful p options.selector)
    (named_empty options.heap) hrun
  have hall := hw _ (Solution.all_closed p options.heap options.selector.abstraction entry)
  rw [result_solution hall]
  refine ⟨⟨hclosed, fun S hS => (hw S hS).solution_le⟩, fun c v i => ?_⟩
  rw [mem_pointsTo_iff hall]
  constructor
  · intro ⟨hc, hi, hpts⟩
    exact ⟨hc, hi, fun S hS => (hw S hS).solution_le.2.2 _ _ hpts⟩
  · intro ⟨hc, hi, hpts⟩
    exact ⟨hc, hi, hpts _ hclosed⟩

/-- `main` makes two objects and passes each through a method that gives back its argument. -/
def sample : Program where
  classes := #[{ name := "Main", methods := [0, 1] }]
  methods := #[
    { name := "main", owner := 0, subsig := 0, paramTypes := [], retType := .object 0
      isStatic := true, isAbstract := false, vars := [0, 1, 2, 3]
      body := #[⟨1, .alloc 0 (.object 0) none⟩, ⟨2, .alloc 1 (.object 0) none⟩,
        ⟨3, .call ⟨.static, ⟨0, 1⟩, none, [0], some 2⟩⟩,
        ⟨4, .call ⟨.static, ⟨0, 1⟩, none, [1], some 3⟩⟩, ⟨5, .ret none⟩] },
    { name := "same", owner := 0, subsig := 1, paramTypes := [.object 0], retType := .object 0
      isStatic := true, isAbstract := false, params := [4], vars := [4]
      body := #[⟨6, .ret (some 4)⟩] }]
  vars := #[⟨"a", .object 0, 0, 0⟩, ⟨"b", .object 0, 0, 1⟩, ⟨"first", .object 0, 0, 2⟩,
    ⟨"second", .object 0, 0, 3⟩, ⟨"x", .object 0, 1, 0⟩]
  subsigs := #["Main main()", "Main same(Main)"]

/-- With one call site as context, each call gives back its own argument. -/
theorem contextAnalysis_isLeast_sample :
    ∃ r, analyzeWithin sample { selector := .callSite 1 } Plugin.none () 30 0 = some (r, ()) ∧
      (r.heapObjectsOf 0 2).elems.map r.heap.objectAt = [⟨.alloc ⟨0, 0⟩, .object 0⟩] ∧
      (IsLeast {S | S.Closed sample .allocationSite (Selector.callSite 1).abstraction 0}
          r.solution ∧
        ∀ c v i, i ∈ r.pointsTo (.var c v) ↔
          c < r.names.contexts.size ∧ i < r.names.objects.size ∧
            ∀ S : Solution (List ContextMark) (Qualified (List ContextMark) HeapObject),
              S.Closed sample .allocationSite (Selector.callSite 1).abstraction 0 →
              S.pointsTo (.var (r.contextOf c) v) (r.objectOf i)) := by
  have h : ((analyzeWithin sample { selector := .callSite 1 } Plugin.none () 30 0).map
      fun (r, _) => (r.heapObjectsOf 0 2).elems.map r.heap.objectAt)
        = some [⟨.alloc ⟨0, 0⟩, .object 0⟩] := by
    decide +kernel
  obtain ⟨⟨r, _⟩, hr, hfirst⟩ := Option.map_eq_some_iff.mp h
  exact ⟨r, hr, hfirst, contextAnalysis_isLeast hr⟩

end ContextSensitive

end ObjectFlow
