/-
  File:      ObjectFlow/Proofs/PointsTo/ContextChoice.lean
  Subject:   THE TABLES OF CONTEXTS AND OBJECTS STAY SHALLOW whatever a selector chooses.

  * `Selector.calleeElems`: the elements of the context of a callee, said of the elements of the
    context of its caller;
  * `Bounded k`: contexts have at most `k` elements, heap contexts one less, and no two contexts
    have the same ones;
  * `NamesKept`: what is numbered keeps its number;
  * one lemma for each thing the naming does: naming an object and choosing the context of a
    callee, which has exactly the elements `calleeElems` says.
-/
import ObjectFlow.Proofs.PointsTo.Contextual

namespace ObjectFlow

/-! ## 1. What a selector chooses -/

namespace Selector

/-- The elements of the context of a method called at a site, on a receiver if there is one: the
    newest ones of the caller's context and the call, or of the receiver's heap context and the
    receiver or its class; otherwise the caller's context is kept. -/
def calleeElems (s : Selector) (p : Program) (h : Heap)
    (site : Qualified (List ContextElem) Site)
    (receiver : Option (Qualified (List ContextElem) ObjectId)) : List ContextElem :=
  match s, receiver with
  | insensitive, _ => []
  | callSite k, _ => (site.context ++ [ContextElem.site site.item]).rtake k
  | object k, some r => (r.context ++ [ContextElem.object r.item]).rtake k
  | object _, none => site.context
  | type k, some r =>
    match (h.objectAt r.item).allocationClass? p with
    | some c => (r.context ++ [ContextElem.type c]).rtake k
    | none => site.context
  | type _, none => site.context

/-- Without a receiver the heap is not looked at. -/
theorem calleeElems_none (s : Selector) (p : Program) (h h' : Heap)
    (site : Qualified (List ContextElem) Site) :
    s.calleeElems p h' site none = s.calleeElems p h site none := by
  cases s <;> rfl

/-- With one, only what the receiver stands for is. -/
theorem calleeElems_some (s : Selector) (p : Program) {h h' : Heap}
    (site : Qualified (List ContextElem) Site) {r : Qualified (List ContextElem) ObjectId}
    (hr : h'.objectAt r.item = h.objectAt r.item) :
    s.calleeElems p h' site (some r) = s.calleeElems p h site (some r) := by
  cases s with
  | type k => simp only [calleeElems, hr]
  | _ => rfl

end Selector

namespace ContextNames

/-- The context is in use and has these elements. -/
def HasElems (ns : ContextNames) (c : ContextId) (l : List ContextElem) : Prop :=
  ns.contexts.table.get? c = some l

/-- A context in use. -/
def InUse (ns : ContextNames) (c : ContextId) : Prop := ∃ l, ns.HasElems c l

/-- An object in use: a heap object under the elements of its heap context. -/
def HasObject (ns : ContextNames) (i : Nat) (r : Qualified (List ContextElem) ObjectId) : Prop :=
  ∃ c, ns.objects.get? i = some ⟨c, r.item⟩ ∧ ns.HasElems c r.context

theorem HasElems.elems_eq {ns : ContextNames} {c : ContextId} {l : List ContextElem}
    (h : ns.HasElems c l) : ns.contexts.elems c = l :=
  Contexts.elems_eq h

end ContextNames

/-! ## 2. Shallow tables -/

namespace ContextSensitive

/-- **Contexts have at most `k` elements and heap contexts one less**; no two contexts have the same
    elements, and the first one has none. -/
structure Bounded (k : Nat) (h : Heap) (ns : ContextNames) : Prop where
  distinct : ns.contexts.table.Distinct
  empty : ns.HasElems Contexts.empty []
  contexts : ∀ {c l}, ns.HasElems c l → l.length ≤ k
  heapContexts : ∀ {i q}, ns.objects.get? i = some q →
    ∃ l, ns.HasElems q.context l ∧ l.length ≤ k - 1
  heapObjects : ∀ {i q}, ns.objects.get? i = some q → ∃ o, h.objects.get? q.item = some o

/-- What is numbered keeps its number. -/
structure NamesKept (h : Heap) (ns : ContextNames) (h' : Heap) (ns' : ContextNames) : Prop where
  heap : h.objects.Keeps h'.objects
  contexts : ns.contexts.table.Keeps ns'.contexts.table
  objects : ns.objects.Keeps ns'.objects

section NamesKept

variable {h h' h'' : Heap} {ns ns' ns'' : ContextNames}

theorem NamesKept.refl (h : Heap) (ns : ContextNames) : NamesKept h ns h ns :=
  ⟨Interner.keeps_refl _, Interner.keeps_refl _, Interner.keeps_refl _⟩

theorem NamesKept.trans (a : NamesKept h ns h' ns') (b : NamesKept h' ns' h'' ns'') :
    NamesKept h ns h'' ns'' :=
  ⟨a.heap.trans b.heap, a.contexts.trans b.contexts, a.objects.trans b.objects⟩

theorem NamesKept.hasElems (a : NamesKept h ns h' ns') {c : ContextId} {l : List ContextElem}
    (hc : ns.HasElems c l) : ns'.HasElems c l := a.contexts c l hc

theorem NamesKept.inUse (a : NamesKept h ns h' ns') {c : ContextId} (hc : ns.InUse c) :
    ns'.InUse c := by
  obtain ⟨l, hl⟩ := hc
  exact ⟨l, a.hasElems hl⟩

theorem NamesKept.hasObject (a : NamesKept h ns h' ns') {i : Nat}
    {r : Qualified (List ContextElem) ObjectId} (hi : ns.HasObject i r) : ns'.HasObject i r := by
  obtain ⟨c, hc, hl⟩ := hi
  exact ⟨c, a.objects i _ hc, a.hasElems hl⟩

end NamesKept

section Bounded

variable {k : Nat} {h : Heap} {ns : ContextNames}

/-- What a heap object in use stands for does not change. -/
theorem NamesKept.objectAt {h' : Heap} {ns' : ContextNames} (a : NamesKept h ns h' ns')
    (hb : Bounded k h ns) {i : Nat} {r : Qualified (List ContextElem) ObjectId}
    (hi : ns.HasObject i r) : h'.objectAt r.item = h.objectAt r.item := by
  obtain ⟨c, hc, -⟩ := hi
  obtain ⟨o, ho⟩ := hb.heapObjects hc
  rw [Heap.objectAt_of_get? ho, Heap.objectAt_of_get? (a.heap _ o ho)]

/-- An object in use has a heap context in use. -/
theorem Bounded.hasObject (hb : Bounded k h ns) {i : Nat} {q : Qualified ContextId ObjectId}
    (hi : ns.objects.get? i = some q) : ∃ l, ns.HasObject i ⟨l, q.item⟩ := by
  obtain ⟨l, hl, -⟩ := hb.heapContexts hi
  exact ⟨l, q.context, hi, hl⟩

/-- Before the first object there is the empty context only. -/
theorem bounded_empty (k : Nat) (heap : HeapPolicy) : Bounded k { policy := heap } {} := by
  have hone : ∀ {c l}, ({} : ContextNames).HasElems c l → l = [] := by
    intro c l hl
    have hlt : c < 1 := Interner.lt_size_of_get? hl
    obtain rfl : c = 0 := Nat.lt_one_iff.mp hlt
    exact (Option.some.inj hl).symm
  refine ⟨(named_empty heap).contexts, rfl, fun hl => ?_, fun hi => ?_, fun hi => ?_⟩
  · rw [hone hl]
    exact Nat.zero_le k
  · cases Interner.lt_size_of_get? hi
  · cases Interner.lt_size_of_get? hi

/-- A new heap object changes no context. -/
theorem Bounded.internHeap (hb : Bounded k h ns) (object : HeapObject) :
    Bounded k (h.intern object).2 ns ∧ NamesKept h ns (h.intern object).2 ns := by
  obtain ⟨-, hkeeps, -⟩ := Interner.intern_spec h.objects object
  refine ⟨{ hb with heapObjects := fun hi => ?_ },
    hkeeps, Interner.keeps_refl _, Interner.keeps_refl _⟩
  obtain ⟨o, ho⟩ := hb.heapObjects hi
  exact ⟨o, hkeeps _ o ho⟩

/-- **Interning a short sequence gives the context that has it.** -/
theorem Bounded.internContext (hb : Bounded k h ns) {l : List ContextElem} (hl : l.length ≤ k) :
    let named : ContextNames := { ns with contexts := (ns.contexts.intern l).2 }
    Bounded k h named ∧ NamesKept h ns h named ∧ named.HasElems (ns.contexts.intern l).1 l := by
  intro named
  obtain ⟨hget, hkeeps, hdistinct⟩ := Interner.intern_spec ns.contexts.table l
  refine ⟨⟨hdistinct hb.distinct, hkeeps _ _ hb.empty, fun hc => ?_, fun hi => ?_, hb.heapObjects⟩,
    ⟨Interner.keeps_refl _, hkeeps, Interner.keeps_refl _⟩, hget⟩
  · rcases Interner.get?_intern hc with hold | rfl
    · exact hb.contexts hold
    · exact hl
  · obtain ⟨l', hl', hle⟩ := hb.heapContexts hi
    exact ⟨l', hkeeps _ l' hl', hle⟩

/-- **Interning a heap object under a shallow heap context keeps the tables shallow.** -/
theorem Bounded.internObject (hb : Bounded k h ns) {c : ContextId} {l : List ContextElem}
    {id : ObjectId} (hc : ns.HasElems c l) (hl : l.length ≤ k - 1)
    (ho : ∃ o, h.objects.get? id = some o) :
    Bounded k h (ns.intern ⟨c, id⟩).2 ∧ NamesKept h ns h (ns.intern ⟨c, id⟩).2 := by
  obtain ⟨-, hkeeps, -⟩ := Interner.intern_spec ns.objects ⟨c, id⟩
  refine ⟨⟨hb.distinct, hb.empty, hb.contexts, fun hi => ?_, fun hi => ?_⟩,
    Interner.keeps_refl _, Interner.keeps_refl _, hkeeps⟩
  · rcases Interner.get?_intern hi with hold | rfl
    · exact hb.heapContexts hold
    · exact ⟨l, hc, hl⟩
  · rcases Interner.get?_intern hi with hold | rfl
    · exact hb.heapObjects hold
    · exact ho

/-! ## 3. What the naming does -/

/-- The empty context is shallow enough for everything. -/
theorem Bounded.stay_empty (hb : Bounded k h ns) :
    Bounded k h ns ∧ NamesKept h ns h ns ∧ ns.HasElems Contexts.empty [] :=
  ⟨hb, .refl h ns, hb.empty⟩

theorem Bounded.append (hb : Bounded k h ns) {c : ContextId} {l : List ContextElem}
    (hc : ns.HasElems c l) (e : ContextElem) :
    let named : ContextNames := { ns with contexts := (ns.contexts.append c e k).2 }
    Bounded k h named ∧ NamesKept h ns h named ∧
      named.HasElems (ns.contexts.append c e k).1 ((l ++ [e]).rtake k) := by
  unfold Contexts.append
  rw [hc.elems_eq]
  exact hb.internContext (length_rtake_le _ k)

theorem Bounded.suffix (hb : Bounded k h ns) {c : ContextId} {l : List ContextElem}
    (hc : ns.HasElems c l) :
    let named : ContextNames := { ns with contexts := (ns.contexts.suffix c (k - 1)).2 }
    Bounded k h named ∧ NamesKept h ns h named ∧
      named.HasElems (ns.contexts.suffix c (k - 1)).1 (l.rtake (k - 1)) := by
  unfold Contexts.suffix
  rw [hc.elems_eq]
  exact hb.internContext (Nat.le_trans (length_rtake_le l (k - 1)) (Nat.sub_le k 1))

/-- A heap context is one element shallower than the context it is cut from. -/
theorem Bounded.heapContext {selector : Selector} (hb : Bounded selector.depth h ns)
    {c : ContextId} (hc : ns.InUse c) :
    let named : ContextNames := { ns with contexts := (selector.heapContext ns.contexts c).2 }
    Bounded selector.depth h named ∧ NamesKept h ns h named ∧
      ∃ l, named.HasElems (selector.heapContext ns.contexts c).1 l ∧
        l.length ≤ selector.depth - 1 := by
  obtain ⟨l, hl⟩ := hc
  have hcut : ∀ k, Bounded k h ns →
      let named : ContextNames := { ns with contexts := (ns.contexts.suffix c (k - 1)).2 }
      Bounded k h named ∧ NamesKept h ns h named ∧
        ∃ l, named.HasElems (ns.contexts.suffix c (k - 1)).1 l ∧ l.length ≤ k - 1 := by
    intro k hb
    obtain ⟨hb', hkept, helems⟩ := hb.suffix hl
    exact ⟨hb', hkept, _, helems, length_rtake_le l (k - 1)⟩
  cases selector with
  | insensitive => exact ⟨hb, .refl h ns, [], hb.empty, Nat.zero_le _⟩
  | callSite k => exact hcut k hb
  | object k => exact hcut k hb
  | type k => exact hcut k hb

/-- **Naming what is allocated** keeps the tables shallow. -/
theorem Bounded.allocated {selector : Selector} (hb : Bounded selector.depth h ns) {c : ContextId}
    (hc : ns.InUse c) {id : ObjectId} (ho : ∃ o, h.objects.get? id = some o) :
    let named := ((sensitivity selector).allocated c id ns).2
    Bounded selector.depth h named ∧ NamesKept h ns h named := by
  obtain ⟨hb₁, hkept₁, l, hl, hle⟩ := hb.heapContext hc
  obtain ⟨hb₂, hkept₂⟩ := hb₁.internObject hl hle ho
  exact ⟨hb₂, hkept₁.trans hkept₂⟩

/-- **Naming what is not allocated** keeps the tables shallow. -/
theorem Bounded.unallocated {selector : Selector} (hb : Bounded selector.depth h ns)
    {id : ObjectId} (ho : ∃ o, h.objects.get? id = some o) :
    let named := ((sensitivity selector).unallocated id ns).2
    Bounded selector.depth h named ∧ NamesKept h ns h named :=
  hb.internObject hb.empty (Nat.zero_le _) ho

/-- **The context of a callee keeps the tables shallow and has the elements it should have.** -/
theorem Bounded.calleeContext {selector : Selector} (hb : Bounded selector.depth h ns)
    (p : Program) (site : Qualified ContextId Site) {caller : List ContextElem}
    (hc : ns.HasElems site.context caller) (receiver : Option Nat)
    (r? : Option (Qualified (List ContextElem) ObjectId))
    (hr : Option.Rel ns.HasObject receiver r?) :
    let chosen := (sensitivity selector).calleeContext p h site receiver ns
    Bounded selector.depth h chosen.2 ∧ NamesKept h ns h chosen.2 ∧
      chosen.2.HasElems chosen.1 (selector.calleeElems p h ⟨caller, site.item⟩ r?) := by
  have hstay : Bounded selector.depth h ns ∧ NamesKept h ns h ns ∧
      ns.HasElems site.context caller := ⟨hb, .refl h ns, hc⟩
  cases hr with
  | none =>
    cases selector with
    | insensitive => exact hb.stay_empty
    | callSite k => exact Bounded.append hb hc _
    | object k => exact hstay
    | type k => exact hstay
  | @some i r hi =>
    obtain ⟨c, hq, hl⟩ := hi
    have hat : ns.objectAt i = ⟨c, r.item⟩ := names_objectAt_of_get? hq
    cases selector with
    | insensitive => exact hb.stay_empty
    | callSite k => exact Bounded.append hb hc _
    | object k =>
      simp only [sensitivity, Selector.calleeContext, Option.map_some, hat]
      exact Bounded.append hb hl _
    | type k =>
      have hclass : Selector.allocationClass? p h r.item
          = (h.objectAt r.item).allocationClass? p := rfl
      simp only [sensitivity, Selector.calleeContext, Selector.calleeElems, Option.map_some, hat,
        hclass]
      cases (h.objectAt r.item).allocationClass? p with
      | none => exact hstay
      | some cls => exact Bounded.append hb hl _

end Bounded

end ContextSensitive

end ObjectFlow
