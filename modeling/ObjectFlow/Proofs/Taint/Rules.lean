/-
  File:      ObjectFlow/Proofs/Taint/Rules.lean
  Subject:   THE RULES OF TAINT TRACKING, said of contexts and objects as the rules of the pointer
             analysis are.

  * `TaintAbstraction`: an abstraction that also says which object tainted data is;
  * `Solution.TaintClosed`: closed under the rules of the pointer analysis and those of taint
    tracking, so that tainted data may be a receiver like any other object;
  * `Solution.Leaks`: a flow that a solution derives;
  * `sourced_of_isLeast`: in the least solution every piece of tainted data was made by a call
    of a source.
-/
import ObjectFlow.Proofs.PointsTo.Contextual
import ObjectFlow.Proofs.PointsTo.Plain
import ObjectFlow.Taint.Analysis

namespace ObjectFlow

/-! ## 1. Tainted data -/

namespace HeapObject

/-- Tainted data of a type made by the call at `site`. -/
def tainted (site : Site) (ty : Ty) : HeapObject := ⟨.taint site, ty⟩

/-- The call that made tainted data. -/
def taintSource? (o : HeapObject) : Option Site :=
  match o.kind with
  | .taint source => some source
  | _ => none

/-- What is allocated is not tainted data. -/
theorem taintSource?_objectFor (policy : HeapPolicy) (site : Site) (ty : Ty) :
    (Heap.objectFor policy site ty).taintSource? = none := by
  cases policy <;> rfl

end HeapObject

/-- How contexts are chosen and objects told apart, tainted data among them. -/
structure TaintAbstraction (K O : Type) extends Abstraction K O where
  /-- The object of what is not allocated under a context. -/
  unallocated : HeapObject → O
  heapObject_allocated : ∀ c o, heapObject (allocated c o) = o
  heapObject_unallocated : ∀ o, heapObject (unallocated o) = o

/-- Objects are what they stand for. -/
def Plain.taintAbstraction : TaintAbstraction Unit HeapObject where
  toAbstraction := Plain.abstraction
  unallocated object := object
  heapObject_allocated _ _ := rfl
  heapObject_unallocated _ := rfl

/-- Tainted data is in the empty heap context. -/
def Selector.taintAbstraction (s : Selector) :
    TaintAbstraction (List ContextMark) (Qualified (List ContextMark) HeapObject) where
  toAbstraction := s.abstraction
  unallocated object := ⟨[], object⟩
  heapObject_allocated _ _ := rfl
  heapObject_unallocated _ := rfl

/-! ## 2. Rules -/

namespace Solution

variable {K O : Type}

/-- The tainted data at `x`, re-tagged with a type, is at `y` as well. -/
def Retags (A : TaintAbstraction K O) (S : Solution K O) (x y : Place K O) (ty : Ty) : Prop :=
  ∀ o site, S.pointsTo x o → (A.heapObject o).taintSource? = some site →
    S.pointsTo y (A.unallocated (.tainted site ty))

/-- **Closed under the rules of the analysis with taint tracking**: a call of a source puts
    tainted data into its result, and a call with a transfer re-tags the tainted data of one of its
    slots into another. -/
structure TaintClosed (p : Program) (heap : HeapPolicy) (taint : TaintRules)
    (A : TaintAbstraction K O) (start : MethodId) (S : Solution K O) : Prop extends
    Closed p heap A.toAbstraction start S where
  source : ∀ {a b i x ty}, S.calls a b → p.stmt? a.item = some (.call i) → i.result = some x →
    ty ∈ taint.sourcesOf b.item →
    S.pointsTo (.var a.context x) (A.unallocated (.tainted a.item ty))
  transfer : ∀ {a b i t x y}, S.calls a b → p.stmt? a.item = some (.call i) →
    t ∈ taint.transfersOf b.item → Taint.slotVar? i t.source = some x →
    Taint.slotVar? i t.target = some y → S.Retags A (.var a.context x) (.var a.context y) t.ty

/-- **The flow can be derived**: under some context the sink calls a method that must not receive
    tainted data in the argument, and the argument points to tainted data made at the source. -/
def Leaks (p : Program) (taint : TaintRules) (A : TaintAbstraction K O) (S : Solution K O)
    (f : TaintFlow) : Prop :=
  ∃ c b i v o, S.calls ⟨c, f.sink⟩ b ∧ f.index ∈ taint.sinksOf b.item ∧
    p.stmt? f.sink = some (.call i) ∧ i.args[f.index]? = some v ∧ S.pointsTo (.var c v) o ∧
    (A.heapObject o).taintSource? = some f.source

/-- The site calls a source. -/
def CallsSource (taint : TaintRules) (S : Solution K O) (site : Site) : Prop :=
  ∃ c b ty, S.calls ⟨c, site⟩ b ∧ ty ∈ taint.sourcesOf b.item

theorem all_taintClosed (p : Program) (heap : HeapPolicy) (taint : TaintRules)
    (A : TaintAbstraction K O) (start : MethodId) :
    (all K O).TaintClosed p heap taint A start where
  toClosed := all_closed p heap A.toAbstraction start
  source _ _ _ _ := trivial
  transfer _ _ _ _ _ _ _ _ _ := trivial

/-! ## 3. Where tainted data comes from -/

variable {p : Program} {heap : HeapPolicy} {taint : TaintRules} {A : TaintAbstraction K O}
  {start : MethodId} {S : Solution K O}

/-- The solution without the objects that do not satisfy a condition. -/
def keepObjects (S : Solution K O) (P : O → Prop) : Solution K O where
  reachable := S.reachable
  calls := S.calls
  pointsTo x o := S.pointsTo x o ∧ P o

theorem Flows.keepObjects {x y : Place K O} (h : S.Flows x y) (P : O → Prop) :
    (S.keepObjects P).Flows x y := fun o ho => ⟨h o ho.1, ho.2⟩

/-- No rule makes an object but allocations, sources and transfers: as long as these give objects
    that satisfy a condition, all others can be left out. -/
theorem TaintClosed.keepObjects (h : S.TaintClosed p heap taint A start) {P : O → Prop}
    (halloc : ∀ c site ty, P (A.allocated c (Heap.objectFor heap site ty)))
    (hsource : ∀ {a b ty}, S.calls a b → ty ∈ taint.sourcesOf b.item →
      P (A.unallocated (.tainted a.item ty)))
    (htransfer : ∀ {o site} ty, P o → (A.heapObject o).taintSource? = some site →
      P (A.unallocated (.tainted site ty))) :
    (S.keepObjects P).TaintClosed p heap taint A start where
  entry := h.entry
  alloc hr hs := ⟨h.alloc hr hs, halloc _ _ _⟩
  copy hr hs := (h.copy hr hs).keepObjects P
  cast hr hs := (h.cast hr hs).keepObjects P
  loadStatic hr hs := (h.loadStatic hr hs).keepObjects P
  storeStatic hr hs := (h.storeStatic hr hs).keepObjects P
  callStatic := h.callStatic
  loadField ho hs := (h.loadField ho.1 hs).keepObjects P
  storeField ho hs := (h.storeField ho.1 hs).keepObjects P
  loadArray ho hs := (h.loadArray ho.1 hs).keepObjects P
  storeArray ho hs := (h.storeArray ho.1 hs).keepObjects P
  callOn ho hs hb hm := h.callOn ho.1 hs hb hm
  receiver ho hs hb hm ht := ⟨h.receiver ho.1 hs hb hm ht, ho.2⟩
  callee := h.callee
  argument hc hs hm := (h.argument hc hs hm).keepObjects P
  result hc hs hr hm := (h.result hc hs hr hm).keepObjects P
  source hc hs hr ht := ⟨h.source hc hs hr ht, hsource hc ht⟩
  transfer hc hs ht hx hy o site ho hsite :=
    ⟨h.transfer hc hs ht hx hy o site ho.1 hsite, htransfer _ ho.2 hsite⟩

/-- **In the least solution all tainted data was made by calls of sources.** -/
theorem sourced_of_isLeast (h : IsLeast {T | T.TaintClosed p heap taint A start} S)
    {x : Place K O} {o : O} {site : Site} (ho : S.pointsTo x o)
    (hsite : (A.heapObject o).taintSource? = some site) : S.CallsSource taint site := by
  have hkept := h.1.keepObjects
    (P := fun o => ∀ site, (A.heapObject o).taintSource? = some site → S.CallsSource taint site)
    (fun c site ty s hs => ?_) (fun {a b ty} hcall hty s hs => ?_)
    (fun {o site} ty hP hsite s hs => ?_)
  · exact ((h.2 hkept).2.2 x o ho).2 site hsite
  · rw [A.heapObject_allocated, HeapObject.taintSource?_objectFor] at hs
    cases hs
  · rw [A.heapObject_unallocated] at hs
    cases hs
    exact ⟨a.context, b, ty, hcall, hty⟩
  · rw [A.heapObject_unallocated] at hs
    cases hs
    exact hP _ hsite

end Solution

/-! ## 4. Numberings that follow a taint abstraction -/

namespace Reading

variable {κ ν K O : Type}

/-- The numbering also follows the abstraction where objects are not allocated. -/
structure TaintFaithful (R : Reading κ ν K O) (p : Program) (rules : Sensitivity κ ν)
    (A : TaintAbstraction K O) : Prop extends R.Faithful p rules A.toAbstraction where
  unallocated : ∀ {h ns id object}, R.Valid h ns → h.objects.get? id = some object →
    R.Valid h (rules.unallocated id ns).2 ∧ R.Keeps h ns h (rules.unallocated id ns).2 ∧
      R.object? h (rules.unallocated id ns).2 (rules.unallocated id ns).1
        = some (A.unallocated object)

end Reading

theorem Plain.reading_taintFaithful (p : Program) :
    Plain.reading.TaintFaithful p Plain.sensitivity Plain.taintAbstraction where
  toFaithful := Plain.reading_faithful p
  unallocated hv hi := ⟨hv, ⟨fun e => e, fun e => e⟩, hi⟩

theorem ContextSensitive.reading_taintFaithful (p : Program) (selector : Selector) :
    ContextSensitive.reading.TaintFaithful p (ContextSensitive.sensitivity selector)
      selector.taintAbstraction where
  toFaithful := ContextSensitive.reading_faithful p selector
  unallocated := by
    intro h ns id object hn ho
    exact hn.internObject (q := ⟨Contexts.empty, id⟩) (o := ⟨[], object⟩) hn.context?_empty ho

end ObjectFlow
