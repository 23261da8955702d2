/-
  File:      ObjectFlow/Proofs/Taint/Tracking.lean
  Subject:   TAINT TRACKING LOSES NO TAINTED DATA AND MAKES NONE UP, at any moment of a run.

  The plugin remembers edges along which tainted data is re-tagged and arguments that are sinks.
  It is told of new objects at a pointer and of new call edges only, so an edge of its own may
  come before or after the tainted data it has to pass on:

  * `Passed`: what an edge of the plugin asks for of an object at its source;
  * `CallTracked`: what a call edge asks for, of sources, transfers and sinks;
  * `Tracks`: what the plugin remembers is justified by the solution, and all that its edges ask
    for is there or pending;
  * `plugin_cooperates`: the plugin takes part in the analysis, with `Tracking` as its invariant.
-/
import Mathlib.Data.List.Induction
import ObjectFlow.Proofs.Taint.Rules

namespace ObjectFlow

/-! ## 1. What the plugin has to remember and to pass on -/

section Demands

variable {κ ν K O : Type} (R : Reading κ ν K O) (A : TaintAbstraction K O) (p : Program)
  (taint : TaintRules)

/-- What an edge of the plugin asks for of the object `i` at its source: if it is tainted data,
    the re-tagged object is at the target of the edge or on its way to it. -/
def Passed (e : TaintEdge) (i : Nat) (s : EngineState κ ν) : Prop :=
  ∃ b o, s.graph.pointer? e.target = some b ∧ R.object? s.heap s.names i = some o ∧
    ∀ site, (A.heapObject o).taintSource? = some site →
      ∃ j, R.object? s.heap s.names j = some (A.unallocated (.tainted site e.ty)) ∧ s.Reaches b j

/-- Tainted data made at a site is at the result of the call or on its way to it. -/
def SourceTracked (site : Site) (c : κ) (x : VarId) (ty : Ty) (s : EngineState κ ν) : Prop :=
  ∃ j, R.object? s.heap s.names j = some (A.unallocated (.tainted site ty)) ∧
    s.Reaches (.var c x) j

/-- The plugin remembers the edge of a transfer, if the call has both slots. -/
def TransferTracked (c : κ) (i : Invoke) (t : Transfer) (run : EngineState κ ν × TaintMemory) :
    Prop :=
  ∀ x y, Taint.slotVar? i t.source = some x → Taint.slotVar? i t.target = some y →
    ∃ source target, run.1.graph.pointer? source = some (.var c x) ∧
      run.1.graph.pointer? target = some (.var c y) ∧ ⟨source, target, t.ty⟩ ∈ run.2.edges

/-- The plugin remembers an argument that is a sink, if the call has it. -/
def SinkTracked (site : Site) (c : κ) (i : Invoke) (k : Nat) (run : EngineState κ ν × TaintMemory) :
    Prop :=
  ∀ v, i.args[k]? = some v →
    ∃ id, run.1.graph.pointer? id = some (.var c v) ∧ ⟨site, id, k⟩ ∈ run.2.sinks

/-- **What a call edge asks for.** -/
structure CallTracked (e : ContextCallEdge κ) (run : EngineState κ ν × TaintMemory) : Prop where
  source : ∀ i x ty, p.stmt? e.site.item = some (.call i) → i.result = some x →
    ty ∈ taint.sourcesOf e.callee.item →
    SourceTracked R A e.site.item e.site.context x ty run.1
  transfer : ∀ i t, p.stmt? e.site.item = some (.call i) → t ∈ taint.transfersOf e.callee.item →
    TransferTracked e.site.context i t run
  sink : ∀ i k, p.stmt? e.site.item = some (.call i) → k ∈ taint.sinksOf e.callee.item →
    SinkTracked e.site.item e.site.context i k run

/-- The solution is closed along an edge of the plugin. -/
def JustifiedRetag (S : Solution K O) (s : EngineState κ ν) (e : TaintEdge) : Prop :=
  ∃ x y, R.placeAt? s e.source = some x ∧ R.placeAt? s e.target = some y ∧ S.Retags A x y e.ty

/-- The solution has the call whose argument the plugin remembers as a sink. -/
def JustifiedSink (S : Solution K O) (s : EngineState κ ν) (k : SinkSlot) : Prop :=
  ∃ c b i v, R.placeAt? s k.pointer = some (.var c v) ∧ S.calls ⟨c, k.site⟩ b ∧
    k.index ∈ taint.sinksOf b.item ∧ p.stmt? k.site = some (.call i) ∧ i.args[k.index]? = some v

/-- **What the plugin remembers is justified, and its edges have been followed.** -/
structure Tracks (S : Solution K O) (run : EngineState κ ν × TaintMemory) : Prop where
  edges : ∀ e ∈ run.2.edges, JustifiedRetag R A S run.1 e
  passed : ∀ e ∈ run.2.edges, ∀ i ∈ run.1.pointsTo e.source, Passed R A e i run.1
  sinks : ∀ k ∈ run.2.sinks, JustifiedSink R p taint S run.1 k
  /-- Flows are read off at the end only. -/
  flows : run.2.flows = []

/-- **The invariant of taint tracking.** -/
structure Tracking (S : Solution K O) (s : EngineState κ ν) (memory : TaintMemory) : Prop where
  tracks : Tracks R A p taint S (s, memory)
  calls : ∀ e ∈ s.calls.edges, CallTracked R A p taint e (s, memory)

/-- The state is extended and nothing is forgotten. -/
structure Follows (run out : EngineState κ ν × TaintMemory) : Prop where
  state : Extends R run.1 out.1
  edges : ∀ e ∈ run.2.edges, e ∈ out.2.edges
  sinks : ∀ k ∈ run.2.sinks, k ∈ out.2.sinks

end Demands

/-! ## 2. What growth keeps -/

section Kept

variable {κ ν K O : Type} [DecidableEq κ] {R : Reading κ ν K O} {A : TaintAbstraction K O}
  {p : Program} {taint : TaintRules} {S : Solution K O} {s t : EngineState κ ν}
  {memory memory' : TaintMemory}

theorem Passed.grows {e : TaintEdge} {i : Nat} (h : Passed R A e i s) (g : Grows R s t) :
    Passed R A e i t := by
  obtain ⟨b, o, hb, ho, hpass⟩ := h
  refine ⟨b, o, g.pointers _ b hb, g.keeps.object ho, fun site hsite => ?_⟩
  obtain ⟨j, hj, hr⟩ := hpass site hsite
  exact ⟨j, g.keeps.object hj, g.reaches hr⟩

theorem SourceTracked.grows {site : Site} {c : κ} {x : VarId} {ty : Ty}
    (h : SourceTracked R A site c x ty s) (g : Grows R s t) : SourceTracked R A site c x ty t := by
  obtain ⟨j, hj, hr⟩ := h
  exact ⟨j, g.keeps.object hj, g.reaches hr⟩

omit [DecidableEq κ] in
theorem TransferTracked.keep {c : κ} {i : Invoke} {tr : Transfer}
    (h : TransferTracked c i tr (s, memory)) (hp : s.graph.pointers.Keeps t.graph.pointers)
    (he : ∀ e ∈ memory.edges, e ∈ memory'.edges) : TransferTracked c i tr (t, memory') := by
  intro x y hx hy
  obtain ⟨source, target, hsource, htarget, hmem⟩ := h x y hx hy
  exact ⟨source, target, hp _ _ hsource, hp _ _ htarget, he _ hmem⟩

omit [DecidableEq κ] in
theorem SinkTracked.keep {site : Site} {c : κ} {i : Invoke} {k : Nat}
    (h : SinkTracked site c i k (s, memory)) (hp : s.graph.pointers.Keeps t.graph.pointers)
    (hk : ∀ k ∈ memory.sinks, k ∈ memory'.sinks) : SinkTracked site c i k (t, memory') := by
  intro v hv
  obtain ⟨id, hid, hmem⟩ := h v hv
  exact ⟨id, hp _ _ hid, hk _ hmem⟩

theorem CallTracked.keep {e : ContextCallEdge κ} (h : CallTracked R A p taint e (s, memory))
    (g : Grows R s t) (he : ∀ e ∈ memory.edges, e ∈ memory'.edges)
    (hk : ∀ k ∈ memory.sinks, k ∈ memory'.sinks) : CallTracked R A p taint e (t, memory') where
  source i x ty hs hr ht := (h.source i x ty hs hr ht).grows g
  transfer i tr hs ht := (h.transfer i tr hs ht).keep g.pointers he
  sink i k hs ht := (h.sink i k hs ht).keep g.pointers hk

theorem JustifiedRetag.grows {e : TaintEdge} (h : JustifiedRetag R A S s e) (g : Grows R s t) :
    JustifiedRetag R A S t e := by
  obtain ⟨x, y, hx, hy, hS⟩ := h
  exact ⟨x, y, g.placeAt hx, g.placeAt hy, hS⟩

theorem JustifiedSink.grows {k : SinkSlot} (h : JustifiedSink R p taint S s k) (g : Grows R s t) :
    JustifiedSink R p taint S t k := by
  obtain ⟨c, b, i, v, hv, hrest⟩ := h
  exact ⟨c, b, i, v, g.placeAt hv, hrest⟩

/-- As long as no object is new at a pointer, growth keeps what the plugin knows. -/
theorem Tracks.grows (h : Tracks R A p taint S (s, memory)) (g : Grows R s t)
    (hsets : ∀ id i, i ∈ t.pointsTo id → i ∈ s.pointsTo id) :
    Tracks R A p taint S (t, memory) where
  edges e he := (h.edges e he).grows g
  passed e he i hi := (h.passed e he i (hsets _ i hi)).grows g
  sinks k hk := (h.sinks k hk).grows g
  flows := h.flows

theorem Tracks.extends (h : Tracks R A p taint S (s, memory)) (he : Extends R s t) :
    Tracks R A p taint S (t, memory) := h.grows he.grows fun id _ hi => (he.sets id) ▸ hi

omit [DecidableEq κ] in
theorem Follows.refl (R : Reading κ ν K O) (run : EngineState κ ν × TaintMemory) :
    Follows R run run := ⟨.refl R run.1, fun _ h => h, fun _ h => h⟩

omit [DecidableEq κ] in
theorem Follows.trans {run mid out : EngineState κ ν × TaintMemory} (a : Follows R run mid)
    (b : Follows R mid out) : Follows R run out :=
  ⟨a.state.trans b.state, fun e h => b.edges e (a.edges e h), fun k h => b.sinks k (a.sinks k h)⟩

/-- **A loop of the plugin follows a run if each of its steps does**, and what each step
    establishes holds at its end. -/
theorem foldl_follows {α : Type} {heap : HeapPolicy}
    {f : EngineState κ ν × TaintMemory → α → EngineState κ ν × TaintMemory}
    {Q : α → EngineState κ ν × TaintMemory → Prop}
    (hQ : ∀ {a run out}, Follows R run out → Q a run → Q a out) (l : List α)
    {run : EngineState κ ν × TaintMemory} (hw : Within R heap S run.1)
    (ht : Tracks R A p taint S run)
    (hf : ∀ a ∈ l, ∀ mid, Within R heap S mid.1 → Tracks R A p taint S mid → Follows R run mid →
      Within R heap S (f mid a).1 ∧ Tracks R A p taint S (f mid a) ∧ Follows R mid (f mid a) ∧
        Q a (f mid a)) :
    Within R heap S (l.foldl f run).1 ∧ Tracks R A p taint S (l.foldl f run) ∧
      Follows R run (l.foldl f run) ∧ ∀ a ∈ l, Q a (l.foldl f run) := by
  induction l generalizing run with
  | nil => exact ⟨hw, ht, .refl R run, fun a ha => absurd ha List.not_mem_nil⟩
  | cons a l ih =>
    obtain ⟨hw₁, ht₁, hf₁, hq⟩ := hf a List.mem_cons_self run hw ht (.refl R run)
    obtain ⟨hw₂, ht₂, hf₂, hqs⟩ := ih hw₁ ht₁ fun b hb mid hmid htmid hfollows =>
      hf b (List.mem_cons_of_mem a hb) mid hmid htmid (hf₁.trans hfollows)
    refine ⟨hw₂, ht₂, hf₁.trans hf₂, fun b hb => ?_⟩
    rcases List.mem_cons.mp hb with rfl | hb
    · exact hQ hf₂ hq
    · exact hqs b hb

end Kept

/-! ## 3. Re-tagging and passing on -/

namespace Taint

variable {κ ν K O : Type} [DecidableEq κ] {R : Reading κ ν K O} {A : TaintAbstraction K O}
  {p : Program} {taint : TaintRules} {rules : Sensitivity κ ν} {heap : HeapPolicy}
  {S : Solution K O} {start : MethodId} {s : EngineState κ ν}

omit [DecidableEq κ] in
/-- What the engine reads as the source of tainted data is the source. -/
theorem taintSource?_eq (hR : R.TaintFaithful p rules A) (hv : R.Valid s.heap s.names) {i : Nat}
    {o : O} (hi : R.object? s.heap s.names i = some o) :
    s.taintSource? rules i = (A.heapObject o).taintSource? := by
  show (s.heap.objectAt (rules.heapObject s.names i)).taintSource? = _
  rw [hR.heapObject hv hi]

/-- The object of tainted data is numbered on first use. -/
theorem taintObject_extends (hR : R.TaintFaithful p rules A) (h : Within R heap S s) (site : Site)
    (ty : Ty) :
    let made := s.taintObject rules site ty
    Within R heap S made.2 ∧ Extends R s made.2 ∧
      R.object? made.2.heap made.2.names made.1 = some (A.unallocated (.tainted site ty)) := by
  intro made
  obtain ⟨hv₁, hk₁⟩ := hR.intern (.tainted site ty) h.valid
  have hget : (s.heap.taint site ty).2.objects.get? (s.heap.taint site ty).1
      = some (.tainted site ty) := (Interner.intern_spec _ _).1
  obtain ⟨hv₂, hk₂, hobj⟩ := hR.unallocated hv₁ hget
  obtain ⟨hw, he⟩ := EngineState.renamed_extends h (hk₁.trans hk₂) hv₂ rfl
  exact ⟨hw, he, hobj⟩

/-- What re-tagging objects gives: the re-tagged object of each piece of tainted data among them,
    and nothing else. -/
structure Retagged (R : Reading κ ν K O) (A : TaintAbstraction K O) (ty : Ty) (objects : List Nat)
    (out : IdSet × EngineState κ ν) : Prop where
  made : ∀ j ∈ out.1, ∃ i ∈ objects, ∃ o site, R.object? out.2.heap out.2.names i = some o ∧
    (A.heapObject o).taintSource? = some site ∧
    R.object? out.2.heap out.2.names j = some (A.unallocated (.tainted site ty))
  all : ∀ i ∈ objects, ∃ o, R.object? out.2.heap out.2.names i = some o ∧
    ∀ site, (A.heapObject o).taintSource? = some site →
      ∃ j ∈ out.1, R.object? out.2.heap out.2.names j = some (A.unallocated (.tainted site ty))

omit [DecidableEq κ] in
/-- One more object, which is no tainted data. -/
theorem Retagged.skip {ty : Ty} {objects : List Nat} {out : IdSet × EngineState κ ν}
    (h : Retagged R A ty objects out) {i : Nat} {o : O}
    (hi : R.object? out.2.heap out.2.names i = some o)
    (hnone : (A.heapObject o).taintSource? = none) : Retagged R A ty (objects ++ [i]) out where
  made j hj := by
    obtain ⟨i', hi', hrest⟩ := h.made j hj
    exact ⟨i', List.mem_append_left _ hi', hrest⟩
  all i' hi' := by
    rcases List.mem_append.mp hi' with hold | hnew
    · exact h.all i' hold
    · rw [List.mem_singleton.mp hnew]
      refine ⟨o, hi, fun site hsite => ?_⟩
      rw [hnone] at hsite
      cases hsite

omit [DecidableEq κ] in
/-- One more object, which is tainted data. -/
theorem Retagged.tag {ty : Ty} {objects : List Nat} {out : IdSet × EngineState κ ν}
    (h : Retagged R A ty objects out) {t : EngineState κ ν} (he : Extends R out.2 t) {i j : Nat}
    {o : O} {site : Site} (hi : R.object? out.2.heap out.2.names i = some o)
    (hsite : (A.heapObject o).taintSource? = some site)
    (hj : R.object? t.heap t.names j = some (A.unallocated (.tainted site ty))) :
    Retagged R A ty (objects ++ [i]) (out.1.insert j, t) where
  made j' hj' := by
    rcases IdSet.mem_insert.mp hj' with rfl | hold
    · exact ⟨i, List.mem_append_right _ (List.mem_singleton_self i), o, site, he.keeps.object hi,
        hsite, hj⟩
    · obtain ⟨i', hi', o', site', ho', hsite', hj'⟩ := h.made j' hold
      exact ⟨i', List.mem_append_left _ hi', o', site', he.keeps.object ho', hsite',
        he.keeps.object hj'⟩
  all i' hi' := by
    rcases List.mem_append.mp hi' with hold | hnew
    · obtain ⟨o', ho', hall⟩ := h.all i' hold
      refine ⟨o', he.keeps.object ho', fun site' hsite' => ?_⟩
      obtain ⟨j', hj', hobj⟩ := hall site' hsite'
      exact ⟨j', IdSet.mem_insert.mpr (.inr hj'), he.keeps.object hobj⟩
    · rw [List.mem_singleton.mp hnew]
      refine ⟨o, he.keeps.object hi, fun site' hsite' => ?_⟩
      rw [hsite] at hsite'
      cases hsite'
      exact ⟨j, IdSet.mem_insert.mpr (.inl rfl), hj⟩

omit [DecidableEq κ] in
/-- What re-tagging one more object does. -/
theorem retag_append (rules : Sensitivity κ ν) (ty : Ty) (s : EngineState κ ν) (objects : List Nat)
    (i : Nat) :
    retag rules ty s (objects ++ [i])
      = match (retag rules ty s objects).2.taintSource? rules i with
        | some source =>
          ((retag rules ty s objects).1.insert
              ((retag rules ty s objects).2.taintObject rules source ty).1,
            ((retag rules ty s objects).2.taintObject rules source ty).2)
        | none => retag rules ty s objects := by
  unfold retag
  rw [List.foldl_append]
  rfl

/-- **Re-tagging objects** extends the state by the objects it makes. -/
theorem retag_extends (hR : R.TaintFaithful p rules A) (h : Within R heap S s) (ty : Ty)
    (objects : List Nat) (hknown : ∀ i ∈ objects, ∃ o, R.object? s.heap s.names i = some o) :
    let out := retag rules ty s objects
    Within R heap S out.2 ∧ Extends R s out.2 ∧ Retagged R A ty objects out := by
  -- the loop is followed from its end, so that what is made so far is at hand
  induction objects using List.reverseRecOn with
  | nil =>
    exact ⟨h, .refl R s, fun j hj => absurd hj IdSet.not_mem_empty,
      fun i hi => absurd hi List.not_mem_nil⟩
  | append_singleton objects i ih =>
    obtain ⟨hw, he, hr⟩ := ih fun i' hi' => hknown i' (List.mem_append_left _ hi')
    obtain ⟨o, ho⟩ := hknown i (List.mem_append_right _ (List.mem_singleton_self i))
    have hi := he.keeps.object ho
    intro out
    simp only [out, retag_append, taintSource?_eq hR hw.valid hi]
    cases hsource : (A.heapObject o).taintSource? with
    | none => exact ⟨hw, he, hr.skip hi hsource⟩
    | some site =>
      obtain ⟨hw', he', hj⟩ := taintObject_extends hR hw site ty
      exact ⟨hw', he.trans he', hr.tag he' hi hsource hj⟩

/-- **Passing objects on along an edge of the plugin** does what the edge asks for. -/
theorem pass_extends (hR : R.TaintFaithful p rules A) (h : Within R heap S s) {e : TaintEdge}
    (he : JustifiedRetag R A S s e) {objects : IdSet}
    (hobjects : ∀ i ∈ objects, R.Justified S s e.source i) :
    let t := pass rules s objects e.target e.ty
    Within R heap S t ∧ Extends R s t ∧ ∀ i ∈ objects, Passed R A e i t := by
  intro t
  obtain ⟨x, y, hx, hy, hretags⟩ := he
  obtain ⟨b, hb, -⟩ := Option.bind_eq_some_iff.mp hy
  obtain ⟨hw₁, he₁, hr⟩ := retag_extends hR h e.ty objects.elems fun i hi => by
    obtain ⟨_, o, _, ho, _⟩ := hobjects i hi
    exact ⟨o, ho⟩
  have hjust : ∀ j ∈ (retag rules e.ty s objects.elems).1,
      R.Justified S (retag rules e.ty s objects.elems).2 e.target j := by
    intro j hj
    obtain ⟨i, hi, o, site, ho, hsite, hobj⟩ := hr.made j hj
    obtain ⟨x', o', hx', ho', hS⟩ := hobjects i hi
    rw [hx] at hx'
    cases hx'
    have hsame := (he₁.keeps.object ho').symm.trans ho
    cases hsame
    exact ⟨y, _, he₁.placeAt hy, hobj, hretags _ site hS hsite⟩
  have hsent : Within R heap S t ∧ Extends R (retag rules e.ty s objects.elems).2 t ∧
      ∀ j ∈ (retag rules e.ty s objects.elems).1, t.Pending e.target j := by
    simp only [t, pass]
    split
    · rename_i hempty
      refine ⟨hw₁, .refl R _, fun j hj => ?_⟩
      rw [IdSet.isEmpty_iff.mp hempty] at hj
      exact absurd hj IdSet.not_mem_empty
    · exact EngineState.send_extends hw₁ e.target _ hjust
  obtain ⟨hw₂, he₂, hpending⟩ := hsent
  refine ⟨hw₂, he₁.trans he₂, fun i hi => ?_⟩
  obtain ⟨o, ho, hall⟩ := hr.all i hi
  have hb' := (he₁.trans he₂).pointers _ b hb
  refine ⟨b, o, hb', he₂.keeps.object ho, fun site hsite => ?_⟩
  obtain ⟨j, hj, hobj⟩ := hall site hsite
  exact ⟨j, he₂.keeps.object hobj, e.target, hb', .inr (hpending j hj)⟩

/-! ## 4. Sources, transfers and sinks of a call -/

/-- A source puts tainted data on its way to the result of the call. -/
theorem addSource_extends (hR : R.TaintFaithful p rules A) (h : Within R heap S s) {c : κ} {k : K}
    (hc : R.context? s.heap s.names c = some k) {site : Site} {x : VarId} {ty : Ty}
    (hS : S.pointsTo (.var k x) (A.unallocated (.tainted site ty))) :
    let t := addSource rules site c x s ty
    Within R heap S t ∧ Extends R s t ∧ SourceTracked R A site c x ty t := by
  intro t
  obtain ⟨hw₁, he₁, hobj⟩ := taintObject_extends hR h site ty
  obtain ⟨hw₂, he₂, hr⟩ := EngineState.sendTo_extends hw₁
    (Reading.place?_var (he₁.keeps.context hc) x) hobj hS
  exact ⟨hw₂, he₁.trans he₂, _, he₂.keeps.object hobj, hr⟩

/-- The pointer of a slot is numbered on first use, if the call has the slot. -/
theorem slotPointer_extends (h : Within R heap S s) (c : κ) (i : Invoke) (slot : Slot) :
    let out := slotPointer s c i slot
    Within R heap S out.2 ∧ Extends R s out.2 ∧
      (slotVar? i slot = none ∧ out.1 = none ∨
        ∃ v id, slotVar? i slot = some v ∧ out.1 = some id ∧
          out.2.graph.pointer? id = some (.var c v)) := by
  unfold slotPointer
  cases hv : slotVar? i slot with
  | none => exact ⟨h, .refl R s, .inl ⟨rfl, rfl⟩⟩
  | some v =>
    obtain ⟨hid, hw, he⟩ := EngineState.pointer_extends h (.var c v)
    exact ⟨hw, he, .inr ⟨v, _, rfl, rfl, hid⟩⟩

/-- A new edge of the plugin, over which the tainted data at its source is passed on. -/
theorem Tracks.addEdge (hR : R.TaintFaithful p rules A) (h : Within R heap S s)
    {memory : TaintMemory} (ht : Tracks R A p taint S (s, memory)) {e : TaintEdge}
    (he : JustifiedRetag R A S s e) :
    let t := pass rules s (s.pointsTo e.source) e.target e.ty
    let added : TaintMemory := { memory with edges := memory.edges ++ [e] }
    Within R heap S t ∧ Tracks R A p taint S (t, added) ∧ Follows R (s, memory) (t, added) := by
  intro t added
  obtain ⟨hw, hext, hpassed⟩ := pass_extends hR h he fun i hi => h.points e.source i hi
  have hkept := ht.extends hext
  refine ⟨hw, ⟨fun e' he' => ?_, fun e' he' i hi => ?_, hkept.sinks, hkept.flows⟩, hext,
    fun e' he' => List.mem_append_left _ he', fun _ hk => hk⟩
  · rcases List.mem_append.mp he' with hold | hnew
    · exact hkept.edges e' hold
    · rw [List.mem_singleton.mp hnew]
      exact he.grows hext.grows
  · rcases List.mem_append.mp he' with hold | hnew
    · exact hkept.passed e' hold i hi
    · rw [List.mem_singleton.mp hnew] at hi ⊢
      exact hpassed i ((hext.sets _) ▸ hi)

/-- **Adding a transfer** makes the plugin remember its edge, if the call has both slots. -/
theorem addTransfer_follows (hR : R.TaintFaithful p rules A) {memory : TaintMemory}
    (h : Within R heap S s) (ht : Tracks R A p taint S (s, memory)) {c : κ} {k : K}
    (hc : R.context? s.heap s.names c = some k) {i : Invoke} {tr : Transfer}
    (hS : ∀ x y, slotVar? i tr.source = some x → slotVar? i tr.target = some y →
      S.Retags A (.var k x) (.var k y) tr.ty) :
    let out := addTransfer rules c i (s, memory) tr
    Within R heap S out.1 ∧ Tracks R A p taint S out ∧ Follows R (s, memory) out ∧
      TransferTracked c i tr out := by
  intro out
  obtain ⟨hw₁, he₁, hsource⟩ := slotPointer_extends h c i tr.source
  obtain ⟨hw₂, he₂, htarget⟩ := slotPointer_extends hw₁ c i tr.target
  have he := he₁.trans he₂
  have hkept := ht.extends he
  have hfollows : Follows R (s, memory)
      ((slotPointer (slotPointer s c i tr.source).2 c i tr.target).2, memory) :=
    ⟨he, fun _ hm => hm, fun _ hm => hm⟩
  simp only [out, addTransfer]
  rcases hsource with ⟨hno, hs⟩ | ⟨x, id, hx, hs, hid⟩
  · rw [hs]
    exact ⟨hw₂, hkept, hfollows, fun x y hx => by rw [hno] at hx; cases hx⟩
  · rw [hs]
    rcases htarget with ⟨hno, hd⟩ | ⟨y, id', hy, hd, hid'⟩
    · rw [hd]
      exact ⟨hw₂, hkept, hfollows, fun x' y _ hy => by rw [hno] at hy; cases hy⟩
    · rw [hd]
      simp only
      have hidx := he₂.pointers _ _ hid
      have hjust : JustifiedRetag R A S
          (slotPointer (slotPointer s c i tr.source).2 c i tr.target).2 ⟨id, id', tr.ty⟩ :=
        ⟨_, _, Option.bind_eq_some_iff.mpr ⟨_, hidx, Reading.place?_var (he.keeps.context hc) x⟩,
          Option.bind_eq_some_iff.mpr ⟨_, hid', Reading.place?_var (he.keeps.context hc) y⟩,
          hS x y hx hy⟩
      split
      · rename_i hmem
        refine ⟨hw₂, hkept, hfollows, fun x' y' hx' hy' => ?_⟩
        rw [hx] at hx'
        rw [hy] at hy'
        cases hx'
        cases hy'
        exact ⟨id, id', hidx, hid', hmem⟩
      · obtain ⟨hw₃, ht₃, hf₃⟩ := Tracks.addEdge hR hw₂ hkept hjust
        refine ⟨hw₃, ht₃, hfollows.trans hf₃, fun x' y' hx' hy' => ?_⟩
        rw [hx] at hx'
        rw [hy] at hy'
        cases hx'
        cases hy'
        exact ⟨id, id', hf₃.state.pointers _ _ hidx, hf₃.state.pointers _ _ hid',
          List.mem_append_right _ (List.mem_singleton_self _)⟩

/-- **Adding a sink** makes the plugin remember the argument, if the call has it. -/
theorem addSink_follows {memory : TaintMemory} (h : Within R heap S s)
    (ht : Tracks R A p taint S (s, memory)) {c : κ} {k : K}
    (hc : R.context? s.heap s.names c = some k) {site : Site} {i : Invoke} {n : Nat}
    {b : Qualified K MethodId} (hstmt : p.stmt? site = some (.call i))
    (hcall : S.calls ⟨k, site⟩ b) (hn : n ∈ taint.sinksOf b.item) :
    let out := addSink site c i (s, memory) n
    Within R heap S out.1 ∧ Tracks R A p taint S out ∧ Follows R (s, memory) out ∧
      SinkTracked site c i n out := by
  unfold addSink
  cases hv : i.args[n]? with
  | none =>
    exact ⟨h, ht, .refl R _, fun v hv' => by rw [hv] at hv'; cases hv'⟩
  | some v =>
    obtain ⟨hid, hw, he⟩ := EngineState.pointer_extends h (.var c v)
    have hkept := ht.extends he
    simp only
    split
    · rename_i hmem
      refine ⟨hw, hkept, ⟨he, fun _ hm => hm, fun _ hm => hm⟩, fun v' hv' => ?_⟩
      rw [hv] at hv'
      cases hv'
      exact ⟨_, hid, hmem⟩
    · refine ⟨hw, ⟨hkept.edges, hkept.passed, fun k' hk' => ?_, hkept.flows⟩,
        ⟨he, fun _ hm => hm, fun _ hm => List.mem_append_left _ hm⟩, fun v' hv' => ?_⟩
      · rcases List.mem_append.mp hk' with hold | hnew
        · exact hkept.sinks k' hold
        · rw [List.mem_singleton.mp hnew]
          exact ⟨k, b, i, v, Option.bind_eq_some_iff.mpr
            ⟨_, hid, Reading.place?_var (he.keeps.context hc) v⟩, hcall, hn, hstmt, hv⟩
      · rw [hv] at hv'
        cases hv'
        exact ⟨_, hid, List.mem_append_right _ (List.mem_singleton_self _)⟩

/-! ## 5. The plugin takes part in the analysis -/

/-- The sources of a callee put tainted data on its way to the result of the call, if it has
    one. -/
theorem addSources_extends (hR : R.TaintFaithful p rules A)
    (hS : S.TaintClosed p heap taint A start) (h : Within R heap S s) {c : κ}
    {a : Qualified K Site} {b : Qualified K MethodId} {i : Invoke}
    (hc : R.context? s.heap s.names c = some a.context) (hcall : S.calls a b)
    (hstmt : p.stmt? a.item = some (.call i)) :
    let t := match i.result with
      | some result => (taint.sourcesOf b.item).foldl (addSource rules a.item c result) s
      | none => s
    Within R heap S t ∧ Extends R s t ∧ ∀ x ty, i.result = some x → ty ∈ taint.sourcesOf b.item →
      SourceTracked R A a.item c x ty t := by
  cases hx : i.result with
  | none => exact ⟨h, .refl R s, fun x ty hx' => by cases hx'⟩
  | some x =>
    obtain ⟨hw, he, hall⟩ := EngineState.foldl_extends
      (Q := fun ty u => SourceTracked R A a.item c x ty u) (fun he hq => hq.grows he.grows)
      (taint.sourcesOf b.item) h (f := addSource rules a.item c x) fun ty hty u hu hsu =>
        addSource_extends hR hu (hsu.keeps.context hc) (hS.source hcall hstmt hx hty)
    refine ⟨hw, he, fun x' ty hx' hty => ?_⟩
    cases hx'
    exact hall ty hty

omit [DecidableEq κ] in
/-- Nothing is asked for at a site that is no call. -/
theorem tracked_of_no_call {e : ContextCallEdge κ} (h : p.invoke? e.site.item = none)
    (run : EngineState κ ν × TaintMemory) : CallTracked R A p taint e run := by
  have hnone : ∀ i, ¬ p.stmt? e.site.item = some (.call i) := by
    intro i hi
    rw [Program.invoke?_eq_some_iff.mpr hi] at h
    cases h
  exact ⟨fun i _ _ hi => absurd hi (hnone i), fun i _ hi => absurd hi (hnone i),
    fun i _ hi => absurd hi (hnone i)⟩

/-- **Taking up a new call edge does what the edge asks for.** -/
theorem onCall_follows (hR : R.TaintFaithful p rules A) (hS : S.TaintClosed p heap taint A start)
    {memory : TaintMemory} (h : Within R heap S s) (ht : Tracks R A p taint S (s, memory))
    {e : ContextCallEdge κ} (hj : R.JustifiedCall S s e) :
    let out := onCall p taint rules e (s, memory)
    Within R heap S out.1 ∧ Tracks R A p taint S out ∧ Follows R (s, memory) out ∧
      CallTracked R A p taint e out := by
  obtain ⟨⟨ka, site⟩, b, ha, hb, hcall⟩ := hj
  obtain ⟨k, hka, hsame⟩ := Option.map_eq_some_iff.mp ha
  cases hsame
  obtain ⟨kb, hkb, rfl⟩ := Option.map_eq_some_iff.mp hb
  unfold onCall
  cases hinvoke : p.invoke? e.site.item with
  | none => exact ⟨h, ht, .refl R _, tracked_of_no_call hinvoke _⟩
  | some i =>
    have hstmt := Program.invoke?_eq_some_iff.mp hinvoke
    obtain ⟨hw₁, he₁, hsources⟩ := addSources_extends hR hS h hka hcall hstmt
    have ht₁ := ht.extends he₁
    have hf₁ : Follows R (s, memory) (_, memory) := ⟨he₁, fun _ hm => hm, fun _ hm => hm⟩
    obtain ⟨hw₂, ht₂, hf₂, htransfers⟩ := foldl_follows
      (Q := fun tr run => TransferTracked e.site.context i tr run)
      (fun hf hq => hq.keep hf.state.pointers hf.edges) (taint.transfersOf e.callee.item) hw₁ ht₁
      (f := addTransfer rules e.site.context i) fun tr htr mid hmid htmid hfmid =>
        addTransfer_follows hR hmid htmid ((he₁.trans hfmid.state).keeps.context hka)
          fun x y hx hy => hS.transfer hcall hstmt htr hx hy
    obtain ⟨hw₃, ht₃, hf₃, hsinks⟩ := foldl_follows
      (Q := fun n run => SinkTracked e.site.item e.site.context i n run)
      (fun hf hq => hq.keep hf.state.pointers hf.sinks) (taint.sinksOf e.callee.item) hw₂ ht₂
      (f := addSink e.site.item e.site.context i) fun n hn mid hmid htmid hfmid =>
        addSink_follows hmid htmid
          ((he₁.trans (hf₂.state.trans hfmid.state)).keeps.context hka) hstmt hcall hn
    refine ⟨hw₃, ht₃, hf₁.trans (hf₂.trans hf₃), fun i' x ty hi' hx hty => ?_,
      fun i' tr hi' htr => ?_, fun i' n hi' hn => ?_⟩ <;> rw [hstmt] at hi' <;> cases hi'
    · exact (hsources x ty hx hty).grows (hf₂.state.trans hf₃.state).grows
    · exact (htransfers tr htr).keep hf₃.state.pointers hf₃.edges
    · exact hsinks n hn

/-- **New objects at a pointer are passed on along the edges out of it.** -/
theorem onObjects_passed (hR : R.TaintFaithful p rules A) {memory : TaintMemory}
    (h : Within R heap S s) (hedges : ∀ e ∈ memory.edges, JustifiedRetag R A S s e)
    {id : PointerId} {delta : IdSet} (hdelta : ∀ i ∈ delta, i ∈ s.pointsTo id) :
    let t := (onObjects rules id delta (s, memory)).1
    Within R heap S t ∧ Extends R s t ∧
      ∀ e ∈ memory.edges, e.source = id → ∀ i ∈ delta, Passed R A e i t := by
  obtain ⟨hw, he, hall⟩ := EngineState.foldl_extends
    (Q := fun (e : TaintEdge) u => ∀ i ∈ delta, Passed R A e i u)
    (fun he hq i hi => (hq i hi).grows he.grows) (memory.edges.filter (·.source = id)) h
    (f := fun s e => pass rules s delta e.target e.ty) fun e he u hu hsu => by
      obtain ⟨hmem, hsource⟩ := List.mem_filter.mp he
      refine pass_extends hR hu ((hedges e hmem).grows hsu.grows) fun i hi => ?_
      rw [of_decide_eq_true hsource]
      exact hsu.justified (h.points id i (hdelta i hi))
  exact ⟨hw, he, fun e hmem hsource =>
    hall e (List.mem_filter.mpr ⟨hmem, decide_eq_true hsource⟩)⟩

end Taint

section Tracking

variable {κ ν K O : Type} [DecidableEq κ] {R : Reading κ ν K O} {A : TaintAbstraction K O}
  {p : Program} {taint : TaintRules} {rules : Sensitivity κ ν} {heap : HeapPolicy}
  {S : Solution K O} {start : MethodId} {s : EngineState κ ν}

/-- What the plugin is not told of keeps its invariant. -/
theorem Tracking.calm {t : EngineState κ ν} {memory : TaintMemory}
    (hJ : Tracking R A p taint S s memory) (hcalm : Calm R p s t) :
    Tracking R A p taint S t memory := by
  refine ⟨hJ.tracks.grows hcalm.grows hcalm.sets, fun e he => ?_⟩
  rcases hcalm.edges e he with hold | hinvoke
  · exact (hJ.calls e hold).keep hcalm.grows (fun _ hm => hm) fun _ hm => hm
  · exact Taint.tracked_of_no_call hinvoke _

/-- **When objects arrive the plugin keeps its invariant.** -/
theorem Tracking.onObjects (hR : R.TaintFaithful p rules A) {u : EngineState κ ν}
    {memory : TaintMemory} {id : PointerId} {objects delta : IdSet}
    (hJ : Tracking R A p taint S s memory) (hu : Within R heap S u) (ha : Arrival s id objects u)
    (hdelta : ∀ i, i ∈ delta ↔ i ∈ objects ∧ ¬ i ∈ s.pointsTo id) :
    let t := (Taint.onObjects rules id delta (u, memory)).1
    Within R heap S t ∧ Extends R u t ∧ Tracking R A p taint S t memory := by
  have hgrows : Grows R s u := ha.grows
  obtain ⟨hw, he, hpassed⟩ := Taint.onObjects_passed hR hu
    (fun e hmem => (hJ.tracks.edges e hmem).grows hgrows)
    fun i hi => (ha.sets id i).mpr (.inr ⟨rfl, ((hdelta i).mp hi).1⟩)
  have hgrows' := hgrows.trans he.grows
  refine ⟨hw, he, ⟨fun e hmem => (hJ.tracks.edges e hmem).grows hgrows', fun e hmem i hi => ?_,
    fun k hmem => (hJ.tracks.sinks k hmem).grows hgrows', hJ.tracks.flows⟩, fun e hmem => ?_⟩
  · -- what was at the source before has been passed on, and what is new there just now
    have hi' : i ∈ u.pointsTo e.source := (he.sets e.source) ▸ hi
    by_cases hold : i ∈ s.pointsTo e.source
    · exact (hJ.tracks.passed e hmem i hold).grows hgrows'
    · rcases (ha.sets _ i).mp hi' with hold' | ⟨hsource, hnew⟩
      · exact absurd hold' hold
      · exact hpassed e hmem hsource i ((hdelta i).mpr ⟨hnew, hsource ▸ hold⟩)
  · rw [he.calls, ha.calls] at hmem
    exact (hJ.calls e hmem).keep hgrows' (fun _ hm => hm) fun _ hm => hm

/-- **When a call edge was connected the plugin keeps its invariant.** -/
theorem Tracking.onCall (hR : R.TaintFaithful p rules A)
    (hS : S.TaintClosed p heap taint A start) {u : EngineState κ ν} {memory : TaintMemory}
    {e : ContextCallEdge κ} (hJ : Tracking R A p taint S s memory) (hu : Within R heap S u)
    (hgrows : Grows R s u) (hsets : ∀ id i, i ∈ u.pointsTo id → i ∈ s.pointsTo id)
    (hedges : ∀ e', e' ∈ u.calls.edges ↔ e' ∈ s.calls.edges ∨ e' = e) :
    let out := Taint.onCall p taint rules e (u, memory)
    Within R heap S out.1 ∧ Extends R u out.1 ∧ Tracking R A p taint S out.1 out.2 := by
  obtain ⟨hw, ht, hf, htracked⟩ := Taint.onCall_follows hR hS hu (hJ.tracks.grows hgrows hsets)
    (hu.calls e ((hedges e).mpr (.inr rfl)))
  refine ⟨hw, hf.state, ht, fun e' hmem => ?_⟩
  rw [hf.state.calls] at hmem
  rcases (hedges e').mp hmem with hold | rfl
  · exact (hJ.calls e' hold).keep (hgrows.trans hf.state.grows) hf.edges hf.sinks
  · exact htracked

/-- **Taint tracking takes part in the analysis**, within every solution that is closed under its
    rules. -/
theorem Taint.plugin_cooperates (hR : R.TaintFaithful p rules A)
    (hS : S.TaintClosed p heap taint A start) :
    (Taint.plugin p taint : Plugin κ ν TaintMemory).Cooperates R p rules heap S
      (Tracking R A p taint S) where
  calm hcalm hJ := hJ.calm hcalm
  onObjects hu ha hdelta hJ := hJ.onObjects hR hu ha hdelta
  onCall hu hgrows hsets hedges hJ := hJ.onCall hR hS hu hgrows hsets hedges

omit [DecidableEq κ] in
/-- Before the first call there is nothing to track. -/
theorem Taint.tracking_start (hedges : s.calls.edges = #[]) : Tracking R A p taint S s {} := by
  refine ⟨⟨fun e he => absurd he List.not_mem_nil, fun e he => absurd he List.not_mem_nil,
    fun k hk => absurd hk List.not_mem_nil, rfl⟩, fun e he => ?_⟩
  rw [hedges] at he
  simp at he

end Tracking

end ObjectFlow
