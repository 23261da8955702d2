/-
  File:      ObjectFlow/Proofs/Taint/OneContext.lean
  Subject:   WITH ONE CONTEXT TAINT TRACKING IS TAINT TRACKING WITHOUT CONTEXTS.

  The plugin remembers numbers of pointers and no contexts, so on mirrored states it remembers
  the same; with `OneContext.analyzeWithin_forget` this makes the whole analysis the same.
-/
import ObjectFlow.Proofs.PointsTo.OneContext
import ObjectFlow.Proofs.Taint.Vocabulary

namespace ObjectFlow

namespace OneContext

/-! ## 1. Tainted data -/

section Mirrors

variable {n : Nat} {s : EngineState Unit Unit} {t : EngineState ContextId ContextNames}

theorem Mirrors.taintSource? (h : Mirrors n s t) {i : Nat} (hi : i < n) :
    t.taintSource? rules i = s.taintSource? Plain.sensitivity i := by
  unfold EngineState.taintSource?
  rw [h.heapObject hi, h.heap]
  rfl

/-- The object of tainted data gets the same number. -/
theorem Mirrors.taintObject (h : Mirrors n s t) (source : Site) (ty : Ty) :
    (t.taintObject rules source ty).1 = (s.taintObject Plain.sensitivity source ty).1 ∧
      (s.taintObject Plain.sensitivity source ty).1
        < (s.taintObject Plain.sensitivity source ty).2.heap.size ∧
      s.heap.size ≤ (s.taintObject Plain.sensitivity source ty).2.heap.size ∧
      Mirrors n (s.taintObject Plain.sensitivity source ty).2
        (t.taintObject rules source ty).2 := by
  obtain ⟨hid, hlt, hle, hmade⟩ := h.all.intern ⟨.taint source, ty⟩
  exact ⟨hid, hlt, hle, hmade.weaken (Nat.le_trans h.size hle)⟩

/-- Re-tagging gives the same objects, all of them in use. -/
theorem Mirrors.retag (h : Mirrors n s t) (ty : Ty) (objects : List Nat)
    (ho : ∀ i ∈ objects, i < n) :
    let out := Taint.retag Plain.sensitivity ty s objects
    let out' := Taint.retag rules ty t objects
    out'.1 = out.1 ∧ (∀ j ∈ out.1, j < out.2.heap.size) ∧ Mirrors n out.2 out'.2 := by
  induction objects using List.reverseRecOn with
  | nil => exact ⟨rfl, fun j hj => absurd hj IdSet.not_mem_empty, h⟩
  | append_singleton objects i ih =>
    obtain ⟨hsame, hbelow, hm⟩ := ih fun i' hi' => ho i' (List.mem_append_left _ hi')
    have hi := ho i (List.mem_append_right _ (List.mem_singleton_self i))
    simp only [Taint.retag_append, hm.taintSource? hi]
    cases (Taint.retag Plain.sensitivity ty s objects).2.taintSource? Plain.sensitivity i with
    | none => exact ⟨hsame, hbelow, hm⟩
    | some source =>
      obtain ⟨hid, hlt, hle, hmade⟩ := hm.taintObject source ty
      simp only [hsame, hid]
      refine ⟨trivial, fun j hj => ?_, hmade⟩
      rcases IdSet.mem_insert.mp hj with rfl | hold
      · exact hlt
      · exact Nat.lt_of_lt_of_le (hbelow j hold) hle

theorem Mirrors.pass (h : Mirrors n s t) {objects : IdSet} (ho : ∀ i ∈ objects, i < n)
    (target : PointerId) (ty : Ty) :
    Mirrors n (Taint.pass Plain.sensitivity s objects target ty)
      (Taint.pass rules t objects target ty) := by
  obtain ⟨hsame, hbelow, hm⟩ := h.retag ty objects.elems ho
  unfold Taint.pass
  simp only [hsame]
  split
  · exact hm
  · exact hm.send target hbelow

/-! ## 2. Calls -/

theorem Mirrors.slotPointer (h : Mirrors n s t) (i : Invoke) (slot : Slot) :
    (Taint.slotPointer t Contexts.empty i slot).1 = (Taint.slotPointer s () i slot).1 ∧
      Mirrors n (Taint.slotPointer s () i slot).2
        (Taint.slotPointer t Contexts.empty i slot).2 := by
  unfold Taint.slotPointer
  cases Taint.slotVar? i slot with
  | none => exact ⟨rfl, h⟩
  | some v =>
    obtain ⟨hid, hpointer⟩ := h.pointer (a := .var () v) trivial
    exact ⟨congrArg some hid, hpointer⟩

theorem Mirrors.addSource (h : Mirrors n s t) (site : Site) (result : VarId) (ty : Ty) :
    Mirrors n (Taint.addSource Plain.sensitivity site () result s ty)
      (Taint.addSource rules site Contexts.empty result t ty) := by
  obtain ⟨hid, hlt, -, hmade⟩ := h.taintObject site ty
  exact (hmade.all.sendTo (a := .var () result) trivial hlt hid).weaken hmade.size

theorem Mirrors.addTransfer (h : Mirrors n s t) (i : Invoke) (memory : TaintMemory)
    (tr : Transfer) :
    MirrorsRun n (Taint.addTransfer Plain.sensitivity () i (s, memory) tr)
      (Taint.addTransfer rules Contexts.empty i (t, memory) tr) := by
  obtain ⟨hsource, h₁⟩ := h.slotPointer i tr.source
  obtain ⟨htarget, h₂⟩ := h₁.slotPointer i tr.target
  unfold Taint.addTransfer
  simp only [hsource, htarget]
  split
  · split
    · exact ⟨h₂, rfl⟩
    · refine ⟨?_, rfl⟩
      rw [h₂.pointsTo]
      exact (h₂.all.pass (fun i hi => h₂.known.sets _ i hi) _ _).weaken h₂.size
  · exact ⟨h₂, rfl⟩

theorem Mirrors.addSink (h : Mirrors n s t) (site : Site) (i : Invoke) (memory : TaintMemory)
    (k : Nat) :
    MirrorsRun n (Taint.addSink site () i (s, memory) k)
      (Taint.addSink site Contexts.empty i (t, memory) k) := by
  unfold Taint.addSink
  cases i.args[k]? with
  | none => exact ⟨h, rfl⟩
  | some v =>
    obtain ⟨hid, hpointer⟩ := h.pointer (a := .var () v) trivial
    have hid' : (t.pointer (.var Contexts.empty v)).1 = (s.pointer (.var () v)).1 := hid
    simp only [hid']
    split
    · exact ⟨hpointer, rfl⟩
    · exact ⟨hpointer, rfl⟩

/-- Loops that keep states mirrored and memories the same. -/
theorem MirrorsRun.foldl {α : Type} {run : EngineState Unit Unit × TaintMemory}
    {run' : EngineState ContextId ContextNames × TaintMemory}
    {f : EngineState Unit Unit × TaintMemory → α → EngineState Unit Unit × TaintMemory}
    {f' : EngineState ContextId ContextNames × TaintMemory → α →
      EngineState ContextId ContextNames × TaintMemory}
    (l : List α)
    (hf : ∀ a s t memory, Mirrors n s t → MirrorsRun n (f (s, memory) a) (f' (t, memory) a))
    (h : MirrorsRun n run run') : MirrorsRun n (l.foldl f run) (l.foldl f' run') := by
  induction l generalizing run run' with
  | nil => exact h
  | cons a l ih =>
    obtain ⟨s, memory⟩ := run
    obtain ⟨t, memory'⟩ := run'
    obtain rfl : memory' = memory := h.2
    exact ih (hf a s t memory' h.1)

theorem Mirrors.onCall (h : Mirrors n s t) (p : Program) (taint : TaintRules)
    (e : ContextCallEdge Unit) (memory : TaintMemory) :
    MirrorsRun n (Taint.onCall p taint Plain.sensitivity e (s, memory))
      (Taint.onCall p taint rules (edge e) (t, memory)) := by
  unfold Taint.onCall
  have hinvoke : p.invoke? (edge e).site.item = p.invoke? e.site.item := rfl
  simp only [hinvoke]
  cases p.invoke? e.site.item with
  | none => exact ⟨h, rfl⟩
  | some i =>
    refine MirrorsRun.foldl _ (fun k _ _ memory h => h.addSink _ i memory k)
      (MirrorsRun.foldl _ (fun tr _ _ memory h => h.addTransfer i memory tr) ⟨?_, rfl⟩)
    cases i.result with
    | none => exact h
    | some result => exact Mirrors.foldl _ (fun ty _ _ _ h => h.addSource _ result ty) h

theorem Mirrors.flowsInto (h : Mirrors n s t) (sink : SinkSlot) :
    Taint.flowsInto rules t sink = Taint.flowsInto Plain.sensitivity s sink := by
  unfold Taint.flowsInto
  rw [h.pointsTo]
  refine List.filterMap_congr fun i hi => ?_
  rw [h.all.taintSource? (h.known.sets sink.pointer i hi)]

/-- **Taint tracking on mirrored states remembers and finds the same.** -/
theorem taint_mirrored (p : Program) (taint : TaintRules) :
    Mirrored (Taint.plugin p taint) (Taint.plugin p taint) where
  onObjects id delta memory h hdelta :=
    ⟨Mirrors.foldl _ (fun e _ _ _ h => h.pass hdelta e.target e.ty) h, rfl⟩
  onCall e memory h := h.onCall p taint e memory
  onFinish memory h := by
    simp only [Taint.plugin]
    rw [funext h.flowsInto]

end Mirrors

end OneContext

/-! ## 3. The whole analysis -/

/-- **With the insensitive selector the analysis with contexts is the one without**, for every
    program, entry method, heap policy and order of work, with taint tracking by any rules and
    without: both end, and forgetting the one context in the result of the first gives exactly the
    result of the second, the same objects under the same numbers, the same sets, and the same
    methods and call edges in the same order; and taint tracking reports the same flows. -/
theorem insensitive_is_plain (p : Program) (options : PointsToOptions) (taint : TaintRules)
    (entry : MethodId) :
    (∃ n r memory, ∀ m, n ≤ m →
      ContextSensitive.analyzeWithin p { options with selector := .insensitive }
        (Taint.plugin p taint) {} m entry = some (r, memory) ∧
      Plain.analyzeWithin p options (Taint.plugin p taint) {} m entry
        = some (r.forget, memory)) ∧
    (∃ n r, ∀ m, n ≤ m →
      ContextSensitive.analyzeWithin p { options with selector := .insensitive } Plugin.none () m
        entry = some (r, ()) ∧
      Plain.analyzeWithin p options Plugin.none () m entry = some (r.forget, ())) := by
  constructor
  · obtain ⟨n, ⟨r, memory⟩, hn⟩ := ContextSensitive.taintAnalysis_ends p
      { options with selector := .insensitive } taint entry
    refine ⟨n, r, memory, fun m hm => ⟨hn m hm, ?_⟩⟩
    rw [← OneContext.analyzeWithin_forget (OneContext.taint_mirrored p taint), hn m hm]
    rfl
  · obtain ⟨n, ⟨r, _⟩, hn⟩ := ContextSensitive.bareAnalysis_ends p
      { options with selector := .insensitive } entry
    refine ⟨n, r, fun m hm => ⟨hn m hm, ?_⟩⟩
    rw [← OneContext.analyzeWithin_forget OneContext.none_mirrored, hn m hm]
    rfl

end ObjectFlow
