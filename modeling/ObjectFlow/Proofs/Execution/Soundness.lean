/-
  File:      ObjectFlow/Proofs/Execution/Soundness.lean
  Subject:   THE POINTER ANALYSIS COVERS EVERY RUN: what a run enters, calls and stores is in the
             result of the analysis.

  The invariant is stated against any solution closed under the rules of the analysis, with
  objects seen as the abstract objects of their allocations:

  * `Allows`: a place may point to what a value refers to;
  * `Covered`: every frame, field and element of a machine is allowed what it holds, and frames
    wait at calls the solution knows;
  * `covered_of_step`, `covered_of_run`: kept by steps, and so by runs;
  * `analysis_reports_runs`: the result of a finished analysis covers every run from its entry.
-/
import Mathlib.Data.List.Chain
import ObjectFlow.Proofs.Execution.Machine
import ObjectFlow.Proofs.PointsTo.Plain

namespace ObjectFlow

namespace Execution

variable {S : Solution Unit HeapObject} {policy : HeapPolicy} {p : Program} {entry : MethodId}

/-! ## 1. Values a place may hold -/

/-- The abstract object of the allocation. -/
def Obj.abstract (policy : HeapPolicy) (o : Obj) : HeapObject :=
  Heap.objectFor policy o.site o.ty

theorem Obj.abstract_ty (o : Obj) : (o.abstract policy).ty = o.ty := by
  cases policy <;> rfl

/-- The object a value refers to is one the place may point to. -/
def Allows (S : Solution Unit HeapObject) (policy : HeapPolicy) (heap : Memory)
    (x : Place Unit HeapObject) (w : Value) : Prop :=
  ∀ a, w = .ref a → ∃ o, heap a = some o ∧ S.pointsTo x (o.abstract policy)

theorem allows_plain {heap : Memory} {x : Place Unit HeapObject} {w : Value} (h : w.IsPlain) :
    Allows S policy heap x w := by
  intro a hw
  rw [hw] at h
  exact absurd h id

theorem Allows.flow {heap : Memory} {x y : Place Unit HeapObject} {w : Value}
    (h : Allows S policy heap x w) (hflow : S.Flows x y) : Allows S policy heap y w := by
  intro a hw
  obtain ⟨o, ho, hx⟩ := h a hw
  exact ⟨o, ho, hflow _ hx⟩

/-- Every object keeps its address and its abstract object. -/
def Keeps (policy : HeapPolicy) (heap heap' : Memory) : Prop :=
  ∀ a o, heap a = some o → ∃ o', heap' a = some o' ∧ o'.abstract policy = o.abstract policy

theorem Keeps.refl (policy : HeapPolicy) (heap : Memory) : Keeps policy heap heap :=
  fun _ o ho => ⟨o, ho, rfl⟩

theorem Allows.keep {heap heap' : Memory} {x : Place Unit HeapObject} {w : Value}
    (h : Allows S policy heap x w) (hk : Keeps policy heap heap') : Allows S policy heap' x w := by
  intro a hw
  obtain ⟨o, ho, hx⟩ := h a hw
  obtain ⟨o', ho', hsame⟩ := hk a o ho
  exact ⟨o', ho', hsame ▸ hx⟩

theorem Memory.write_self (heap : Memory) (a : Nat) (o : Obj) : heap.write a o a = some o :=
  if_pos rfl

theorem Memory.write_of_ne {heap : Memory} {a b : Nat} (o : Obj) (h : ¬ b = a) :
    heap.write a o b = heap b :=
  if_neg h

theorem keeps_write_new {heap : Memory} {a : Nat} (o : Obj) (h : heap a = none) :
    Keeps policy heap (heap.write a o) := by
  intro b o' ho'
  have hne : ¬ b = a := by
    intro hba
    rw [hba, h] at ho'
    cases ho'
  exact ⟨o', (Memory.write_of_ne o hne).trans ho', rfl⟩

theorem keeps_write {heap : Memory} {a : Nat} {o o' : Obj} (h : heap a = some o)
    (hsame : o'.abstract policy = o.abstract policy) : Keeps policy heap (heap.write a o') := by
  intro b o'' ho''
  by_cases hba : b = a
  · subst hba
    rw [h, Option.some.injEq] at ho''
    subst ho''
    exact ⟨o', Memory.write_self heap b o', hsame⟩
  · exact ⟨o'', (Memory.write_of_ne o' hba).trans ho'', rfl⟩

/-! ## 2. The invariant -/

/-- The contents of one object are allowed. -/
structure ObjectCovered (S : Solution Unit HeapObject) (policy : HeapPolicy) (heap : Memory)
    (o : Obj) : Prop where
  field : ∀ f, Allows S policy heap (.field (o.abstract policy) f) (o.fields f)
  element : ∀ n, Allows S policy heap (.element (o.abstract policy)) (o.elements n)

/-- The method of a frame is reachable, and its variables are allowed what they hold. -/
structure FrameCovered (S : Solution Unit HeapObject) (policy : HeapPolicy) (heap : Memory)
    (f : Frame) : Prop where
  reachable : S.reachable ⟨(), f.method⟩
  locals : ∀ v, Allows S policy heap (.var () v) (f.locals v)

/-- A frame waits at a call of the method of the frame above it. -/
def Waits (S : Solution Unit HeapObject) (callee caller : Frame) : Prop :=
  S.calls ⟨(), caller.site⟩ ⟨(), callee.method⟩

/-- **All that a machine does and holds is in the solution.** -/
structure Covered (S : Solution Unit HeapObject) (policy : HeapPolicy) (m : Machine) : Prop where
  frames : ∀ f ∈ m.frames, FrameCovered S policy m.heap f
  waiting : m.frames.IsChain (Waits S)
  static : ∀ f, Allows S policy m.heap (.staticField f) (m.statics f)
  objects : ∀ a o, m.heap a = some o → ObjectCovered S policy m.heap o

theorem ObjectCovered.keep {heap heap' : Memory} {o : Obj} (h : ObjectCovered S policy heap o)
    (hk : Keeps policy heap heap') : ObjectCovered S policy heap' o :=
  ⟨fun f => (h.field f).keep hk, fun n => (h.element n).keep hk⟩

/-- Writing an object whose contents are allowed keeps all contents allowed. -/
theorem objects_write {heap : Memory} {a : Nat} {o : Obj}
    (h : ∀ a o, heap a = some o → ObjectCovered S policy heap o)
    (hk : Keeps policy heap (heap.write a o)) (ho : ObjectCovered S policy heap o) :
    ∀ b o', heap.write a o b = some o' → ObjectCovered S policy (heap.write a o) o' := by
  intro b o' hb
  by_cases hba : b = a
  · subst hba
    rw [Memory.write_self, Option.some.injEq] at hb
    subst hb
    exact ho.keep hk
  · rw [Memory.write_of_ne o hba] at hb
    exact (h b o' hb).keep hk

namespace FrameCovered

variable {heap heap' : Memory} {f : Frame}

theorem keep (h : FrameCovered S policy heap f) (hk : Keeps policy heap heap') :
    FrameCovered S policy heap' f :=
  ⟨h.reachable, fun v => (h.locals v).keep hk⟩

theorem goto (h : FrameCovered S policy heap f) (index : Nat) :
    FrameCovered S policy heap (f.goto index) :=
  ⟨h.reachable, h.locals⟩

theorem assign (h : FrameCovered S policy heap f) {x : VarId} {w : Value}
    (hw : Allows S policy heap (.var () x) w) : FrameCovered S policy heap (f.assign x w) := by
  refine ⟨h.reachable, fun v => ?_⟩
  unfold Frame.assign
  by_cases hv : v = x
  · subst hv
    simp only [if_pos]
    exact hw
  · simp only [if_neg hv]
    exact h.locals v

theorem receive (h : FrameCovered S policy heap f) {result : Option VarId} {w : Value}
    (hw : ∀ x, result = some x → Allows S policy heap (.var () x) w) :
    FrameCovered S policy heap (f.receive result w) := by
  cases result with
  | none => exact h
  | some x => exact h.assign (hw x rfl)

end FrameCovered

theorem Frame.receive_method (f : Frame) (result : Option VarId) (w : Value) :
    (f.receive result w).method = f.method := by
  cases result <;> rfl

/-- The innermost frame moves on, and storage may change. -/
theorem Covered.advance {f f' : Frame} {rest : List Frame} {statics statics' : FieldId → Value}
    {heap heap' : Memory} (h : Covered S policy ⟨f :: rest, statics, heap⟩)
    (hk : Keeps policy heap heap') (hf' : FrameCovered S policy heap' f')
    (hmethod : f'.method = f.method)
    (hstatic : ∀ g, Allows S policy heap' (.staticField g) (statics' g))
    (hobjects : ∀ a o, heap' a = some o → ObjectCovered S policy heap' o) :
    Covered S policy ⟨f' :: rest, statics', heap'⟩ := by
  refine ⟨fun g hg => ?_, ?_, hstatic, hobjects⟩
  · rcases List.mem_cons.mp hg with rfl | hg
    · exact hf'
    · exact (h.frames g (List.mem_cons_of_mem f hg)).keep hk
  · have hchain := h.waiting
    cases rest with
    | nil => exact .singleton f'
    | cons g rest =>
      obtain ⟨hwaits, hrest⟩ := List.isChain_cons_cons.mp hchain
      refine List.isChain_cons_cons.mpr ⟨?_, hrest⟩
      unfold Waits at hwaits ⊢
      rw [hmethod]
      exact hwaits

/-! ## 3. What statements read -/

section Rules

variable {meaning : Operators} {statics : FieldId → Value} {heap : Memory} {f : Frame}
  {stmt : Stmt} {x : VarId} {w : Value} {i : Invoke} {receiver : Option Nat} {callee : MethodId}

theorem castsTo_allows {y : Place Unit HeapObject} {v : Value} (h : v.CastsTo w)
    (hv : Allows S policy heap y v) : Allows S policy heap y w := by
  cases v with
  | int n =>
    obtain ⟨k, rfl⟩ := h
    exact allows_plain trivial
  | null =>
    cases h
    exact hv
  | ref a =>
    cases h
    exact hv

/-- A base that holds a reference may point to the object it refers to. -/
theorem FrameCovered.base (h : FrameCovered S policy heap f) {b : VarId} {a : Nat} {o : Obj}
    (hb : f.locals b = .ref a) (ho : heap a = some o) :
    S.pointsTo (.var () b) (o.abstract policy) := by
  obtain ⟨o', ho', hpoints⟩ := h.locals b a hb
  rw [ho, Option.some.injEq] at ho'
  subst ho'
  exact hpoints

/-- **The variable of an assignment is allowed its value.** -/
theorem Yields.allows (hS : S.Closed p policy Plain.abstraction entry)
    (hf : FrameCovered S policy heap f)
    (hstatic : ∀ g, Allows S policy heap (.staticField g) (statics g))
    (hobjects : ∀ a o, heap a = some o → ObjectCovered S policy heap o)
    (hstmt : p.stmt? f.site = some stmt) (hy : Yields meaning statics heap f.locals stmt x w) :
    Allows S policy heap (.var () x) w := by
  have hreach : S.reachable ⟨(), f.site.method⟩ := hf.reachable
  cases hy with
  | copy => exact (hf.locals _).flow (hS.copy hreach hstmt)
  | int => exact allows_plain trivial
  | binary => exact allows_plain trivial
  | cast hcast => exact castsTo_allows hcast ((hf.locals _).flow (hS.cast hreach hstmt))
  | loadStatic => exact (hstatic _).flow (hS.loadStatic hreach hstmt)
  | loadField hb ho =>
    exact ((hobjects _ _ ho).field _).flow (hS.loadField (hf.base hb ho) hstmt)
  | loadArray hb ho =>
    exact ((hobjects _ _ ho).element _).flow (hS.loadArray (hf.base hb ho) hstmt)

/-! ## 4. Calls -/

/-- A call reaches the same method on an object and on its abstract object. -/
theorem callee?_abstract {o : Obj} (h : p.callee? (some o.ty) i = some callee) :
    p.callee? (some (Plain.abstraction.heapObject (o.abstract policy)).ty) i = some callee := by
  show p.callee? (some (o.abstract policy).ty) i = some callee
  rw [Obj.abstract_ty]
  exact h

/-- **Every call performed is a call of the solution.** -/
theorem Resolves.calls (hS : S.Closed p policy Plain.abstraction entry)
    (hf : FrameCovered S policy heap f) (hstmt : p.stmt? f.site = some (.call i))
    {callee? : Option MethodId} (h : Resolves p heap f.locals i receiver callee?)
    (hcallee : callee? = some callee) : S.calls ⟨(), f.site⟩ ⟨(), callee⟩ := by
  have hreach : S.reachable ⟨(), f.site.method⟩ := hf.reachable
  cases h with
  | free hkind =>
    rcases hkind with hkind | hkind
    · exact hS.callStatic hreach hstmt hkind hcallee
    · -- a dynamic call reaches no method
      unfold Program.callee? at hcallee
      rw [hkind] at hcallee
      cases hcallee
  | on _ _ hbase hb ho =>
    exact hS.callOn (hf.base hb ho) hstmt hbase (callee?_abstract hcallee)

/-- The receiver variable of the method is allowed the object the call is performed on. -/
theorem Resolves.receiver_allows (hS : S.Closed p policy Plain.abstraction entry)
    (hf : FrameCovered S policy heap f) (hstmt : p.stmt? f.site = some (.call i))
    {callee? : Option MethodId} (h : Resolves p heap f.locals i receiver callee?)
    (hcallee : callee? = some callee) {this : VarId} (hthis : (p.methodAt callee).this = some this)
    {a : Nat} (ha : receiver = some a) : Allows S policy heap (.var () this) (.ref a) := by
  cases h with
  | free => cases ha
  | on _ _ hbase hb ho =>
    cases ha
    intro a' ha'
    cases ha'
    exact ⟨_, ho, hS.receiver (c := ()) (hf.base hb ho) hstmt hbase (callee?_abstract hcallee)
      hthis⟩

/-- A parameter that was passed a value holds that of its argument. -/
theorem exists_argument_of_lookup {params : List VarId} {args : List VarId} {env : VarId → Value}
    {v : VarId} (h : (params.zip (args.map env)).lookup v = some w) :
    ∃ y, (y, v) ∈ args.zip params ∧ w = env y := by
  induction params generalizing args with
  | nil => cases h
  | cons q params ih =>
    cases args with
    | nil => cases h
    | cons y args =>
      rw [List.map_cons, List.zip_cons_cons, List.lookup_cons] at h
      by_cases hq : v = q
      · subst hq
        simp only [beq_self_eq_true, Option.some.injEq] at h
        exact ⟨y, List.mem_cons_self, h.symm⟩
      · rw [show (v == q) = false from beq_eq_false_iff_ne.mpr hq] at h
        obtain ⟨y', hy', hw⟩ := ih h
        exact ⟨y', List.mem_cons_of_mem _ hy', hw⟩

/-- **A method is entered with variables that are allowed what they hold.** -/
theorem entry_covered (hS : S.Closed p policy Plain.abstraction entry)
    (hf : FrameCovered S policy heap f) (hstmt : p.stmt? f.site = some (.call i))
    (h : Resolves p heap f.locals i receiver (some callee)) {others : VarId → Value}
    (hothers : ∀ v, (others v).IsPlain) :
    FrameCovered S policy heap ⟨callee, 0,
      entryLocals (p.methodAt callee) receiver (i.args.map f.locals) others⟩ := by
  have hcall := h.calls hS hf hstmt rfl
  refine ⟨hS.callee hcall, fun v => ?_⟩
  show Allows S policy heap (.var () v) (entryLocals _ _ _ _ v)
  unfold entryLocals
  by_cases hthis : (p.methodAt callee).this = some v
  · rw [if_pos hthis]
    cases hreceiver : receiver with
    | none => exact allows_plain (hothers v)
    | some a => exact h.receiver_allows hS hf hstmt rfl hthis hreceiver
  · rw [if_neg hthis]
    cases hlookup : ((p.methodAt callee).params.zip (i.args.map f.locals)).lookup v with
    | none => exact allows_plain (hothers v)
    | some w =>
      obtain ⟨y, hy, rfl⟩ := exists_argument_of_lookup hlookup
      exact (hf.locals y).flow (hS.argument hcall hstmt hy)

/-- The variable a call assigns is allowed what the method gives back. -/
theorem Returns.allows (hS : S.Closed p policy Plain.abstraction entry)
    (hf : FrameCovered S policy heap f) {g : Frame} (hwaits : Waits S f g)
    (hstmt : p.stmt? g.site = some (.call i)) (h : Returns p f w) (hx : i.result = some x) :
    Allows S policy heap (.var () x) w := by
  cases h with
  | void _ hw => exact allows_plain hw
  | atEnd _ hw => exact allows_plain hw
  | var hret =>
    refine (hf.locals _).flow (hS.result hwaits hstmt hx ?_)
    have hmem := Program.mem_sitesOf.mpr ⟨rfl, hret⟩
    obtain ⟨⟨stmt, index⟩, hzip, heq⟩ := List.mem_map.mp hmem
    cases heq
    exact List.mem_filterMap.mpr ⟨_, List.fst_mem_of_mem_zipIdx hzip, rfl⟩

end Rules

/-! ## 5. Steps and runs -/

variable {meaning : Operators}

theorem ObjectCovered.setField {heap : Memory} {o : Obj} (h : ObjectCovered S policy heap o)
    {field : FieldId} {w : Value}
    (hw : Allows S policy heap (.field (o.abstract policy) field) w) :
    ObjectCovered S policy heap (o.setField field w) := by
  refine ⟨fun g => ?_, h.element⟩
  show Allows S policy heap (.field (o.abstract policy) g) (if g = field then w else o.fields g)
  by_cases hg : g = field
  · rw [if_pos hg, hg]
    exact hw
  · rw [if_neg hg]
    exact h.field g

theorem ObjectCovered.setElement {heap : Memory} {o : Obj} (h : ObjectCovered S policy heap o)
    {n : Int} {w : Value} (hw : Allows S policy heap (.element (o.abstract policy)) w) :
    ObjectCovered S policy heap (o.setElement n w) := by
  refine ⟨h.field, fun k => ?_⟩
  show Allows S policy heap (.element (o.abstract policy)) (if k = n then w else o.elements k)
  by_cases hk : k = n
  · rw [if_pos hk]
    exact hw
  · rw [if_neg hk]
    exact h.element k

/-- Writing an object with the abstract object and allowed contents of the one it replaces. -/
theorem Covered.write {f : Frame} {rest : List Frame} {statics : FieldId → Value} {heap : Memory}
    (h : Covered S policy ⟨f :: rest, statics, heap⟩) {a : Nat} {o o' : Obj}
    (ho : heap a = some o) (hsame : o'.abstract policy = o.abstract policy)
    (ho' : ObjectCovered S policy heap o') :
    Covered S policy ⟨f.next :: rest, statics, heap.write a o'⟩ := by
  have hk : Keeps policy heap (heap.write a o') := keeps_write ho hsame
  exact h.advance hk ((h.frames f List.mem_cons_self).keep hk |>.goto _) rfl
    (fun g => (h.static g).keep hk) (objects_write h.objects hk ho')

/-- **The call a step performs is in the solution.** -/
theorem calls_of_step (hS : S.Closed p policy Plain.abstraction entry) {m m' : Machine}
    {call : Option Call} (h : Covered S policy m) (hstep : Step p meaning m call m') {c : Call}
    (hc : call = some c) : S.calls ⟨(), c.site⟩ ⟨(), c.callee⟩ := by
  cases hstep with
  | enter hstmt hresolves =>
    cases hc
    exact hresolves.calls hS (h.frames _ List.mem_cons_self) hstmt rfl
  | pass hstmt hresolves =>
    obtain ⟨callee, hcallee, rfl⟩ := Option.map_eq_some_iff.mp hc
    exact hresolves.calls hS (h.frames _ List.mem_cons_self) hstmt hcallee
  | _ => cases hc

/-- **A step stays within the solution.** -/
theorem covered_of_step (hS : S.Closed p policy Plain.abstraction entry) {m m' : Machine}
    {call : Option Call} (h : Covered S policy m) (hstep : Step p meaning m call m') :
    Covered S policy m' := by
  cases hstep with
  | @assign f rest statics heap stmt x w hstmt hy =>
    have hf := h.frames f List.mem_cons_self
    have hw := hy.allows hS hf h.static h.objects hstmt
    exact h.advance (.refl policy heap) ((hf.assign hw).goto _) rfl h.static h.objects
  | @go f rest statics heap stmt index hstmt hgoes =>
    have hf := h.frames f List.mem_cons_self
    exact h.advance (.refl policy heap) (hf.goto index) rfl h.static h.objects
  | @alloc f rest statics heap x ty length a o hstmt hfree hsite hty hnew =>
    have hf := h.frames f List.mem_cons_self
    have hk : Keeps policy heap (heap.write a o) := keeps_write_new o hfree
    have hpoints : S.pointsTo (.var () x) (o.abstract policy) := by
      unfold Obj.abstract
      rw [hsite, hty]
      exact hS.alloc hf.reachable hstmt
    have hw : Allows S policy (heap.write a o) (.var () x) (.ref a) := by
      intro a' ha'
      cases ha'
      exact ⟨o, Memory.write_self heap a o, hpoints⟩
    have ho : ObjectCovered S policy heap o :=
      ⟨fun g => allows_plain (hnew.1 g), fun n => allows_plain (hnew.2 n)⟩
    exact h.advance hk (((hf.keep hk).assign hw).goto _) rfl (fun g => (h.static g).keep hk)
      (objects_write h.objects hk ho)
  | @storeStatic f rest statics heap field y hstmt =>
    have hf := h.frames f List.mem_cons_self
    refine h.advance (.refl policy heap) (hf.goto _) rfl (fun g => ?_) h.objects
    by_cases hg : g = field
    · subst hg
      rw [if_pos rfl]
      exact (hf.locals y).flow (hS.storeStatic hf.reachable hstmt)
    · rw [if_neg hg]
      exact h.static g
  | @storeField f rest statics heap b field y a o hstmt hb ho =>
    have hf := h.frames f List.mem_cons_self
    have hw := (hf.locals y).flow (hS.storeField (hf.base hb ho) hstmt)
    exact h.write ho rfl ((h.objects a o ho).setField hw)
  | @storeArray f rest statics heap b k y a o n hstmt hb ho hk =>
    have hf := h.frames f List.mem_cons_self
    have hw := (hf.locals y).flow (hS.storeArray (hf.base hb ho) hstmt)
    exact h.write ho rfl ((h.objects a o ho).setElement hw)
  | @enter f rest statics heap i receiver callee others hstmt hresolves hbody hothers =>
    have hf := h.frames f List.mem_cons_self
    have hcall := hresolves.calls hS hf hstmt rfl
    refine ⟨fun g hg => ?_, List.isChain_cons_cons.mpr ⟨hcall, h.waiting⟩, h.static, h.objects⟩
    rcases List.mem_cons.mp hg with rfl | hg
    · exact entry_covered hS hf hstmt hresolves hothers
    · exact h.frames g hg
  | @pass f rest statics heap i receiver callee? w hstmt hresolves hbodyless hw =>
    have hf := h.frames f List.mem_cons_self
    exact h.advance (.refl policy heap) ((hf.receive fun x _ => allows_plain hw).goto _)
      (f.receive_method i.result w) h.static h.objects
  | @leave f g rest statics heap i w hreturns hstmt =>
    -- the caller is the innermost frame now, and the call it waits at gives it its value
    obtain ⟨hwaits, hrest⟩ := List.isChain_cons_cons.mp h.waiting
    have hf := h.frames f List.mem_cons_self
    have hg := h.frames g (List.mem_cons_of_mem f List.mem_cons_self)
    have hcaller : Covered S policy ⟨g :: rest, statics, heap⟩ :=
      ⟨fun g' hg' => h.frames g' (List.mem_cons_of_mem f hg'), hrest, h.static, h.objects⟩
    exact hcaller.advance (.refl policy heap)
      ((hg.receive fun x hx => hreturns.allows hS hf hwaits hstmt hx).goto _)
      (g.receive_method i.result w) h.static h.objects
  | @exit f statics heap w hreturns =>
    exact ⟨fun g hg => absurd hg List.not_mem_nil, .nil, h.static, h.objects⟩

theorem covered_of_starts (hS : S.Closed p policy Plain.abstraction entry) {m : Machine}
    (h : Starts entry m) : Covered S policy m := by
  obtain ⟨env, henv, hframes⟩ := h.frames
  refine ⟨fun f hf => ?_, ?_, fun f => allows_plain (h.statics f), fun a o ho => ?_⟩
  · rw [hframes] at hf
    cases List.mem_singleton.mp hf
    exact ⟨hS.entry, fun v => allows_plain (henv v)⟩
  · rw [hframes]
    exact .singleton _
  · rw [h.heap a] at ho
    cases ho

/-- **A run stays within the solution**, and so do the calls it performs. -/
theorem covered_of_run (hS : S.Closed p policy Plain.abstraction entry) {s m : Machine}
    {calls : List Call} (hs : Starts entry s) (hrun : Run p meaning s calls m) :
    Covered S policy m ∧ ∀ c ∈ calls, S.calls ⟨(), c.site⟩ ⟨(), c.callee⟩ := by
  induction hrun with
  | start => exact ⟨covered_of_starts hS hs, fun _ hc => nomatch hc⟩
  | step _ hstep ih =>
    obtain ⟨hcovered, hcalls⟩ := ih
    refine ⟨covered_of_step hS hcovered hstep, fun c hc => ?_⟩
    rcases List.mem_append.mp hc with hc | hc
    · exact hcalls c hc
    · exact calls_of_step hS hcovered hstep (Option.mem_toList.mp hc)

/-! ## 6. Results of the analysis -/

/-- **The result covers what the machine holds**: methods being executed are reachable, and where
    there is a reference the abstract object of its object is in the points-to set. -/
structure Reported (r : PlainResult) (policy : HeapPolicy) (m : Machine) : Prop where
  entered : ∀ f ∈ m.frames, r.calls.hasMethod f.method = true
  var : ∀ f ∈ m.frames, ∀ v a, f.locals v = .ref a →
    ∃ o, m.heap a = some o ∧ r.Holds (.var () v) (o.abstract policy)
  static : ∀ f a, m.statics f = .ref a →
    ∃ o, m.heap a = some o ∧ r.Holds (.staticField f) (o.abstract policy)
  field : ∀ b base, m.heap b = some base → ∀ f a, base.fields f = .ref a →
    ∃ o i, m.heap a = some o ∧ r.heap.objects.find? (base.abstract policy) = some i ∧
      r.Holds (.field i f) (o.abstract policy)
  element : ∀ b base, m.heap b = some base → ∀ n a, base.elements n = .ref a →
    ∃ o i, m.heap a = some o ∧ r.heap.objects.find? (base.abstract policy) = some i ∧
      r.Holds (.element i) (o.abstract policy)

theorem Covered.reported {options : PointsToOptions} {allowance : Nat} {r : PlainResult}
    (h : Plain.analyzeWithin p options Plugin.none () allowance entry = some (r, ()))
    {m : Machine} (hm : Covered r.solution options.heap m) : Reported r options.heap m where
  entered f hf := (hm.frames f hf).reachable
  var f hf v a hv := by
    obtain ⟨o, ho, hpoints⟩ := (hm.frames f hf).locals v a hv
    obtain ⟨x, hx, hholds⟩ := Plain.holds_of_pointsTo h hpoints
    obtain ⟨_, rfl, -⟩ := Reading.eq_var_of_place? hx
    exact ⟨o, ho, hholds⟩
  static f a hf := by
    obtain ⟨o, ho, hpoints⟩ := hm.static f a hf
    obtain ⟨x, hx, hholds⟩ := Plain.holds_of_pointsTo h hpoints
    obtain rfl := Reading.eq_static_of_place? hx
    exact ⟨o, ho, hholds⟩
  field b base hb f a hf := by
    obtain ⟨o, ho, hpoints⟩ := (hm.objects b base hb).field f a hf
    obtain ⟨x, hx, hholds⟩ := Plain.holds_of_pointsTo h hpoints
    obtain ⟨i, rfl, hi⟩ := Reading.eq_field_of_place? hx
    exact ⟨o, i, ho, Interner.find?_of_get? (Plain.heap_distinct h) hi, hholds⟩
  element b base hb n a hn := by
    obtain ⟨o, ho, hpoints⟩ := (hm.objects b base hb).element n a hn
    obtain ⟨x, hx, hholds⟩ := Plain.holds_of_pointsTo h hpoints
    obtain ⟨i, rfl, hi⟩ := Reading.eq_element_of_place? hx
    exact ⟨o, i, ho, Interner.find?_of_get? (Plain.heap_distinct h) hi, hholds⟩

/-- **The analysis is sound for every run**: whatever operators mean, a finite run from the entry
    method, started with plain values, only enters reachable methods, only performs calls that
    are edges of the call graph, and only holds references the points-to sets allow. -/
theorem analysis_reports_runs {options : PointsToOptions} {allowance : Nat} {r : PlainResult}
    (h : Plain.analyzeWithin p options Plugin.none () allowance entry = some (r, ()))
    {s m : Machine} {calls : List Call} (hs : Starts entry s) (hrun : Run p meaning s calls m) :
    Reported r options.heap m ∧ ∀ c ∈ calls,
      r.calls.hasEdge c.site c.callee = true ∧ r.calls.hasMethod c.callee = true := by
  have hclosed := Plain.solution_closed h
  obtain ⟨hcovered, hcalls⟩ := covered_of_run hclosed hs hrun
  refine ⟨hcovered.reported h, fun c hc => ?_⟩
  have hcall := hcalls c hc
  exact ⟨hcall, hclosed.callee hcall⟩

/-- An object as `main` of the sample program allocates it. -/
def cell (index : Nat) : Obj := ⟨⟨0, index⟩, .object 1, fun _ => .null, fun _ => .null⟩

theorem cell_isNew (index : Nat) : (cell index).IsNew := ⟨fun _ => trivial, fun _ => trivial⟩

/-- The call of the sample program reaches the method of its receiver. -/
theorem resolves_sample {heap : Memory} {env : VarId → Value} (hb : env 0 = .ref 0)
    (ho : heap 0 = some (cell 0)) :
    Resolves Plain.sample heap env ⟨.virtual, ⟨1, 1⟩, some 0, [1], some 2⟩ (some 0) (some 1) := by
  have h : Resolves Plain.sample heap env ⟨.virtual, ⟨1, 1⟩, some 0, [1], some 2⟩ (some 0) _ :=
    .on (by decide) (by decide) rfl hb ho
  exact h

/-- The sample program runs up to the return of `main` and keeps its second object. -/
theorem exists_sample_run : ∃ s m, Starts 0 s ∧
    Run Plain.sample (fun _ _ _ _ => False) s [⟨⟨0, 2⟩, 1⟩] m ∧ m.statics 0 = .ref 1 := by
  have hplain : Value.null.IsPlain := trivial
  let s : Machine := ⟨[⟨0, 0, fun _ => .null⟩], fun _ => .null, fun _ => none⟩
  have hs : Starts 0 s := ⟨⟨fun _ => .null, fun _ => hplain, rfl⟩, fun _ => hplain, fun _ => rfl⟩
  have h₀ : Run Plain.sample (fun _ _ _ _ => False) s [] s := .start
  have h₁ := h₀.step (.alloc (a := 0) (o := cell 0) rfl rfl rfl rfl (cell_isNew 0))
  have h₂ := h₁.step (.alloc (a := 1) (o := cell 1) rfl rfl rfl rfl (cell_isNew 1))
  have h₃ := h₂.step (.enter rfl (resolves_sample rfl rfl) rfl fun _ => hplain)
  have h₄ := h₃.step (.leave (.var rfl) rfl)
  have h₅ := h₄.step (.storeStatic rfl)
  exact ⟨s, _, hs, h₅, rfl⟩

/-- The reference the sample program keeps is to an object of the points-to set. -/
theorem analysis_reports_runs_sample :
    ∃ r s m, Plain.analyzeWithin Plain.sample { heap := .type } Plugin.none () 30 0 = some (r, ()) ∧
      Starts 0 s ∧ Run Plain.sample (fun _ _ _ _ => False) s [⟨⟨0, 2⟩, 1⟩] m ∧
      m.statics 0 = .ref 1 ∧ Reported r .type m ∧ r.calls.hasEdge ⟨0, 2⟩ 1 = true := by
  have hends : (Plain.analyzeWithin Plain.sample { heap := .type } Plugin.none () 30 0).isSome := by
    decide +kernel
  obtain ⟨⟨r, _⟩, hr⟩ := Option.isSome_iff_exists.mp hends
  obtain ⟨s, m, hs, hrun, hkept⟩ := exists_sample_run
  obtain ⟨hreported, hcalls⟩ := analysis_reports_runs hr hs hrun
  exact ⟨r, s, m, hr, hs, hrun, hkept, hreported, (hcalls _ List.mem_cons_self).1⟩

end Execution

end ObjectFlow
