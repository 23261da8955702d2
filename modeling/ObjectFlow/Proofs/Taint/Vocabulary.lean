/-
  File:      ObjectFlow/Proofs/Taint/Vocabulary.lean
  Subject:   A PROGRAM AND ITS TAINT RULES NAME FINITELY MANY THINGS, and so the analyses end.

  Objects, contexts and pointers are made while an analysis runs, but only out of what the
  program and the rules name:

  * `Vocabulary`: contexts and objects; `Vocabulary.Closed`: the rules lead to no others;
  * `Vocabulary.solution`: all facts over a vocabulary, which are finitely many and closed under
    the rules;
  * `Plain.vocabulary`, `Selector.vocabulary`: contexts are cut to the depth of the selector, and
    tainted data is re-tagged with types of the rules only;
  * `analyses_end`: both analyses end, with taint tracking and without.
-/
import Mathlib.Data.Set.Finite.Lattice
import Mathlib.Data.Set.Finite.List
import ObjectFlow.Proofs.PointsTo.EveryMoment
import ObjectFlow.Proofs.PointsTo.Termination

namespace ObjectFlow

/-! ## 1. What a program and its rules name -/

namespace Program

/-- What the statements of a program name is finite. -/
theorem finite_named (p : Program) {α : Type} (named : Site → Stmt → List α) :
    {a | ∃ site stmt, p.stmt? site = some stmt ∧ a ∈ named site stmt}.Finite := by
  refine (List.finite_toSet (p.sites.flatMap fun here => named here.1 here.2)).subset
    fun a ⟨site, stmt, hstmt, ha⟩ => ?_
  have hsite : (site, stmt) ∈ p.sites :=
    List.mem_flatMap.mpr ⟨site.method, List.mem_range.mpr (method_lt_of_stmt? hstmt),
      mem_sitesOf.mpr ⟨rfl, hstmt⟩⟩
  exact List.mem_flatMap.mpr ⟨(site, stmt), hsite, ha⟩

/-- The sites of all statements. -/
def siteSet (p : Program) : Set Site := {site | ∃ stmt, p.stmt? site = some stmt}

theorem finite_siteSet (p : Program) : p.siteSet.Finite :=
  (p.finite_named fun site _ => [site]).subset fun site ⟨stmt, hstmt⟩ =>
    ⟨site, stmt, hstmt, List.mem_singleton_self site⟩

/-- The field a statement stores to. -/
def storesTo : Stmt → List FieldId
  | .storeField _ f _ => [f]
  | _ => []

/-- The fields some statement stores to. -/
def storedFields (p : Program) : Set FieldId :=
  {f | ∃ site base y, p.stmt? site = some (.storeField base f y)}

theorem finite_storedFields (p : Program) : p.storedFields.Finite :=
  (p.finite_named fun _ => storesTo).subset fun f ⟨site, _, _, hstmt⟩ =>
    ⟨site, _, hstmt, List.mem_singleton_self f⟩

/-- The methods the classes list. -/
def listedMethods (p : Program) : Set MethodId := {m | ∃ c, m ∈ (p.classAt c).methods}

theorem finite_listedMethods (p : Program) : p.listedMethods.Finite := by
  refine (List.finite_toSet (p.classIds.flatMap fun c => (p.classAt c).methods)).subset
    fun m ⟨c, hm⟩ => List.mem_flatMap.mpr ⟨c, List.mem_range.mpr ?_, hm⟩
  by_contra hge
  have hclass : p.classAt c = default := by
    unfold classAt
    rw [Array.getD_eq_getD_getElem?, Array.getElem?_eq_none (Nat.le_of_not_lt hge)]
    rfl
  rw [hclass] at hm
  exact absurd hm List.not_mem_nil

theorem declaredMethod?_mem {p : Program} {c : ClassId} {s : SubsigId} {m : MethodId}
    (h : p.declaredMethod? c s = some m) : m ∈ p.listedMethods :=
  ⟨c, List.mem_of_find?_eq_some h⟩

theorem dispatch?_mem {p : Program} {c : ClassId} {s : SubsigId} {m : MethodId}
    (h : p.dispatch? c s = some m) : m ∈ p.listedMethods := by
  obtain ⟨a, -, ha⟩ := List.exists_of_findSome?_eq_some h
  exact declaredMethod?_mem (Option.filter_eq_some_iff.mp ha).1

/-- A call reaches listed methods only. -/
theorem callee?_mem {p : Program} {receiver : Option Ty} {i : Invoke} {m : MethodId}
    (h : p.callee? receiver i = some m) : m ∈ p.listedMethods := by
  have hdispatch : ∀ {s}, (do dispatch? p (← (← receiver).class?) s) = some m →
      m ∈ p.listedMethods := by
    intro s h
    obtain ⟨ty, -, h⟩ := Option.bind_eq_some_iff.mp h
    obtain ⟨c, -, h⟩ := Option.bind_eq_some_iff.mp h
    exact dispatch?_mem h
  unfold callee? at h
  split at h
  · obtain ⟨a, -, ha⟩ := List.exists_of_findSome?_eq_some h
    exact declaredMethod?_mem ha
  · exact dispatch?_mem h
  · exact hdispatch h
  · exact hdispatch h
  · cases h

/-- The variables of statements, and those by which a listed method receives objects. -/
def namedVars (p : Program) : Set VarId :=
  {v | ∃ site stmt, p.stmt? site = some stmt ∧ v ∈ stmt.defined?.toList ++ stmt.uses} ∪
    {v | ∃ m ∈ p.listedMethods, v ∈ (p.methodAt m).this.toList ++ (p.methodAt m).params}

theorem finite_namedVars (p : Program) : p.namedVars.Finite := by
  refine (p.finite_named fun _ stmt => stmt.defined?.toList ++ stmt.uses).union ?_
  refine (p.finite_listedMethods.biUnion fun m _ =>
    List.finite_toSet ((p.methodAt m).this.toList ++ (p.methodAt m).params)).subset
      fun v ⟨m, hm, hv⟩ => Set.mem_biUnion hm hv

theorem defined?_mem {p : Program} {site : Site} {stmt : Stmt} {v : VarId}
    (h : p.stmt? site = some stmt) (hv : stmt.defined? = some v) : v ∈ p.namedVars :=
  .inl ⟨site, stmt, h, List.mem_append_left _ (Option.mem_toList.mpr hv)⟩

theorem uses_mem {p : Program} {site : Site} {stmt : Stmt} {v : VarId}
    (h : p.stmt? site = some stmt) (hv : v ∈ stmt.uses) : v ∈ p.namedVars :=
  .inl ⟨site, stmt, h, List.mem_append_right _ hv⟩

/-- The slots of a call are variables of its statement. -/
theorem slotVar?_mem {p : Program} {site : Site} {i : Invoke} {slot : Slot} {v : VarId}
    (h : p.stmt? site = some (.call i)) (hv : Taint.slotVar? i slot = some v) :
    v ∈ p.namedVars := by
  cases slot with
  | base => exact uses_mem h (List.mem_append_left _ (Option.mem_toList.mpr hv))
  | result => exact defined?_mem h hv
  | arg k => exact uses_mem h (List.mem_append_right _ (List.mem_of_getElem? hv))

/-- What a statement may allocate, and the tainted data it may make or have re-tagged. -/
def objectsAt (heap : HeapPolicy) (taint : TaintRules) (site : Site) (stmt : Stmt) :
    List HeapObject :=
  (match stmt with
    | .alloc _ ty _ => [Heap.objectFor heap site ty]
    | _ => []) ++
    (taint.sources.map (·.2) ++ taint.transfers.map (·.2.ty)).map (.tainted site)

/-- All objects that statements may allocate or make. -/
def namedObjects (p : Program) (heap : HeapPolicy) (taint : TaintRules) : Set HeapObject :=
  {o | ∃ site stmt, p.stmt? site = some stmt ∧ o ∈ objectsAt heap taint site stmt}

theorem finite_namedObjects (p : Program) (heap : HeapPolicy) (taint : TaintRules) :
    (p.namedObjects heap taint).Finite := p.finite_named (objectsAt heap taint)

theorem objectFor_mem {p : Program} {heap : HeapPolicy} {taint : TaintRules} {site : Site}
    {x : VarId} {ty : Ty} {length : Option VarId} (h : p.stmt? site = some (.alloc x ty length)) :
    Heap.objectFor heap site ty ∈ p.namedObjects heap taint :=
  ⟨site, _, h, List.mem_append_left _ (List.mem_singleton_self _)⟩

theorem mem_of_mem_rulesOf {α : Type} {rules : List (MethodId × α)} {m : MethodId} {a : α}
    (h : a ∈ TaintRules.rulesOf rules m) : (m, a) ∈ rules := by
  obtain ⟨⟨m', a'⟩, hmem, rfl⟩ := List.mem_map.mp h
  obtain ⟨hrule, hm⟩ := List.mem_filter.mp hmem
  cases of_decide_eq_true hm
  exact hrule

theorem tainted_mem_of_source {p : Program} {heap : HeapPolicy} {taint : TaintRules} {site : Site}
    (h : site ∈ p.siteSet) {m : MethodId} {ty : Ty} (hty : ty ∈ taint.sourcesOf m) :
    .tainted site ty ∈ p.namedObjects heap taint := by
  obtain ⟨stmt, hstmt⟩ := h
  refine ⟨site, stmt, hstmt, List.mem_append_right _ (List.mem_map_of_mem ?_)⟩
  exact List.mem_append_left _ (List.mem_map_of_mem (mem_of_mem_rulesOf hty))

theorem tainted_mem_of_transfer {p : Program} {heap : HeapPolicy} {taint : TaintRules}
    {site : Site} (h : site ∈ p.siteSet) {m : MethodId} {t : Transfer}
    (ht : t ∈ taint.transfersOf m) : .tainted site t.ty ∈ p.namedObjects heap taint := by
  obtain ⟨stmt, hstmt⟩ := h
  refine ⟨site, stmt, hstmt, List.mem_append_right _ (List.mem_map_of_mem ?_)⟩
  exact List.mem_append_right _ (List.mem_map_of_mem (mem_of_mem_rulesOf ht))

/-- Tainted data names the statement that made it. -/
theorem taintSource?_mem {p : Program} {heap : HeapPolicy} {taint : TaintRules} {o : HeapObject}
    {site : Site} (h : o ∈ p.namedObjects heap taint) (hsite : o.taintSource? = some site) :
    site ∈ p.siteSet := by
  obtain ⟨site', stmt, hstmt, ho⟩ := h
  rcases List.mem_append.mp ho with halloc | htainted
  · -- what is allocated is not tainted data
    split at halloc
    · rw [List.mem_singleton.mp halloc, HeapObject.taintSource?_objectFor] at hsite
      cases hsite
    · exact absurd halloc List.not_mem_nil
  · obtain ⟨ty, -, rfl⟩ := List.mem_map.mp htainted
    cases hsite
    exact ⟨stmt, hstmt⟩

end Program

/-! ## 2. Solutions over a vocabulary -/

/-- Contexts and objects. -/
structure Vocabulary (K O : Type) where
  contexts : Set K
  objects : Set O

namespace Vocabulary

variable {K O : Type}

/-- **The rules lead from the vocabulary to no other contexts and objects.** -/
structure Closed (p : Program) (heap : HeapPolicy) (taint : TaintRules) (A : TaintAbstraction K O)
    (V : Vocabulary K O) : Prop where
  entry : A.entry ∈ V.contexts
  allocated : ∀ {c site x ty length}, c ∈ V.contexts →
    p.stmt? site = some (.alloc x ty length) →
    A.allocated c (Heap.objectFor heap site ty) ∈ V.objects
  source : ∀ {site m ty}, site ∈ p.siteSet → ty ∈ taint.sourcesOf m →
    A.unallocated (.tainted site ty) ∈ V.objects
  transfer : ∀ {o site m t}, o ∈ V.objects → (A.heapObject o).taintSource? = some site →
    t ∈ taint.transfersOf m → A.unallocated (.tainted site t.ty) ∈ V.objects
  callee : ∀ {c site} receiver, c ∈ V.contexts → site ∈ p.siteSet →
    (∀ o ∈ receiver, o ∈ V.objects) → A.callee p ⟨c, site⟩ receiver ∈ V.contexts

/-- The places a program names over a vocabulary. -/
def places (p : Program) (V : Vocabulary K O) : Set (Place K O) := fun
  | .var c v => c ∈ V.contexts ∧ v ∈ p.namedVars
  | .staticField f => f ∈ p.storedFields
  | .field o f => o ∈ V.objects ∧ f ∈ p.storedFields
  | .element o => o ∈ V.objects

/-- All facts over a vocabulary. -/
def solution (p : Program) (V : Vocabulary K O) : Solution K O where
  reachable m := m.context ∈ V.contexts
  calls a b := (a.context ∈ V.contexts ∧ a.item ∈ p.siteSet) ∧
    b.context ∈ V.contexts ∧ b.item ∈ p.listedMethods
  pointsTo x o := x ∈ V.places p ∧ o ∈ V.objects

variable {p : Program} {heap : HeapPolicy} {taint : TaintRules} {A : TaintAbstraction K O}
  {V : Vocabulary K O}

theorem flows_of_mem_places {x y : Place K O} (hy : y ∈ V.places p) :
    (V.solution p).Flows x y := fun _ ho => ⟨hy, ho.2⟩

/-- **All facts over a closed vocabulary are closed under the rules.** -/
theorem Closed.solution_taintClosed (h : V.Closed p heap taint A) (start : MethodId) :
    (V.solution p).TaintClosed p heap taint A start where
  entry := h.entry
  alloc hc hs := ⟨⟨hc, Program.defined?_mem hs rfl⟩, h.allocated hc hs⟩
  copy hc hs := flows_of_mem_places ⟨hc, Program.defined?_mem hs rfl⟩
  cast hc hs := flows_of_mem_places ⟨hc, Program.defined?_mem hs rfl⟩
  loadStatic hc hs := flows_of_mem_places ⟨hc, Program.defined?_mem hs rfl⟩
  storeStatic _ hs := flows_of_mem_places ⟨_, _, _, hs⟩
  callStatic hc hs _ hm :=
    ⟨⟨hc, _, hs⟩, h.callee none hc ⟨_, hs⟩ (fun _ ho => by cases ho), Program.callee?_mem hm⟩
  loadField hb hs := flows_of_mem_places ⟨hb.1.1, Program.defined?_mem hs rfl⟩
  storeField hb hs := flows_of_mem_places ⟨hb.2, _, _, _, hs⟩
  loadArray hb hs := flows_of_mem_places ⟨hb.1.1, Program.defined?_mem hs rfl⟩
  storeArray hb _ := flows_of_mem_places hb.2
  callOn hb hs _ hm := by
    refine ⟨⟨hb.1.1, _, hs⟩, h.callee (some _) hb.1.1 ⟨_, hs⟩ fun o ho => ?_,
      Program.callee?_mem hm⟩
    cases ho
    exact hb.2
  receiver hb hs _ hm hthis := by
    refine ⟨⟨h.callee (some _) hb.1.1 ⟨_, hs⟩ fun o ho => ?_, .inr ⟨_, Program.callee?_mem hm, ?_⟩⟩,
      hb.2⟩
    · cases ho
      exact hb.2
    · exact List.mem_append_left _ (Option.mem_toList.mpr hthis)
  callee hcall := hcall.2.1
  argument hcall _ hxy := flows_of_mem_places
    ⟨hcall.2.1, .inr ⟨_, hcall.2.2, List.mem_append_right _ (List.of_mem_zip hxy).2⟩⟩
  result hcall hs hr _ := flows_of_mem_places ⟨hcall.1.1, Program.defined?_mem hs hr⟩
  source hcall hs hr ht :=
    ⟨⟨hcall.1.1, Program.defined?_mem hs hr⟩, h.source hcall.1.2 ht⟩
  transfer hcall hs ht _ hy _ _ ho hsite :=
    ⟨⟨hcall.1.1, Program.slotVar?_mem hs hy⟩, h.transfer ho.2 hsite ht⟩

theorem finite_places (hc : V.contexts.Finite) (ho : V.objects.Finite) : (V.places p).Finite := by
  have hvars := (hc.prod p.finite_namedVars).image fun a => Place.var (O := O) a.1 a.2
  have hstatics := p.finite_storedFields.image (Place.staticField (K := K) (O := O))
  have hfields := (ho.prod p.finite_storedFields).image fun a => Place.field (K := K) a.1 a.2
  have helements := ho.image (Place.element (K := K))
  refine (hvars.union (hstatics.union (hfields.union helements))).subset fun x hx => ?_
  cases x with
  | var c v => exact .inl ⟨(c, v), hx, rfl⟩
  | staticField f => exact .inr (.inl ⟨f, hx, rfl⟩)
  | field o f => exact .inr (.inr (.inl ⟨(o, f), hx, rfl⟩))
  | element o => exact .inr (.inr (.inr ⟨o, hx, rfl⟩))

/-- **Over finitely many contexts and objects there are finitely many facts.** -/
theorem finite_facts (hc : V.contexts.Finite) (ho : V.objects.Finite) :
    (V.solution p).facts.Finite := by
  have hsites := (hc.prod p.finite_siteSet).image fun a => (⟨a.1, a.2⟩ : Qualified K Site)
  have hmethods := (hc.prod p.finite_listedMethods).image
    fun a => (⟨a.1, a.2⟩ : Qualified K MethodId)
  have hcalls := (hsites.prod hmethods).image fun a => Fact.call (O := O) a.1 a.2
  have hpoints := ((finite_places (p := p) hc ho).prod ho).image fun a => Fact.pointsTo a.1 a.2
  refine (hcalls.union hpoints).subset fun fact hfact => ?_
  cases fact with
  | call a b => exact .inl ⟨(a, b), ⟨⟨(_, _), hfact.1, rfl⟩, ⟨(_, _), hfact.2, rfl⟩⟩, rfl⟩
  | pointsTo x o => exact .inr ⟨(x, o), hfact, rfl⟩

end Vocabulary

/-! ## 3. The vocabularies of the analyses -/

/-- One context, and all objects. -/
def Plain.vocabulary (p : Program) (heap : HeapPolicy) (taint : TaintRules) :
    Vocabulary Unit HeapObject := ⟨Set.univ, p.namedObjects heap taint⟩

theorem Plain.vocabulary_closed (p : Program) (heap : HeapPolicy) (taint : TaintRules) :
    (vocabulary p heap taint).Closed p heap taint taintAbstraction where
  entry := trivial
  allocated _ hs := Program.objectFor_mem hs
  source hsite hty := Program.tainted_mem_of_source hsite hty
  transfer ho hsite ht := Program.tainted_mem_of_transfer (Program.taintSource?_mem ho hsite) ht
  callee _ _ _ _ := trivial

namespace Selector

/-- The elements contexts are made of. -/
def marks (p : Program) (objects : Set HeapObject) : Set ContextMark := fun
  | .site s => s ∈ p.siteSet
  | .object o => o ∈ objects
  | .type c => ∃ o ∈ objects, o.allocationClass? p = some c

/-- The sequences of at most `depth` elements. -/
def sequences (depth : Nat) (elems : Set ContextMark) : Set (List ContextMark) :=
  {l | l.length ≤ depth ∧ ∀ m ∈ l, m ∈ elems}

/-- Contexts up to the depth of the selector, and all objects under such contexts. -/
def vocabulary (s : Selector) (p : Program) (heap : HeapPolicy) (taint : TaintRules) :
    Vocabulary (List ContextMark) (Qualified (List ContextMark) HeapObject) where
  contexts := sequences s.depth (marks p (p.namedObjects heap taint))
  objects := {o | o.context ∈ sequences s.depth (marks p (p.namedObjects heap taint)) ∧
    o.item ∈ p.namedObjects heap taint}

theorem finite_marks {p : Program} {objects : Set HeapObject} (ho : objects.Finite) :
    (marks p objects).Finite := by
  have hclasses := ho.image fun o => ContextMark.type ((o.allocationClass? p).getD 0)
  refine ((p.finite_siteSet.image ContextMark.site).union
    ((ho.image ContextMark.object).union hclasses)).subset fun m hm => ?_
  cases m with
  | site s => exact .inl ⟨s, hm, rfl⟩
  | object o => exact .inr (.inl ⟨o, hm, rfl⟩)
  | type c =>
    obtain ⟨o, ho, hc⟩ := hm
    exact .inr (.inr ⟨o, ho, by simp only [hc, Option.getD_some]⟩)

theorem finite_sequences (depth : Nat) {elems : Set ContextMark} (h : elems.Finite) :
    (sequences depth elems).Finite := by
  have hfinite : Finite elems := h
  refine ((List.finite_length_le elems depth).image (List.map Subtype.val)).subset
    fun l ⟨hlength, hl⟩ => ⟨l.attachWith _ hl, ?_, List.attachWith_map_subtype_val hl⟩
  rw [Set.mem_ofPred_eq, List.length_attachWith]
  exact hlength

theorem rtake_mem_sequences {depth n : Nat} {elems : Set ContextMark} {l : List ContextMark}
    (hn : n ≤ depth) (hl : ∀ m ∈ l, m ∈ elems) : l.rtake n ∈ sequences depth elems := by
  exact ⟨Nat.le_trans (length_rtake_le l n) hn, fun m hm => hl m (List.mem_of_mem_drop hm)⟩

/-- A context with one more element, cut to a depth. -/
theorem append_mem_sequences {depth : Nat} {elems : Set ContextMark} {l : List ContextMark}
    {m : ContextMark} (hl : l ∈ sequences depth elems) (hm : m ∈ elems) :
    (l ++ [m]).rtake depth ∈ sequences depth elems := by
  refine rtake_mem_sequences (Nat.le_refl _) fun m' hm' => ?_
  rcases List.mem_append.mp hm' with hold | hnew
  · exact hl.2 m' hold
  · rw [List.mem_singleton.mp hnew]
    exact hm

theorem nil_mem_sequences (depth : Nat) (elems : Set ContextMark) : [] ∈ sequences depth elems :=
  ⟨Nat.zero_le _, fun _ hm => absurd hm List.not_mem_nil⟩

theorem heapMarks_mem (s : Selector) {elems : Set ContextMark} {c : List ContextMark}
    (hc : c ∈ sequences s.depth elems) : s.heapMarks c ∈ sequences s.depth elems := by
  cases s with
  | insensitive => exact nil_mem_sequences _ _
  | callSite k | object k | type k => exact rtake_mem_sequences (Nat.sub_le k 1) hc.2

theorem calleeMarks_mem (s : Selector) {p : Program} {objects : Set HeapObject}
    {site : Qualified (List ContextMark) Site}
    {receiver : Option (Qualified (List ContextMark) HeapObject)}
    (hc : site.context ∈ sequences s.depth (marks p objects)) (hsite : site.item ∈ p.siteSet)
    (hr : ∀ r ∈ receiver, r.context ∈ sequences s.depth (marks p objects) ∧ r.item ∈ objects) :
    s.calleeMarks p site receiver ∈ sequences s.depth (marks p objects) := by
  cases s with
  | insensitive => exact nil_mem_sequences _ _
  | callSite k => exact append_mem_sequences hc hsite
  | object k =>
    cases receiver with
    | none => exact hc
    | some r =>
      obtain ⟨hcontext, hitem⟩ := hr r rfl
      exact append_mem_sequences hcontext hitem
  | type k =>
    cases receiver with
    | none => exact hc
    | some r =>
      obtain ⟨hcontext, hitem⟩ := hr r rfl
      simp only [calleeMarks]
      cases hclass : r.item.allocationClass? p with
      | none => exact hc
      | some c =>
        have hmark : ContextMark.type c ∈ marks p objects := ⟨r.item, hitem, hclass⟩
        exact append_mem_sequences hcontext hmark

theorem vocabulary_closed (s : Selector) (p : Program) (heap : HeapPolicy) (taint : TaintRules) :
    (s.vocabulary p heap taint).Closed p heap taint s.taintAbstraction where
  entry := nil_mem_sequences _ _
  allocated hc hs := ⟨s.heapMarks_mem hc, Program.objectFor_mem hs⟩
  source hsite hty := ⟨nil_mem_sequences _ _, Program.tainted_mem_of_source hsite hty⟩
  transfer ho hsite ht := ⟨nil_mem_sequences _ _,
    Program.tainted_mem_of_transfer (Program.taintSource?_mem ho.2 hsite) ht⟩
  callee _ hc hsite hr := s.calleeMarks_mem hc hsite hr

theorem finite_vocabulary (s : Selector) (p : Program) (heap : HeapPolicy) (taint : TaintRules) :
    (s.vocabulary p heap taint).contexts.Finite ∧ (s.vocabulary p heap taint).objects.Finite := by
  have hobjects := p.finite_namedObjects heap taint
  have hcontexts := finite_sequences s.depth (finite_marks (p := p) hobjects)
  refine ⟨hcontexts, ((hcontexts.prod hobjects).image
    fun a => (⟨a.1, a.2⟩ : Qualified (List ContextMark) HeapObject)).subset fun o ho => ?_⟩
  exact ⟨(o.context, o.item), ho, rfl⟩

end Selector

/-! ## 4. The analyses end -/

section Ends

variable (p : Program) (options : PointsToOptions) (taint : TaintRules) (entry : MethodId)

/-- With a plugin that takes part in it, the analysis without contexts keeps to its vocabulary and
    ends. -/
theorem Plain.analysis_ends {ρ : Type} {plugin : Plugin Unit Unit ρ} {memory : ρ}
    {J : EngineState Unit Unit → ρ → Prop}
    (hplugin : plugin.Cooperates reading p sensitivity options.heap
      ((vocabulary p options.heap taint).solution p) J)
    (hJ : ∀ s, s.calls.edges = #[] → J s memory) :
    ∃ n out, ∀ m, n ≤ m → analyzeWithin p options plugin memory m entry = some out := by
  have hclosed := (vocabulary_closed p options.heap taint).solution_taintClosed entry
  have hvalid : reading.Valid { policy := options.heap } () := Interner.distinct_empty
  obtain ⟨n, out, hn⟩ := exists_runWithin (reading_faithful p) hvalid hclosed.toClosed
    (Vocabulary.finite_facts Set.finite_univ (p.finite_namedObjects options.heap taint)) hplugin hJ
    options.order
  exact ⟨n, (result out.1, out.2), fun m hm => Option.map_eq_some_iff.mpr ⟨out, hn m hm, rfl⟩⟩

/-- With a plugin that takes part in it, the analysis with contexts keeps to the vocabulary of its
    selector and ends. -/
theorem ContextSensitive.analysis_ends {ρ : Type}
    {plugin : Plugin ContextId ContextNames ρ} {memory : ρ}
    {J : EngineState ContextId ContextNames → ρ → Prop}
    (hplugin : plugin.Cooperates reading p (sensitivity options.selector) options.heap
      ((options.selector.vocabulary p options.heap taint).solution p) J)
    (hJ : ∀ s, s.calls.edges = #[] → J s memory) :
    ∃ n out, ∀ m, n ≤ m → analyzeWithin p options plugin memory m entry = some out := by
  have hclosed := (options.selector.vocabulary_closed p options.heap taint).solution_taintClosed
    entry
  obtain ⟨hcontexts, hobjects⟩ := options.selector.finite_vocabulary p options.heap taint
  obtain ⟨n, out, hn⟩ := exists_runWithin (reading_faithful p options.selector)
    (named_empty options.heap) hclosed.toClosed (Vocabulary.finite_facts hcontexts hobjects) hplugin
    hJ options.order
  exact ⟨n, (result out.1, out.2), fun m hm => Option.map_eq_some_iff.mpr ⟨out, hn m hm, rfl⟩⟩

theorem Plain.taintAnalysis_ends :
    ∃ n out, ∀ m, n ≤ m → analyzeWithin p options (Taint.plugin p taint) {} m entry = some out :=
  analysis_ends p options taint entry
    (Taint.plugin_cooperates (reading_taintFaithful p)
      ((vocabulary_closed p options.heap taint).solution_taintClosed entry))
    fun _ hedges => Taint.tracking_start hedges

theorem Plain.bareAnalysis_ends :
    ∃ n out, ∀ m, n ≤ m → analyzeWithin p options Plugin.none () m entry = some out :=
  analysis_ends p options {} entry Plugin.none_cooperates fun _ _ => trivial

theorem ContextSensitive.taintAnalysis_ends :
    ∃ n out, ∀ m, n ≤ m → analyzeWithin p options (Taint.plugin p taint) {} m entry = some out :=
  analysis_ends p options taint entry
    (Taint.plugin_cooperates (reading_taintFaithful p options.selector)
      ((options.selector.vocabulary_closed p options.heap taint).solution_taintClosed entry))
    fun _ hedges => Taint.tracking_start hedges

theorem ContextSensitive.bareAnalysis_ends :
    ∃ n out, ∀ m, n ≤ m → analyzeWithin p options Plugin.none () m entry = some out :=
  analysis_ends p options {} entry Plugin.none_cooperates fun _ _ => trivial

/-- The analysis without contexts ends: after finitely many items its work list is empty, and
    what is known then is what every larger allowance gives. -/
def Plain.Ends {ρ : Type} (plugin : Plugin Unit Unit ρ) (memory : ρ) : Prop :=
  ∃ n s m, Plain.after p options plugin memory entry n = some (s, m) ∧ s.queue.toList = [] ∧
    ∀ allowance, n < allowance → Plain.analyzeWithin p options plugin memory allowance entry
      = some (result s, plugin.onFinish sensitivity s m)

/-- The analysis with contexts ends: after finitely many items its work list is empty, and what is
    known then is what every larger allowance gives. -/
def ContextSensitive.Ends {ρ : Type} (plugin : Plugin ContextId ContextNames ρ) (memory : ρ) :
    Prop :=
  ∃ n s m, ContextSensitive.after p options plugin memory entry n = some (s, m) ∧
    s.queue.toList = [] ∧
    ∀ allowance, n < allowance →
      ContextSensitive.analyzeWithin p options plugin memory allowance entry
        = some (result s, plugin.onFinish (sensitivity options.selector) s m)

variable {p options entry}

/-- An analysis that answers within some allowance has come to an empty work list. -/
theorem Plain.ends_of_analyzeWithin {ρ : Type} {plugin : Plugin Unit Unit ρ} {memory : ρ}
    {allowance : Nat} {out : PlainResult × ρ}
    (h : analyzeWithin p options plugin memory allowance entry = some out) :
    Plain.Ends p options entry plugin memory := by
  obtain ⟨⟨s, _⟩, hrun, -⟩ := Option.map_eq_some_iff.mp h
  obtain ⟨n, m, -, hafter, hidle, -⟩ := Engine.after_of_runWithin hrun
  refine ⟨n, s, m, hafter, hidle, fun allowance hn => ?_⟩
  exact Option.map_eq_some_iff.mpr ⟨_, Engine.runWithin_of_after hafter hidle hn, rfl⟩

theorem ContextSensitive.ends_of_analyzeWithin {ρ : Type}
    {plugin : Plugin ContextId ContextNames ρ} {memory : ρ} {allowance : Nat}
    {out : ContextResult × ρ}
    (h : analyzeWithin p options plugin memory allowance entry = some out) :
    ContextSensitive.Ends p options entry plugin memory := by
  obtain ⟨⟨s, _⟩, hrun, -⟩ := Option.map_eq_some_iff.mp h
  obtain ⟨n, m, -, hafter, hidle, -⟩ := Engine.after_of_runWithin hrun
  refine ⟨n, s, m, hafter, hidle, fun allowance hn => ?_⟩
  exact Option.map_eq_some_iff.mpr ⟨_, Engine.runWithin_of_after hafter hidle hn, rfl⟩

variable (p options entry)

/-- **Both analyses end**, for every program, entry method, heap policy, order of work and
    selector of any depth, with taint tracking by any rules and without: after finitely many items
    of work none is left, and from then on a larger allowance changes nothing. -/
theorem analyses_end :
    Plain.Ends p options entry (Taint.plugin p taint) {} ∧
    Plain.Ends p options entry Plugin.none () ∧
    ContextSensitive.Ends p options entry (Taint.plugin p taint) {} ∧
    ContextSensitive.Ends p options entry Plugin.none () := by
  obtain ⟨n₁, _, h₁⟩ := Plain.taintAnalysis_ends p options taint entry
  obtain ⟨n₂, _, h₂⟩ := Plain.bareAnalysis_ends p options entry
  obtain ⟨n₃, _, h₃⟩ := ContextSensitive.taintAnalysis_ends p options taint entry
  obtain ⟨n₄, _, h₄⟩ := ContextSensitive.bareAnalysis_ends p options entry
  exact ⟨Plain.ends_of_analyzeWithin (h₁ n₁ le_rfl), Plain.ends_of_analyzeWithin (h₂ n₂ le_rfl),
    ContextSensitive.ends_of_analyzeWithin (h₃ n₃ le_rfl),
    ContextSensitive.ends_of_analyzeWithin (h₄ n₄ le_rfl)⟩

end Ends

end ObjectFlow
