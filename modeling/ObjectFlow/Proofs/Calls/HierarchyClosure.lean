/-
  File:      ObjectFlow/Proofs/Calls/HierarchyClosure.lean
  Subject:   THE CALL GRAPH OF THE CLASS HIERARCHY IS THE CLOSURE OF ITS CALLS, and the subtypes of a
             class are the closure of the links between classes.

  * `Program.Links`, `mem_subtypes_iff`: which classes stand below a class;
  * `Resolves`, `mem_targets_iff`: which methods a call may reach;
  * `ClosedUnderCalls`, `IsClosure`: what the call graph is the least of, and what it lists;
  * `call_graph_is_closure`: so it is for every accepted program and entry method.
-/
import Mathlib.Order.Bounds.Basic
import ObjectFlow.Proofs.Calls.Exploration
import ObjectFlow.Proofs.Calls.Listing
import ObjectFlow.Proofs.Graph.Search

namespace ObjectFlow

/-! ## 1. Subtypes -/

namespace Program

/-- **Class `d` names class `c`** as its superclass or as one of its interfaces. -/
def Links (p : Program) (d c : ClassId) : Prop :=
  (p.classAt d).superClass = some c ∨ c ∈ (p.classAt d).interfaces

variable {p : Program}

/-- A class that names another is one of the program. -/
theorem Links.lt {c d : ClassId} (h : p.Links d c) : d < p.classes.size := by
  refine Nat.lt_of_not_le fun hge => ?_
  have hnone : p.classAt d = default := by simp [classAt, hge]
  unfold Links at h
  rw [hnone] at h
  rcases h with h | h
  · cases h
  · exact List.not_mem_nil h

theorem mem_directSubtypes {c d : ClassId} : d ∈ p.directSubtypes c ↔ p.Links d c := by
  have hmentions : ∀ e, d ∈ p.mentions c e ↔ d = e ∧ c ∈ (p.classAt e).interfaces := by
    intro e
    unfold mentions
    rw [List.mem_map]
    constructor
    · intro ⟨a, ha, hde⟩
      rw [List.mem_filter, decide_eq_true_eq] at ha
      exact ⟨hde.symm, ha.2 ▸ ha.1⟩
    · intro ⟨hde, hmem⟩
      exact ⟨c, List.mem_filter.mpr ⟨hmem, decide_eq_true rfl⟩, hde.symm⟩
  have hids : d ∈ p.classIds ↔ d < p.classes.size := List.mem_range
  unfold directSubtypes subclassesOf subinterfacesOf implementorsOf
  simp only [List.mem_append, List.mem_filter, List.mem_flatMap, hmentions]
  constructor
  · rintro ((⟨-, hsuper⟩ | ⟨e, -, rfl, hmem⟩) | ⟨e, -, rfl, hmem⟩)
    · exact .inl (by simpa using hsuper)
    · exact .inr hmem
    · exact .inr hmem
  · intro h
    have hd : d ∈ p.classIds := hids.mpr h.lt
    rcases h with hsuper | hmem
    · exact .inl (.inl ⟨hd, by simpa using hsuper⟩)
    · -- interfaces and other classes are listed apart
      by_cases hinterface : (p.classAt d).isInterface = true
      · exact .inl (.inr ⟨d, ⟨hd, hinterface⟩, rfl, hmem⟩)
      · exact .inr ⟨d, ⟨hd, by simpa using hinterface⟩, rfl, hmem⟩

/-- **The types below a class are those from which it is reached over links.** -/
theorem mem_subtypes_iff {c d : ClassId} (hc : c < p.classes.size) :
    d ∈ p.subtypes c ↔ Relation.ReflTransGen p.Links d c := by
  have hnodes : ∀ b, Reach p.directSubtypes c b → b ∈ p.classIds := by
    intro b hb
    rcases Relation.ReflTransGen.cases_tail hb with rfl | ⟨a, -, hlink⟩
    · exact List.mem_range.mpr hc
    · exact List.mem_range.mpr (mem_directSubtypes.mp hlink).lt
  unfold subtypes
  rw [mem_breadthFirst hnodes (Nat.le_of_eq List.length_range), ← Relation.reflTransGen_swap]
  exact iff_of_eq (congrArg (fun r => Relation.ReflTransGen r c d)
    (funext fun a => funext fun b => propext mem_directSubtypes))

end Program

namespace ClassHierarchy

/-! ## 2. Resolving calls -/

/-- **What a call resolves to**: a static call to the method looked up in the class it names, a
    special call to the one dispatched on that class, a virtual or interface call to those
    dispatched on the classes below it, a dynamic call to nothing. -/
inductive Resolves (p : Program) (i : Invoke) (m : MethodId) : Prop
  | static (kind : i.kind = .static) (found : p.lookup? i.target.owner i.target.subsig = some m)
  | special (kind : i.kind = .special)
      (found : p.dispatch? i.target.owner i.target.subsig = some m)
  | onSubtype (kind : i.kind = .virtual ∨ i.kind = .interface) {c : ClassId}
      (below : Relation.ReflTransGen p.Links c i.target.owner)
      (found : p.dispatch? c i.target.subsig = some m)

variable {p : Program} {entry : MethodId}

theorem mem_targets_iff {i : Invoke} (hi : i.target.owner < p.classes.size) {m : MethodId} :
    m ∈ targets p i ↔ Resolves p i m := by
  have hsubtypes : m ∈ IdSet.ofList
      ((p.subtypes i.target.owner).filterMap fun c => p.dispatch? c i.target.subsig) ↔
      ∃ c, Relation.ReflTransGen p.Links c i.target.owner ∧
        p.dispatch? c i.target.subsig = some m := by
    rw [IdSet.mem_ofList, List.mem_filterMap]
    exact exists_congr fun c => and_congr_left fun _ => Program.mem_subtypes_iff hi
  unfold targets
  constructor
  · intro hm
    cases hkind : i.kind with
    | static =>
      rw [hkind] at hm
      exact .static hkind (Option.mem_toList.mp (IdSet.mem_ofList.mp hm))
    | special =>
      rw [hkind] at hm
      exact .special hkind (Option.mem_toList.mp (IdSet.mem_ofList.mp hm))
    | virtual =>
      rw [hkind] at hm
      obtain ⟨c, hbelow, hfound⟩ := hsubtypes.mp hm
      exact .onSubtype (.inl hkind) hbelow hfound
    | interface =>
      rw [hkind] at hm
      obtain ⟨c, hbelow, hfound⟩ := hsubtypes.mp hm
      exact .onSubtype (.inr hkind) hbelow hfound
    | dynamic =>
      rw [hkind] at hm
      exact absurd hm IdSet.not_mem_empty
  · intro hm
    cases hm with
    | static hkind hfound =>
      simp only [hkind]
      exact IdSet.mem_ofList.mpr (Option.mem_toList.mpr hfound)
    | special hkind hfound =>
      simp only [hkind]
      exact IdSet.mem_ofList.mpr (Option.mem_toList.mpr hfound)
    | onSubtype hkind hbelow hfound =>
      rcases hkind with hkind | hkind <;> simp only [hkind] <;>
        exact hsubtypes.mpr ⟨_, hbelow, hfound⟩

/-- A call of the program names one of its classes. -/
theorem owner_lt (hp : p.Filled) {site : Site} {i : Invoke} (hi : p.invoke? site = some i) :
    i.target.owner < p.classes.size := by
  have hstmt := Program.invoke?_eq_some_iff.mp hi
  exact (hp.idsInRange.stmts hstmt).2.2.1 _ (List.mem_singleton_self _)

/-! ## 3. Edges -/

/-- What holds of a call graph, and is kept by each edge of a call in a method that is reachable,
    holds of what is explored from it. -/
theorem explore_induction {P : PlainCallGraph → Prop}
    (hstep : ∀ g m, g.hasMethod m = true → ∀ e ∈ edgesOf p m, P g → P (addCall g e)) (bound : Nat)
    {queue : List MethodId} {g : PlainCallGraph} (hqueue : ∀ m ∈ queue, g.hasMethod m = true)
    (hg : P g) : P (explore p bound queue g) := by
  induction bound generalizing queue g with
  | zero => exact hg
  | succ bound ih =>
    cases queue with
    | nil => exact hg
    | cons m queue =>
      have hedges : P ((edgesOf p m).foldl addCall g) ∧
          ((edgesOf p m).foldl addCall g).hasMethod m = true := by
        refine List.foldlRecOn (motive := fun g => P g ∧ g.hasMethod m = true) (edgesOf p m) addCall
          ⟨hg, hqueue m List.mem_cons_self⟩ fun g ⟨hg, hm⟩ e he => ⟨hstep g m hm e he hg, ?_⟩
        exact CallGraph.hasMethod_addReachable.mpr
          (.inl (CallGraph.hasMethod_addEdge g e m ▸ hm))
      refine ih (fun n hn => ?_) hedges.1
      rcases List.mem_append.mp hn with hn | hn
      · exact hasMethod_foldl_addCall.mpr (.inl (hqueue n (List.mem_cons_of_mem m hn)))
      · exact CallGraph.hasMethod_iff.mpr (Array.mem_toList_iff.mp (List.mem_of_mem_drop hn))

/-- What holds of the entry method alone, and is kept by each edge of a call in a method that is
    reachable, holds of the call graph. -/
theorem callGraph_induction {P : PlainCallGraph → Prop}
    (hstart : P (CallGraph.addEntry {} entry))
    (hstep : ∀ g m, g.hasMethod m = true → ∀ e ∈ edgesOf p m, P g → P (addCall g e)) :
    P (callGraph p entry) := by
  refine explore_induction hstep _ (fun m hm => ?_) hstart
  exact CallGraph.hasMethod_addEntry.mpr (.inr (List.mem_singleton.mp hm))

theorem once_callGraph (p : Program) (entry : MethodId) : (callGraph p entry).Once :=
  callGraph_induction (CallGraph.once_empty.addEntry entry) fun _ _ _ e _ hg =>
    (hg.addEdge e).addReachable e.callee

theorem entries_callGraph (p : Program) (entry : MethodId) :
    (callGraph p entry).entries = #[entry] := by
  refine callGraph_induction (P := fun g => g.entries = #[entry]) ?_ fun g m _ e _ hg => ?_
  · rw [CallGraph.addEntry, CallGraph.entries_addReachable]
    rfl
  · rw [addCall, CallGraph.entries_addReachable, CallGraph.entries_addEdge, hg]

/-- Every edge is that of a call. -/
theorem exists_edgesOf {e : CallEdge Site MethodId} (he : e ∈ (callGraph p entry).edges) :
    ∃ m, e ∈ edgesOf p m := by
  refine callGraph_induction (P := fun g => ∀ e ∈ g.edges, ∃ m, e ∈ edgesOf p m) ?_
    (fun g m _ e he hg e' he' => ?_) e he
  · intro e he
    rw [CallGraph.edges_addEntry] at he
    exact absurd he (Array.not_mem_empty e)
  · rw [addCall, CallGraph.edges_addReachable] at he'
    unfold CallGraph.addEdge at he'
    split at he'
    · exact hg e' he'
    · rcases Array.mem_push.mp he' with he' | rfl
      · exact hg e' he'
      · exact ⟨m, he⟩

/-- **The edges are those of the calls in reachable methods**, each with the kind of its call. -/
theorem mem_edges_callGraph (hp : p.Filled) {e : CallEdge Site MethodId} :
    e ∈ (callGraph p entry).edges ↔ (callGraph p entry).hasMethod e.site.method = true ∧
      ∃ i, p.invoke? e.site = some i ∧ e.kind = i.kind ∧ Resolves p i e.callee := by
  constructor
  · intro he
    have hmethod := (of_hasEdge hp.coherent (CallGraph.hasEdge_iff.mpr ⟨e, he, rfl, rfl⟩)).1
    obtain ⟨m, hm⟩ := exists_edgesOf he
    obtain ⟨-, i, hi, hkind, hcallee⟩ := mem_edgesOf.mp hm
    exact ⟨hmethod, i, hi, hkind, (mem_targets_iff (owner_lt hp hi)).mp hcallee⟩
  · intro ⟨hmethod, i, hi, hkind, hcallee⟩
    have htarget := (mem_targets_iff (owner_lt hp hi)).mpr hcallee
    obtain ⟨e', he', hsite, hcallee'⟩ :=
      CallGraph.hasEdge_iff.mp (hasEdge_of_target hp.coherent hmethod hi htarget)
    -- the edge that is there belongs to the same call, so it is of the same kind
    obtain ⟨m, hm⟩ := exists_edgesOf he'
    obtain ⟨-, i', hi', hkind', -⟩ := mem_edgesOf.mp hm
    rw [hsite, hi] at hi'
    cases hi'
    obtain ⟨kind, site, callee⟩ := e
    obtain ⟨kind', site', callee'⟩ := e'
    cases hsite
    cases hcallee'
    cases hkind
    cases hkind'
    exact he'

/-! ## 4. The closure -/

/-- **A set of methods closed under calls**: the entry is in it, and so is what the calls in the
    bodies of its methods resolve to. -/
structure ClosedUnderCalls (p : Program) (entry : MethodId) (ms : Set MethodId) : Prop where
  entry : entry ∈ ms
  calls : ∀ {site i m}, site.method ∈ ms → p.invoke? site = some i → Resolves p i m → m ∈ ms

/-- **A call graph that is the closure of the calls from an entry method.** Its reachable methods
    are the least set closed under calls; it has one edge for each call in a reachable method and
    each method the call resolves to; callees and callers are listed once for each edge. -/
structure IsClosure (p : Program) (entry : MethodId) (g : PlainCallGraph) : Prop where
  entries : g.entries = #[entry]
  reachable : IsLeast {ms | ClosedUnderCalls p entry ms} {m | m ∈ g.reachable}
  edges : ∀ e, e ∈ g.edges ↔ e.site.method ∈ g.reachable ∧
    ∃ i, p.invoke? e.site = some i ∧ e.kind = i.kind ∧ Resolves p i e.callee
  once : g.Once
  callees : ∀ site, (g.calleesOf site).Nodup ∧
    ∀ m, m ∈ g.calleesOf site ↔ ∃ e ∈ g.edges, e.site = site ∧ e.callee = m
  callers : ∀ m, (g.callersOf m).Nodup ∧
    ∀ site, site ∈ g.callersOf m ↔ ∃ e ∈ g.edges, e.site = site ∧ e.callee = m

/-- What the exploration reaches is in every set closed under calls. -/
theorem mem_of_closedUnderCalls (hp : p.Filled) {ms : Set MethodId}
    (hms : ClosedUnderCalls p entry ms) :
    ∀ m, (callGraph p entry).hasMethod m = true → m ∈ ms := by
  refine callGraph_induction (P := fun g => ∀ m, g.hasMethod m = true → m ∈ ms) (fun m hm => ?_)
    fun g m hm e he hg n hn => ?_
  · rcases CallGraph.hasMethod_addEntry.mp hm with hm | rfl
    · exact absurd (CallGraph.hasMethod_iff.mp hm) (Array.not_mem_empty m)
    · exact hms.entry
  · rw [addCall, CallGraph.hasMethod_addReachable, CallGraph.hasMethod_addEdge] at hn
    rcases hn with hn | rfl
    · exact hg n hn
    · obtain ⟨rfl, i, hi, -, hcallee⟩ := mem_edgesOf.mp he
      exact hms.calls (hg _ hm) hi ((mem_targets_iff (owner_lt hp hi)).mp hcallee)

theorem closedUnderCalls_reachable (hp : p.Filled) (entry : MethodId) :
    ClosedUnderCalls p entry {m | m ∈ (callGraph p entry).reachable} where
  entry := CallGraph.hasMethod_iff.mp (hasMethod_entry hp.coherent entry)
  calls hmethod hi hm := by
    have hcall := hasEdge_of_target hp.coherent (CallGraph.hasMethod_iff.mpr hmethod) hi
      ((mem_targets_iff (owner_lt hp hi)).mpr hm)
    exact CallGraph.hasMethod_iff.mp (of_hasEdge hp.coherent hcall).2

theorem isClosure_callGraph (hp : p.Filled) (entry : MethodId) :
    IsClosure p entry (callGraph p entry) where
  entries := entries_callGraph p entry
  reachable := by
    refine ⟨closedUnderCalls_reachable hp entry, fun ms hms m hm => ?_⟩
    exact mem_of_closedUnderCalls hp hms m (CallGraph.hasMethod_iff.mpr hm)
  edges e := by
    rw [mem_edges_callGraph hp, CallGraph.hasMethod_iff]
  once := once_callGraph p entry
  callees site :=
    ⟨(once_callGraph p entry).nodup_calleesOf site, fun _ => CallGraph.mem_calleesOf⟩
  callers m :=
    ⟨(once_callGraph p entry).nodup_callersOf m, fun _ => CallGraph.mem_callersOf⟩

/-- **The class hierarchy gives the closure of the calls, for every accepted program.** The
    subtypes of a class are listed once each, the class first, and are those from which it is
    reached over links; a call may reach exactly what it resolves to; and the call graph of an
    entry method is the closure of its calls. -/
theorem call_graph_is_closure {source : String} (h : Program.ofSource source = .ok p)
    (entry : MethodId) :
    (∀ c < p.classes.size, (p.subtypes c).Nodup ∧ (p.subtypes c).head? = some c ∧
      ∀ d, d ∈ p.subtypes c ↔ Relation.ReflTransGen p.Links d c) ∧
    (∀ i : Invoke, i.target.owner < p.classes.size → ∀ m, m ∈ targets p i ↔ Resolves p i m) ∧
    IsClosure p entry (callGraph p entry) := by
  refine ⟨fun c hc => ?_, fun i hi m => mem_targets_iff hi,
    isClosure_callGraph (Program.filled_of_ofSource h) entry⟩
  obtain ⟨hnodup, hfirst⟩ := breadthFirst_spec p.directSubtypes p.classes.size c
  exact ⟨hnodup, hfirst, fun d => Program.mem_subtypes_iff hc⟩

/-- An interface that extends another and is implemented beside it, a class that lists one
    interface twice, and a class that is named but not declared. -/
def diamond : String :=
  "interface Shape \x7b method void draw(); \x7d
  interface Solid extends Shape, Library \x7b \x7d
  class Ball implements Shape, Solid, Shape \x7b method void draw() \x7b return; \x7d \x7d
  class Cube extends Ball implements Solid \x7b \x7d
  class Main \x7b
    static method void main() \x7b
      var Shape s;
      interfaceinvoke s.<Shape: void draw()>();
      return;
    \x7d
  \x7d"

set_option maxRecDepth 2000 in
/-- Each type below `Shape` is listed once, and the call has one edge for all of them. -/
theorem call_graph_is_closure_diamond :
    ∃ p, Program.ofSource diamond = .ok p ∧ p.subtypes 0 = [0, 1, 3, 4] ∧
      (∀ d, d ∈ p.subtypes 0 ↔ Relation.ReflTransGen p.Links d 0) ∧
      (callGraph p 2).edges = #[⟨.interface, ⟨2, 0⟩, 1⟩] ∧ IsClosure p 2 (callGraph p 2) := by
  obtain ⟨p, hp, h⟩ := Program.exists_of_any_ofSource diamond (fun p => decide (
      0 < p.classes.size ∧ p.subtypes 0 = [0, 1, 3, 4] ∧
      (callGraph p 2).edges = #[⟨.interface, ⟨2, 0⟩, 1⟩])) (by
    have htext : diamond.toList = _ := String.toList_ofList
    rw [Program.ofSource, lex_eq htext]
    decide +kernel)
  obtain ⟨hsize, hsubtypes, hedges⟩ := of_decide_eq_true h
  obtain ⟨hbelow, -, hclosure⟩ := call_graph_is_closure hp 2
  exact ⟨p, hp, hsubtypes, (hbelow 0 hsize).2.2, hedges, hclosure⟩

end ClassHierarchy

end ObjectFlow
