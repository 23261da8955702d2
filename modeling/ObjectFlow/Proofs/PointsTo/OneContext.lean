/-
  File:      ObjectFlow/Proofs/PointsTo/OneContext.lean
  Subject:   WITH ONE CONTEXT THE ANALYSIS IS THE ONE WITHOUT CONTEXTS, item of work by item of
             work and number by number.

  * `OneContext.state s`: the state `s` of the analysis without contexts, with everything put
    under the empty context;
  * `Mirrors n s t`: the state `t` is `state s`, the objects below `n` are in use, and all objects
    of `s` are;
  * one lemma for each function of the engine: mirrored states lead to mirrored states;
  * `Mirrored`: what is asked of two plugins, and `analyzeWithin_forget`: then the results
    are the same once the one context is forgotten.
-/
import Mathlib.Data.List.Nodup
import ObjectFlow.Proofs.PointsTo.Renaming
import ObjectFlow.Proofs.PointsTo.Saturation

namespace ObjectFlow

/-! ## 1. Everything under one context -/

/-- The objects of a pointer have numbers below `n`. -/
def Pointer.Below (n : Nat) : Pointer Unit → Prop
  | .field o _ | .element o => o < n
  | .var _ _ | .staticField _ => True

theorem Pointer.Below.mono {a : Pointer Unit} {n m : Nat} (h : a.Below n) (hnm : n ≤ m) :
    a.Below m := by
  cases a with
  | var c v => trivial
  | staticField f => trivial
  | field o f => exact Nat.lt_of_lt_of_le h hnm
  | element o => exact Nat.lt_of_lt_of_le h hnm

/-- The objects of an item of work have numbers below `n`. -/
def WorkItem.Below {ε : Type} (n : Nat) : WorkItem ε → Prop
  | .points _ objects => ∀ i ∈ objects, i < n
  | .call _ => True

namespace OneContext

/-- Contexts are not told apart. -/
abbrev rules : Sensitivity ContextId ContextNames := ContextSensitive.sensitivity .insensitive

def pointer : Pointer Unit → Pointer ContextId
  | .var _ v => .var Contexts.empty v
  | .staticField f => .staticField f
  | .field o f => .field o f
  | .element o => .element o

def qualified {α : Type} (q : Qualified Unit α) : Qualified ContextId α := ⟨Contexts.empty, q.item⟩

def edge (e : ContextCallEdge Unit) : ContextCallEdge ContextId :=
  ⟨e.kind, qualified e.site, qualified e.callee⟩

/-- The first `n` objects are heap objects of the same number. -/
def names (n : Nat) : ContextNames where
  objects := ⟨Array.ofFn fun i : Fin n => ⟨Contexts.empty, i.val⟩⟩

/-- The state with everything put under the empty context. -/
def state (s : EngineState Unit Unit) : EngineState ContextId ContextNames where
  heap := s.heap
  names := names s.heap.size
  graph := s.graph.map pointer
  queue := s.queue.map (.map edge)
  calls := s.calls.map qualified qualified

theorem pointer_injective : pointer.Injective := by
  intro a b h
  cases a <;> cases b <;> cases h <;> rfl

theorem qualified_injective {α : Type} : (qualified : Qualified Unit α → _).Injective := by
  intro a b h
  cases a
  cases b
  cases h
  rfl

theorem get?_names (n i : Nat) :
    (names n).objects.get? i = if i < n then some ⟨Contexts.empty, i⟩ else none := by
  show (Array.ofFn _)[i]? = _
  rw [Array.getElem?_ofFn]
  split <;> rfl

theorem objectAt_names {n i : Nat} (h : i < n) : (names n).objectAt i = ⟨Contexts.empty, i⟩ := by
  unfold ContextNames.objectAt
  rw [get?_names, if_pos h]
  rfl

theorem names_distinct (n : Nat) : (names n).objects.Distinct := by
  intro i j q hi hj
  rw [get?_names] at hi hj
  split at hi <;> cases hi
  split at hj <;> cases hj
  rfl

/-- Objects are numbered in step with heap objects. -/
theorem intern_names {n i : Nat} (h : i ≤ n) :
    (names n).intern ⟨Contexts.empty, i⟩ = (i, names (max n (i + 1))) := by
  unfold ContextNames.intern Interner.intern
  rcases Nat.lt_or_eq_of_le h with hlt | rfl
  · have hfind : (names n).objects.find? ⟨Contexts.empty, i⟩ = some i :=
      Interner.find?_of_get? (names_distinct n) (by rw [get?_names, if_pos hlt])
    rw [hfind, Nat.max_eq_left hlt]
  · have hfind : (names i).objects.find? ⟨Contexts.empty, i⟩ = none := by
      cases hf : (names i).objects.find? ⟨Contexts.empty, i⟩ with
      | none => rfl
      | some j =>
        have hget := Interner.get?_of_find? hf
        rw [get?_names] at hget
        split at hget <;> cases hget
        omega
    rw [hfind, Nat.max_eq_right (Nat.le_succ i)]
    simp [names, Interner.size, Array.ofFn_succ]

theorem size_intern (h : Heap) (o : HeapObject) :
    (h.intern o).1 ≤ h.size ∧ (h.intern o).2.size = max h.size ((h.intern o).1 + 1) := by
  unfold Heap.intern Interner.intern Heap.size
  cases hf : h.objects.find? o with
  | some i =>
    have hlt : i < h.objects.size := Interner.lt_size_of_get? (Interner.get?_of_find? hf)
    exact ⟨Nat.le_of_lt hlt, (Nat.max_eq_left hlt).symm⟩
  | none => simp [Interner.size]

/-! ## 2. States that mirror each other -/

/-- All objects of a state are in use. -/
structure Known (s : EngineState Unit Unit) : Prop where
  graph : s.graph.WF
  pointers : ∀ id a, s.graph.pointer? id = some a → a.Below s.heap.size
  sets : ∀ id i, i ∈ s.pointsTo id → i < s.heap.size
  queue : ∀ w ∈ s.queue.toList, w.Below s.heap.size

/-- **The state `t` is the state `s` under one context**, and the objects below `n` are in use. -/
structure Mirrors (n : Nat) (s : EngineState Unit Unit) (t : EngineState ContextId ContextNames) :
    Prop where
  same : t = state s
  known : Known s
  size : n ≤ s.heap.size

section Mirrors

variable {n : Nat} {s : EngineState Unit Unit} {t : EngineState ContextId ContextNames}

theorem Mirrors.weaken {m : Nat} (h : Mirrors n s t) (hm : m ≤ n) : Mirrors m s t :=
  ⟨h.same, h.known, Nat.le_trans hm h.size⟩

theorem Mirrors.all (h : Mirrors n s t) : Mirrors s.heap.size s t :=
  ⟨h.same, h.known, Nat.le_refl _⟩

/-- **Loops over mirrored states mirror each other if their steps do.** -/
theorem Mirrors.foldl {α : Type} {f : EngineState Unit Unit → α → EngineState Unit Unit}
    {f' : EngineState ContextId ContextNames → α → EngineState ContextId ContextNames}
    (l : List α) (hf : ∀ a ∈ l, ∀ s t, Mirrors n s t → Mirrors n (f s a) (f' t a))
    (h : Mirrors n s t) : Mirrors n (l.foldl f s) (l.foldl f' t) := by
  induction l generalizing s t with
  | nil => exact h
  | cons a l ih =>
    exact ih (fun b hb => hf b (List.mem_cons_of_mem a hb)) (hf a List.mem_cons_self s t h)

/-- What the pointer graph knows of pointers and edges does not depend on contexts. -/
theorem Mirrors.pointsTo (h : Mirrors n s t) (id : PointerId) : t.pointsTo id = s.pointsTo id := by
  rw [h.same]
  rfl

theorem Mirrors.heap (h : Mirrors n s t) : t.heap = s.heap := by
  rw [h.same]
  rfl

theorem Mirrors.heapObject (h : Mirrors n s t) {i : Nat} (hi : i < n) :
    rules.heapObject t.names i = i := by
  rw [h.same]
  show ((names s.heap.size).objectAt i).item = i
  rw [objectAt_names (Nat.lt_of_lt_of_le hi h.size)]

theorem Mirrors.pointer (h : Mirrors n s t) {a : Pointer Unit} (ha : a.Below n) :
    (t.pointer (pointer a)).1 = (s.pointer a).1 ∧
      Mirrors n (s.pointer a).2 (t.pointer (OneContext.pointer a)).2 := by
  obtain ⟨rfl, hk, hn⟩ := h
  have hgraph : (state s).graph.intern (OneContext.pointer a)
      = ((s.graph.intern a).1, (s.graph.intern a).2.map OneContext.pointer) :=
    PointerGraph.intern_map pointer_injective s.graph a
  have hout : (state s).pointer (OneContext.pointer a)
      = ((s.pointer a).1, state (s.pointer a).2) := by
    unfold EngineState.pointer
    rw [hgraph]
    rfl
  obtain ⟨-, -, hsets, -, hwf⟩ := PointerGraph.intern_spec s.graph a
  rw [hout]
  refine ⟨rfl, rfl, ⟨hwf hk.graph, fun id b hb => ?_, fun id i hi => ?_, hk.queue⟩, hn⟩
  · rcases PointerGraph.pointer?_intern hb with hold | rfl
    · exact hk.pointers id b hold
    · exact ha.mono hn
  · rw [EngineState.pointsTo, show (s.pointer a).2.graph = (s.graph.intern a).2 from rfl,
      hsets] at hi
    exact hk.sets id i hi

theorem Mirrors.send (h : Mirrors n s t) (id : PointerId) {objects : IdSet}
    (ho : ∀ i ∈ objects, i < s.heap.size) : Mirrors n (s.send id objects) (t.send id objects) := by
  obtain ⟨rfl, hk, hn⟩ := h
  refine ⟨rfl, ⟨hk.graph, hk.pointers, hk.sets, fun w hw => ?_⟩, hn⟩
  rw [show (s.send id objects).queue = s.queue.push (.points id objects) from rfl,
    WorkQueue.toList_push] at hw
  rcases List.mem_append.mp hw with hold | hnew
  · exact hk.queue w hold
  · rw [List.mem_singleton.mp hnew]
    exact ho

/-- An object is sent to a pointer that is numbered on first use. -/
theorem Mirrors.sendTo (h : Mirrors n s t) {a : Pointer Unit} (ha : a.Below n) {i j : Nat}
    (hi : i < n) (hj : j = i) :
    Mirrors n ((s.pointer a).2.send (s.pointer a).1 (.singleton i))
      ((t.pointer (OneContext.pointer a)).2.send (t.pointer (OneContext.pointer a)).1
        (.singleton j)) := by
  obtain ⟨hid, hpointer⟩ := h.pointer ha
  rw [hid, hj]
  refine hpointer.send _ fun k hk => ?_
  rw [IdSet.mem_singleton.mp hk]
  exact Nat.lt_of_lt_of_le hi hpointer.size

theorem Mirrors.sendCall (h : Mirrors n s t) (e : ContextCallEdge Unit) :
    Mirrors n (s.sendCall e) (t.sendCall (edge e)) := by
  obtain ⟨rfl, hk, hn⟩ := h
  refine ⟨rfl, ⟨hk.graph, hk.pointers, hk.sets, fun w hw => ?_⟩, hn⟩
  rw [show (s.sendCall e).queue = s.queue.push (.call e) from rfl, WorkQueue.toList_push] at hw
  rcases List.mem_append.mp hw with hold | hnew
  · exact hk.queue w hold
  · rw [List.mem_singleton.mp hnew]
    trivial

theorem Mirrors.addEdge (h : Mirrors n s t) (source target : PointerId) :
    Mirrors n { s with graph := s.graph.addEdge source target }
      { t with graph := t.graph.addEdge source target } := by
  obtain ⟨rfl, hk, hn⟩ := h
  refine ⟨?_, ⟨hk.graph.addEdge source target, fun id a ha => ?_, fun id i hi => ?_, hk.queue⟩, hn⟩
  · exact congrArg (fun g => { state s with graph := g }) (PointerGraph.addEdge_map s.graph _ _)
  · unfold PointerGraph.pointer? at ha
    rw [PointerGraph.pointers_addEdge] at ha
    exact hk.pointers id a ha
  · unfold EngineState.pointsTo at hi
    rw [PointerGraph.pointsTo_addEdge] at hi
    exact hk.sets id i hi

theorem Mirrors.link (h : Mirrors n s t) {a b : Pointer Unit} (ha : a.Below n) (hb : b.Below n) :
    Mirrors n (s.link a b) (t.link (OneContext.pointer a) (OneContext.pointer b)) := by
  obtain ⟨hsource, h₁⟩ := h.pointer ha
  obtain ⟨htarget, h₂⟩ := h₁.pointer hb
  have h₃ := h₂.addEdge (s.pointer a).1 ((s.pointer a).2.pointer b).1
  have hedge : ((t.pointer (OneContext.pointer a)).2.pointer (OneContext.pointer b)).2.graph.hasEdge
        (s.pointer a).1 ((s.pointer a).2.pointer b).1
      = ((s.pointer a).2.pointer b).2.graph.hasEdge (s.pointer a).1
        ((s.pointer a).2.pointer b).1 := by
    rw [h₂.same]
    rfl
  unfold EngineState.link
  simp only [hsource, htarget, hedge, h₃.pointsTo]
  split
  · exact h₂
  · split
    · exact h₃
    · exact h₃.send _ fun i hi => h₃.known.sets _ i hi

/-! ## 3. Methods -/

/-- A heap object is numbered on first use, and under the one context its object with it. -/
theorem Mirrors.intern (h : Mirrors n s t) (o : HeapObject) :
    (t.names.intern ⟨Contexts.empty, (t.heap.intern o).1⟩).1 = (s.heap.intern o).1 ∧
      (s.heap.intern o).1 < (s.heap.intern o).2.size ∧ n ≤ (s.heap.intern o).2.size ∧
      Mirrors (s.heap.intern o).2.size { s with heap := (s.heap.intern o).2, names := () }
        { t with
          heap := (t.heap.intern o).2
          names := (t.names.intern ⟨Contexts.empty, (t.heap.intern o).1⟩).2 } := by
  obtain ⟨rfl, hk, hn⟩ := h
  obtain ⟨hle, hsize⟩ := size_intern s.heap o
  have hnames : (state s).names.intern ⟨Contexts.empty, ((state s).heap.intern o).1⟩
      = ((s.heap.intern o).1, names (s.heap.intern o).2.size) := by
    rw [hsize]
    exact intern_names hle
  rw [hnames]
  have hgrow : s.heap.size ≤ (s.heap.intern o).2.size := by
    rw [hsize]
    exact Nat.le_max_left _ _
  refine ⟨rfl, ?_, Nat.le_trans hn hgrow, rfl, ⟨hk.graph, fun id a ha => ?_, fun id i hi => ?_,
    fun w hw => ?_⟩, Nat.le_refl _⟩
  · rw [hsize]
    exact Nat.le_max_right _ _
  · exact (hk.pointers id a ha).mono hgrow
  · exact Nat.lt_of_lt_of_le (hk.sets id i hi) hgrow
  · have hold := hk.queue w hw
    cases w with
    | points id objects => exact fun i hi => Nat.lt_of_lt_of_le (hold i hi) hgrow
    | call e => trivial

variable {p : Program}

theorem Mirrors.enterStmt (h : Mirrors n s t) (here : Site × Stmt) :
    Mirrors n (s.enterStmt p Plain.sensitivity () here)
      (t.enterStmt p rules Contexts.empty here) := by
  obtain ⟨site, stmt⟩ := here
  cases stmt with
  | alloc lhs ty length =>
    obtain rfl := h.same
    obtain ⟨hid, hlt, hle, hmade⟩ := h.intern (Heap.objectFor s.heap.policy site ty)
    exact (hmade.sendTo (a := .var () lhs) trivial hlt hid).weaken hle
  | assign lhs rhs =>
    cases rhs with
    | var rhs => exact h.link (a := .var () rhs) (b := .var () lhs) trivial trivial
    | cast ty rhs => exact h.link (a := .var () rhs) (b := .var () lhs) trivial trivial
    | int _ => exact h
    | binary _ _ _ => exact h
  | loadField lhs base f =>
    cases base with
    | none => exact h.link (a := .staticField f) (b := .var () lhs) trivial trivial
    | some _ => exact h
  | storeField base f rhs =>
    cases base with
    | none => exact h.link (a := .var () rhs) (b := .staticField f) trivial trivial
    | some _ => exact h
  | call i =>
    simp only [EngineState.enterStmt]
    split
    · split
      · rename_i callee _
        exact h.sendCall ⟨i.kind, ⟨(), site⟩, ⟨(), callee⟩⟩
      · exact h
    · exact h
  | _ => exact h

theorem Mirrors.withCalls (h : Mirrors n s t) (calls : ContextCallGraph Unit) :
    Mirrors n { s with calls := calls } { t with calls := calls.map qualified qualified } := by
  obtain ⟨rfl, hk, hn⟩ := h
  exact ⟨rfl, ⟨hk.graph, hk.pointers, hk.sets, hk.queue⟩, hn⟩

theorem Mirrors.addEntry (h : Mirrors n s t) (m : Qualified Unit MethodId) :
    Mirrors n { s with calls := s.calls.addEntry m }
      { t with calls := t.calls.addEntry (qualified m) } := by
  have hcalls : t.calls.addEntry (qualified m) = (s.calls.addEntry m).map qualified qualified := by
    rw [h.same]
    exact CallGraph.addEntry_map qualified_injective s.calls m
  rw [hcalls]
  exact h.withCalls _

theorem Mirrors.reach (h : Mirrors n s t) (m : Qualified Unit MethodId) :
    Mirrors n (s.reach p Plain.sensitivity m) (t.reach p rules (qualified m)) := by
  have hmethod : t.calls.hasMethod (qualified m) = s.calls.hasMethod m := by
    rw [h.same]
    exact CallGraph.hasMethod_map qualified_injective s.calls m
  have hcalls : t.calls.addReachable (qualified m)
      = (s.calls.addReachable m).map qualified qualified := by
    rw [h.same]
    exact CallGraph.addReachable_map qualified_injective s.calls m
  unfold EngineState.reach
  rw [hmethod, hcalls]
  split
  · exact h
  · exact Mirrors.foldl _ (fun here _ _ _ h => h.enterStmt here) (h.withCalls _)

/-! ## 4. New objects at a variable -/

theorem Mirrors.access (h : Mirrors n s t) (uses : Program.VarUses) {i : Nat} (hi : i < n) :
    Mirrors n (s.access p uses () i) (t.access p uses Contexts.empty i) := by
  unfold EngineState.access
  refine Mirrors.foldl _ (fun site _ _ _ h => ?_) (Mirrors.foldl _ (fun site _ _ _ h => ?_)
    (Mirrors.foldl _ (fun site _ _ _ h => ?_) (Mirrors.foldl _ (fun site _ _ _ h => ?_) h)))
  · split
    · rename_i rhs _
      exact h.link (a := .var () rhs) (b := .element i) trivial hi
    · exact h
  · split
    · rename_i lhs _ _ _
      exact h.link (a := .element i) (b := .var () lhs) hi trivial
    · exact h
  · split
    · rename_i f rhs _
      exact h.link (a := .var () rhs) (b := .field i f) trivial hi
    · exact h
  · split
    · rename_i lhs _ f _
      exact h.link (a := .field i f) (b := .var () lhs) hi trivial
    · exact h

theorem Mirrors.callOn (h : Mirrors n s t) {i : Nat} (hi : i < n) (site : Site) :
    Mirrors n (s.callOn p Plain.sensitivity () i site)
      (t.callOn p rules Contexts.empty i site) := by
  have hty : t.heap.tyOf (rules.heapObject t.names i) = s.heap.tyOf i := by
    rw [h.heapObject hi, h.heap]
  unfold EngineState.callOn
  rw [hty]
  cases p.invoke? site with
  | none => exact h
  | some call =>
    simp only [Plain.sensitivity]
    cases p.callee? (some (s.heap.tyOf i)) call with
    | none => exact h
    | some callee =>
      refine Mirrors.sendCall ?_ ⟨call.kind, ⟨(), site⟩, ⟨(), callee⟩⟩
      cases (p.methodAt callee).this with
      | none => exact h
      | some this => exact h.sendTo (a := .var () this) trivial hi rfl

theorem Mirrors.newObject (h : Mirrors n s t) (uses : Program.VarUses) {i : Nat} (hi : i < n) :
    Mirrors n (s.newObject p Plain.sensitivity uses () i)
      (t.newObject p rules uses Contexts.empty i) :=
  Mirrors.foldl _ (fun site _ _ _ h => h.callOn hi site) (h.access uses hi)

theorem Mirrors.connect (h : Mirrors n s t) (e : ContextCallEdge Unit) (i : Invoke) :
    Mirrors n (s.connect p e i) (t.connect p (edge e) i) := by
  have harguments : Mirrors n
      ((i.args.zip (p.methodAt e.callee.item).params).foldl
        (fun s e => s.link (.var () e.1) (.var () e.2)) s)
      ((i.args.zip (p.methodAt e.callee.item).params).foldl
        (fun t e => t.link (.var Contexts.empty e.1) (.var Contexts.empty e.2)) t) :=
    Mirrors.foldl _ (fun e _ _ _ h =>
      h.link (a := .var () e.1) (b := .var () e.2) trivial trivial) h
  unfold EngineState.connect
  cases i.result with
  | none => exact harguments
  | some result =>
    exact Mirrors.foldl _ (fun v _ _ _ h =>
      h.link (a := .var () v) (b := .var () result) trivial trivial) harguments

/-! ## 5. Objects that flow into a pointer -/

theorem Mirrors.addObjects (h : Mirrors n s t) (id : PointerId) {objects : IdSet}
    (ho : ∀ i ∈ objects, i < s.heap.size) :
    Mirrors n { s with graph := s.graph.addObjects id objects }
      { t with graph := t.graph.addObjects id objects } := by
  obtain ⟨rfl, hk, hn⟩ := h
  refine ⟨rfl, ⟨hk.graph.addObjects id objects, hk.pointers, fun id' i hi => ?_, hk.queue⟩, hn⟩
  rcases (PointerGraph.mem_pointsTo_addObjects hk.graph id objects id' i).mp hi with
    hold | ⟨-, -, hnew⟩
  · exact hk.sets id' i hold
  · exact ho i hnew

theorem Mirrors.grow (h : Mirrors n s t) (id : PointerId) {objects : IdSet}
    (ho : ∀ i ∈ objects, i < s.heap.size) :
    (t.grow id objects).1 = (s.grow id objects).1 ∧
      Mirrors n (s.grow id objects).2 (t.grow id objects).2 := by
  have hdelta : ∀ i ∈ objects.diff (s.pointsTo id), i < s.heap.size :=
    fun i hi => ho i (IdSet.mem_diff.mp hi).1
  have hadded := h.addObjects id hdelta
  have hsuccessors : (t.graph.addObjects id (objects.diff (s.pointsTo id))).successors id
      = (s.graph.addObjects id (objects.diff (s.pointsTo id))).successors id := by
    rw [h.same]
    rfl
  unfold EngineState.grow
  simp only [h.pointsTo, hsuccessors]
  split
  · exact ⟨rfl, hadded⟩
  · have hsent := Mirrors.foldl
      ((s.graph.addObjects id (objects.diff (s.pointsTo id))).successors id)
      (fun target _ _ _ h => h.send target fun i hi => Nat.lt_of_lt_of_le (hdelta i hi) h.size)
      hadded.all
    exact ⟨rfl, hsent.weaken h.size⟩

end Mirrors

end OneContext

/-! ## 6. Runs -/

namespace Engine

variable {κ ν ρ : Type} [DecidableEq κ]

/-- New objects at a pointer are taken up one by one, if it is a variable. -/
def takeUp (p : Program) (rules : Sensitivity κ ν) (id : PointerId) (delta : IdSet)
    (run : EngineState κ ν × ρ) : EngineState κ ν × ρ :=
  match run.1.graph.pointer? id with
  | some (.var c v) =>
    (delta.elems.foldl (EngineState.newObject p rules (p.usesOf v) c) run.1, run.2)
  | _ => run

theorem doPoints_eq (p : Program) (rules : Sensitivity κ ν) (plugin : Plugin κ ν ρ)
    (id : PointerId) (objects : IdSet) (s : EngineState κ ν) (r : ρ) :
    doPoints p rules plugin id objects (s, r)
      = if (s.grow id objects).1.isEmpty = true then ((s.grow id objects).2, r)
        else takeUp p rules id (s.grow id objects).1
          (plugin.onObjects rules id (s.grow id objects).1 ((s.grow id objects).2, r)) := rfl

end Engine

namespace OneContext

variable {ρ : Type}

/-- Mirrored states, and the same memory. -/
def MirrorsRun (n : Nat) (run : EngineState Unit Unit × ρ)
    (run' : EngineState ContextId ContextNames × ρ) : Prop :=
  Mirrors n run.1 run'.1 ∧ run'.2 = run.2

/-- **Two plugins that mirror each other**: from mirrored states they lead to mirrored states, and
    remember the same. -/
structure Mirrored (plugin : Plugin Unit Unit ρ)
    (plugin' : Plugin ContextId ContextNames ρ) : Prop where
  onObjects : ∀ {n s t} (id : PointerId) (delta : IdSet) (r : ρ), Mirrors n s t →
    (∀ i ∈ delta, i < n) →
    MirrorsRun n (plugin.onObjects Plain.sensitivity id delta (s, r))
      (plugin'.onObjects rules id delta (t, r))
  onCall : ∀ {n s t} (e : ContextCallEdge Unit) (r : ρ), Mirrors n s t →
    MirrorsRun n (plugin.onCall Plain.sensitivity e (s, r)) (plugin'.onCall rules (edge e) (t, r))
  onFinish : ∀ {n s t} (r : ρ), Mirrors n s t →
    plugin'.onFinish rules t r = plugin.onFinish Plain.sensitivity s r

theorem none_mirrored : Mirrored Plugin.none Plugin.none where
  onObjects _ _ _ h _ := ⟨h, rfl⟩
  onCall _ _ h := ⟨h, rfl⟩
  onFinish _ _ := rfl

section Runs

variable {p : Program} {plugin : Plugin Unit Unit ρ} {plugin' : Plugin ContextId ContextNames ρ}
  (hplugin : Mirrored plugin plugin') {n : Nat} {s : EngineState Unit Unit}
  {t : EngineState ContextId ContextNames}

include hplugin in
theorem Mirrors.doCall (h : Mirrors n s t) (e : ContextCallEdge Unit) (r : ρ) :
    MirrorsRun n (Engine.doCall p Plain.sensitivity plugin e (s, r))
      (Engine.doCall p rules plugin' (edge e) (t, r)) := by
  have hedge : t.calls.hasEdge (edge e).site (edge e).callee = s.calls.hasEdge e.site e.callee := by
    rw [h.same]
    exact CallGraph.hasEdge_map qualified_injective qualified_injective s.calls e.site e.callee
  have hcalls : t.calls.addEdge (edge e) = (s.calls.addEdge e).map qualified qualified := by
    rw [h.same]
    exact CallGraph.addEdge_map qualified_injective qualified_injective s.calls e
  have hreached := (h.withCalls (s.calls.addEdge e)).reach (p := p) e.callee
  unfold Engine.doCall
  simp only [hedge, hcalls]
  split
  · exact ⟨h, rfl⟩
  · have hinvoke : p.invoke? (edge e).site.item = p.invoke? e.site.item := rfl
    rw [hinvoke]
    cases p.invoke? e.site.item with
    | none => exact ⟨hreached, rfl⟩
    | some i => exact hplugin.onCall e r (hreached.connect e i)

theorem MirrorsRun.takeUp {run : EngineState Unit Unit × ρ}
    {run' : EngineState ContextId ContextNames × ρ} (h : MirrorsRun n run run') (id : PointerId)
    {delta : IdSet} (hdelta : ∀ i ∈ delta, i < n) :
    MirrorsRun n (Engine.takeUp p Plain.sensitivity id delta run)
      (Engine.takeUp p rules id delta run') := by
  have hpointer : run'.1.graph.pointer? id
      = (run.1.graph.pointer? id).map OneContext.pointer := by
    rw [h.1.same]
    exact Interner.get?_map _ id
  unfold Engine.takeUp
  rw [hpointer]
  cases run.1.graph.pointer? id with
  | none => exact h
  | some a =>
    cases a with
    | var c v =>
      exact ⟨Mirrors.foldl _ (fun i hi _ _ h => h.newObject (p.usesOf v) (hdelta i hi)) h.1, h.2⟩
    | staticField f => exact h
    | field o f => exact h
    | element o => exact h

include hplugin in
theorem Mirrors.doPoints (h : Mirrors n s t) (id : PointerId) {objects : IdSet}
    (ho : ∀ i ∈ objects, i < s.heap.size) (r : ρ) :
    MirrorsRun n (Engine.doPoints p Plain.sensitivity plugin id objects (s, r))
      (Engine.doPoints p rules plugin' id objects (t, r)) := by
  obtain ⟨hdelta, hgrown⟩ := h.all.grow id ho
  have hbelow : ∀ i ∈ (s.grow id objects).1, i < s.heap.size :=
    fun i hi => ho i ((mem_grow_fst s id objects i).mp hi).1
  rw [Engine.doPoints_eq, Engine.doPoints_eq, hdelta]
  split
  · exact ⟨hgrown.weaken h.size, rfl⟩
  · obtain ⟨htaken, hmemory⟩ := (hplugin.onObjects id (s.grow id objects).1 r hgrown hbelow).takeUp
      (p := p) id hbelow
    exact ⟨htaken.weaken h.size, hmemory⟩

include hplugin in
/-- **Items of work mirror each other**, whichever end of the queue they come from. -/
theorem MirrorsRun.step {run : EngineState Unit Unit × ρ}
    {run' : EngineState ContextId ContextNames × ρ} (h : MirrorsRun 0 run run') :
    Option.Rel (MirrorsRun 0) (Engine.step p Plain.sensitivity plugin run)
      (Engine.step p rules plugin' run') := by
  obtain ⟨s, r⟩ := run
  obtain ⟨t, r'⟩ := run'
  obtain rfl : r' = r := h.2
  replace h : Mirrors 0 s t := h.1
  have hpop : t.queue.pop?
      = s.queue.pop?.map fun (w, rest) => (w.map edge, rest.map (.map edge)) := by
    rw [h.same]
    exact WorkQueue.pop?_map s.queue
  unfold Engine.step
  simp only [hpop]
  cases hq : s.queue.pop? with
  | none => exact .none
  | some next =>
    obtain ⟨w, rest⟩ := next
    have hrest : Mirrors 0 { s with queue := rest } { t with queue := rest.map (.map edge) } := by
      obtain ⟨rfl, hk, hn⟩ := h
      exact ⟨rfl, ⟨hk.graph, hk.pointers, hk.sets, fun w' hw' =>
        hk.queue w' ((WorkQueue.mem_of_pop? hq w').mpr (.inr hw'))⟩, hn⟩
    have hw := h.known.queue w ((WorkQueue.mem_of_pop? hq w).mpr (.inl rfl))
    cases w with
    | points id objects => exact .some (hrest.doPoints hplugin id hw r')
    | call e => exact .some (hrest.doCall hplugin e r')

/-- The states runs start from mirror each other. -/
theorem start_mirrors (heap : HeapPolicy) (order : QueueOrder) (entry : MethodId) :
    Mirrors 0 (Engine.start p Plain.sensitivity () heap order entry)
      (Engine.start p rules {} heap order entry) := by
  have hblank : Mirrors 0
      ({ heap := { policy := heap }, names := (), queue := { order := order } } :
        EngineState Unit Unit)
      { heap := { policy := heap }, names := {}, queue := { order := order } } := by
    refine ⟨?_, ⟨PointerGraph.wf_empty, fun id a ha => ?_, fun id i hi => ?_, fun w hw => ?_⟩,
      Nat.zero_le _⟩
    · simp [state, names, Heap.size, Interner.size, PointerGraph.map, Interner.map, WorkQueue.map,
        CallGraph.map]
    · cases ha
    · simp [EngineState.pointsTo, PointerGraph.pointsTo] at hi
    · cases hw
  exact (hblank.reach (p := p) ⟨(), entry⟩).addEntry ⟨(), entry⟩

/-! ## 7. Results -/

theorem addTo_of_ne {a : Pointer Unit} {objects : IdSet} {sets : List (Pointer Unit × IdSet)}
    (h : ∀ e ∈ sets, e.1 ≠ a) : ContextResult.addTo a objects sets = sets ++ [(a, objects)] := by
  induction sets with
  | nil => rfl
  | cons e sets ih =>
    unfold ContextResult.addTo
    rw [if_neg (h e List.mem_cons_self), ih fun e' he' => h e' (List.mem_cons_of_mem e he')]
    rfl

/-- Adding each pointer once gives back the list of all. -/
theorem foldl_addTo {l : List (Pointer Unit × IdSet)} (sets : List (Pointer Unit × IdSet))
    (hd : ((sets ++ l).map (·.1)).Nodup) :
    l.foldl (fun sets e => ContextResult.addTo e.1 e.2 sets) sets = sets ++ l := by
  induction l generalizing sets with
  | nil => exact (List.append_nil sets).symm
  | cons e l ih =>
    have hsplit : sets ++ e :: l = (sets ++ [e]) ++ l := by simp
    have hne : ∀ e' ∈ sets, e'.1 ≠ e.1 := by
      intro e' he'
      rw [List.map_append, List.nodup_append] at hd
      exact hd.2.2 _ (List.mem_map_of_mem he') _ List.mem_cons_self
    rw [List.foldl_cons, addTo_of_ne hne, ih _ (hsplit ▸ hd), hsplit]

/-- No pointer stands twice in the table of all pointers. -/
theorem nodup_entries {g : PointerGraph (Pointer Unit)} (hg : g.WF) :
    (g.entries.map (·.1)).Nodup := by
  have hkeys : g.entries.map (·.1) = g.pointers.items.toList := by
    refine List.map_fst_zip ?_
    rw [Array.length_toList, Array.length_toList, hg.sets]
    exact Nat.le_refl _
  rw [hkeys, List.nodup_iff_getElem?_ne_getElem?]
  intro i j hij hj hsame
  have hget := List.getElem?_eq_getElem hj
  rw [hget, Array.getElem?_toList] at hsame
  rw [Array.getElem?_toList] at hget
  exact Nat.ne_of_lt hij (hg.distinct i j _ hsame hget)

/-- **With the one context forgotten, mirrored states give the same result.** -/
theorem Mirrors.forget_result (h : Mirrors n s t) :
    (ContextSensitive.result t).forget = Plain.result s := by
  have hobject : ∀ {i}, i < s.heap.size → (ContextSensitive.result t).heapObject i = i :=
    h.all.heapObject
  have hplain : ∀ a : Pointer Unit, a.Below s.heap.size →
      (ContextSensitive.result t).plainPointer (OneContext.pointer a) = a := by
    intro a ha
    cases a with
    | var c v => rfl
    | staticField f => rfl
    | field o f => exact congrArg (Pointer.field · f) (hobject ha)
    | element o => exact congrArg Pointer.element (hobject ha)
  have himage : ∀ objects : IdSet, (∀ i ∈ objects, i < s.heap.size) →
      objects.image (ContextSensitive.result t).heapObject = objects := by
    intro objects ho
    ext i
    rw [IdSet.mem_image]
    constructor
    · intro ⟨j, hj, hi⟩
      rw [hobject (ho j hj)] at hi
      exact hi ▸ hj
    · intro hi
      exact ⟨i, hi, hobject (ho i hi)⟩
  have hsets : (ContextSensitive.result t).forget.sets = s.graph.entries := by
    have hentries : (ContextSensitive.result t).sets
        = s.graph.entries.map fun e => (OneContext.pointer e.1, e.2) := by
      rw [h.same]
      exact PointerGraph.entries_map s.graph
    unfold ContextResult.forget
    rw [hentries, List.foldl_map]
    refine (List.foldl_ext _ _ _ fun sets e he => ?_).trans
      (foldl_addTo [] (nodup_entries h.known.graph))
    obtain ⟨id, ha, hset⟩ := PointerGraph.mem_entries he
    have hbelow : ∀ i ∈ e.2, i < s.heap.size := hset ▸ h.known.sets id
    simp only [hplain e.1 (h.known.pointers id e.1 ha), himage e.2 hbelow]
  have hcalls : (ContextSensitive.result t).forget.calls = (Plain.result s).calls := by
    rw [h.same]
    exact CallGraph.rename_map s.calls _ _
  have hheap : (ContextSensitive.result t).forget.heap = s.heap := h.heap
  show (⟨_, _, _⟩ : PlainResult) = ⟨_, _, _⟩
  rw [PlainResult.mk.injEq]
  exact ⟨hheap, hcalls, hsets⟩

include hplugin in
/-- **The two analyses run in step**: at every allowance they have both ended or neither has, and
    with the one context forgotten their results are the same. -/
theorem analyzeWithin_forget (options : PointsToOptions) (memory : ρ) (allowance : Nat)
    (entry : MethodId) :
    (ContextSensitive.analyzeWithin p { options with selector := .insensitive } plugin' memory
        allowance entry).map (fun (r, memory) => (r.forget, memory))
      = Plain.analyzeWithin p options plugin memory allowance entry := by
  have hruns : Option.Rel (MirrorsRun 0)
      (iterate (Engine.step p Plain.sensitivity plugin) allowance
        (Engine.start p Plain.sensitivity () options.heap options.order entry, memory))
      (iterate (Engine.step p rules plugin') allowance
        (Engine.start p rules {} options.heap options.order entry, memory)) :=
    iterate_related (fun _ _ h => h.step hplugin) allowance
      ⟨start_mirrors options.heap options.order entry, rfl⟩
  unfold ContextSensitive.analyzeWithin Plain.analyzeWithin Engine.runWithin
  simp only
  generalize iterate (Engine.step p Plain.sensitivity plugin) allowance _ = out at hruns ⊢
  generalize iterate (Engine.step p rules plugin') allowance _ = out' at hruns ⊢
  cases hruns with
  | none => rfl
  | some h =>
    rename_i run run'
    have hfinish : plugin'.onFinish rules run'.1 run'.2
        = plugin.onFinish Plain.sensitivity run.1 run.2 := by
      rw [h.2]
      exact hplugin.onFinish run.2 h.1
    exact congrArg some (Prod.ext h.1.forget_result hfinish)

end Runs

end OneContext

end ObjectFlow
