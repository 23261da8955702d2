/-
  File:      ObjectFlow/Proofs/Dataflow/HeapLoads.lean
  Subject:   LOADS ARE NEVER STALE: where constant propagation across methods stops, what a load
             gives is the join of what the stores it may read from store.

  A store leaves the value of its variable in the memory of the analysis, and a load joins what
  the stores it may read from left there. What the memory holds in the end is what the final facts
  before the stores say, and no load has joined anything else.

  * `fieldValues`, `elementValues`: the values a load may find, told by the final facts alone;
  * `consults`: how loads and stores use the memory;
  * `heap_loads_are_current`: every load with a store it may read from gives their join.
-/
import Mathlib.Order.Bounds.Basic
import ObjectFlow.Proofs.Dataflow.ProgramEquations
import ObjectFlow.Proofs.Dataflow.Remembering
import ObjectFlow.Proofs.Domain.Maps

namespace ObjectFlow

namespace ProgramConstants

/-! ## 1. What a load may find -/

section Stores

variable (p : Program) (graph : Supergraph) (points : PlainResult)

/-- **Node `s` stores the integer variable `rhs` where a load of field `f` may find it**: in the
    same static field, or in the same field of an object both bases may point to. -/
inductive FieldStore (f : FieldId) (s : Nat) (rhs : VarId) : Option VarId → Prop
  | static (stmt : stmtAt? p graph s = some (.storeField none f rhs))
      (integer : p.holdsInt rhs = true) : FieldStore f s rhs none
  | through {x y : VarId} (stmt : stmtAt? p graph s = some (.storeField (some y) f rhs))
      (integer : p.holdsInt rhs = true) (meets : points.mayAlias x y = true) :
      FieldStore f s rhs (some x)

/-- **Node `s` stores the integer variable `rhs` where a load of an element of `x` may find it**,
    at `index` of an array both bases may point to. -/
inductive ElementStore (x : VarId) (s : Nat) (rhs index : VarId) : Prop
  | mk {y : VarId} (stmt : stmtAt? p graph s = some (.storeArray y index rhs))
      (integer : p.holdsInt rhs = true) (meets : points.mayAlias x y = true)

end Stores

namespace Result

/-- The values that the stores a field load may read from store, by the facts before them. -/
def fieldValues (r : Result) (p : Program) (points : PlainResult) (base : Option VarId)
    (f : FieldId) : Set ConstValue :=
  {value | ∃ s rhs fact, FieldStore p r.graph points f s rhs base ∧
    r.facts.in? s = some fact ∧ value = fact.get rhs}

/-- The values that the stores a load of the element at `i` may read from store, by the facts
    before them: only where the indices may be equal. -/
def elementValues (r : Result) (p : Program) (points : PlainResult) (base : VarId)
    (i : ConstValue) : Set ConstValue :=
  {value | ∃ s rhs index fact, ElementStore p r.graph points base s rhs index ∧
    r.facts.in? s = some fact ∧ mayBeEqual i (valueOf p fact index) = true ∧
    value = fact.get rhs}

/-- **Node `n` sets `lhs` to the join of some values**, which depend on the fact before it, and
    changes no other variable. -/
def Joins (r : Result) (n : Nat) (lhs : VarId) (values : ConstFact → Set ConstValue) : Prop :=
  ∃ before after, r.facts.in? n = some before ∧ r.facts.out? n = some after ∧
    IsLUB (values before) (after.get lhs) ∧ ∀ v, v ≠ lhs → after.get v = before.get v

end Result

/-! ## 2. Loads and their stores -/

section Accesses

variable {p : Program} {graph : Supergraph} {points : PlainResult}

theorem mem_accesses {place? : Stmt → Option Place} {n : Nat} {place : Place} :
    (n, place) ∈ accesses p graph place? ↔ n < graph.graph.nodeCount ∧
      ∃ stmt, stmtAt? p graph n = some stmt ∧ place? stmt = some place := by
  unfold accesses FlowGraph.nodes
  rw [List.mem_filterMap]
  refine ⟨fun ⟨m, hm, h⟩ => ?_, fun ⟨hn, stmt, hstmt, hplace⟩ => ?_⟩
  · obtain ⟨place', hplace, hpair⟩ := Option.map_eq_some_iff.mp h
    cases hpair
    exact ⟨List.mem_range.mp hm, Option.bind_eq_some_iff.mp hplace⟩
  · exact ⟨n, List.mem_range.mpr hn, by rw [hstmt, Option.bind_some, hplace]; rfl⟩

/-- A load waits for the stores it may read from. -/
theorem mem_pairs {load store : Nat} :
    (load, store) ∈ (links p graph points).pairs ↔
      ∃ source target, (load, source) ∈ accesses p graph (loaded? p) ∧
        (store, target) ∈ accesses p graph (stored? p) ∧
        source.mayAlias points target = true := by
  unfold links
  simp only [List.mem_flatMap, List.mem_map, List.mem_filter]
  refine ⟨fun ⟨(l, source), hl, (s, target), ⟨hs, halias⟩, hpair⟩ => ?_,
    fun ⟨source, target, hl, hs, halias⟩ => ?_⟩
  · cases hpair
    exact ⟨source, target, hl, hs, halias⟩
  · exact ⟨(load, source), hl, (store, target), ⟨hs, halias⟩, rfl⟩

theorem mem_storesOf {l : Links} {load store : Nat} :
    store ∈ l.storesOf load ↔ (load, store) ∈ l.pairs := by
  unfold Links.storesOf
  simp

theorem mem_loadsOf {l : Links} {load store : Nat} :
    load ∈ l.loadsOf store ↔ (load, store) ∈ l.pairs := by
  unfold Links.loadsOf
  simp

/-- A node that loads wait for has a store. -/
theorem exists_stored {store : Nat} (h : (links p graph points).loadsOf store ≠ []) :
    ∃ stmt target, stmtAt? p graph store = some stmt ∧ stored? p stmt = some target := by
  obtain ⟨load, hload⟩ := List.exists_mem_of_ne_nil _ h
  obtain ⟨_, target, -, hstore, -⟩ := mem_pairs.mp (mem_loadsOf.mp hload)
  obtain ⟨-, stmt, hstmt, htarget⟩ := mem_accesses.mp hstore
  exact ⟨stmt, target, hstmt, htarget⟩

theorem of_stored? {stmt : Stmt} {target : Place} (h : stored? p stmt = some target) :
    (∃ base f rhs, stmt = .storeField base f rhs ∧ p.holdsInt rhs = true ∧
        target = .field base f) ∨
      ∃ base index rhs, stmt = .storeArray base index rhs ∧ p.holdsInt rhs = true ∧
        target = .element base := by
  cases stmt <;> simp [stored?] at h ⊢ <;> exact ⟨h.1, h.2.symm⟩

variable {entry : MethodId}

theorem lt_of_stmtAt? (hgraph : Supergraph.ofCalls? p points.calls entry = some graph) {n : Nat}
    {stmt : Stmt} (h : stmtAt? p graph n = some stmt) :
    n < graph.graph.nodeCount ∧ DataflowProblem.isInner graph.graph n = true := by
  obtain ⟨site, hsite, -⟩ := Option.bind_eq_some_iff.mp h
  exact ⟨Supergraph.lt_of_siteOf? hgraph hsite, Supergraph.isInner_of_siteOf? hgraph hsite⟩

/-- The stores of a load are those whose place may be the one it looks at. -/
theorem mem_storesOf_links {load store : Nat} {stmt : Stmt} {source : Place}
    (hgraph : Supergraph.ofCalls? p points.calls entry = some graph)
    (hstmt : stmtAt? p graph load = some stmt) (hsource : loaded? p stmt = some source) :
    store ∈ (links p graph points).storesOf load ↔ ∃ stmt' target,
      stmtAt? p graph store = some stmt' ∧ stored? p stmt' = some target ∧
        source.mayAlias points target = true := by
  rw [mem_storesOf, mem_pairs]
  refine ⟨fun ⟨source', target, hload, hstore, hmeets⟩ => ?_,
    fun ⟨stmt', target, hstmt', htarget, hmeets⟩ => ?_⟩
  · obtain ⟨-, _, hstmt', hsource'⟩ := mem_accesses.mp hload
    obtain ⟨-, stmt', hstore, htarget⟩ := mem_accesses.mp hstore
    rw [hstmt] at hstmt'
    cases hstmt'
    rw [hsource] at hsource'
    cases hsource'
    exact ⟨stmt', target, hstore, htarget, hmeets⟩
  · exact ⟨source, target, mem_accesses.mpr ⟨(lt_of_stmtAt? hgraph hstmt).1, stmt, hstmt, hsource⟩,
      mem_accesses.mpr ⟨(lt_of_stmtAt? hgraph hstmt').1, stmt', hstmt', htarget⟩, hmeets⟩

theorem mem_storesOf_field {load store : Nat} {lhs : VarId} {base : Option VarId} {f : FieldId}
    (hgraph : Supergraph.ofCalls? p points.calls entry = some graph)
    (hstmt : stmtAt? p graph load = some (.loadField lhs base f))
    (hlhs : p.holdsInt lhs = true) :
    store ∈ (links p graph points).storesOf load ↔
      ∃ rhs, FieldStore p graph points f store rhs base := by
  have hplace : loaded? p (.loadField lhs base f) = some (.field base f) := if_pos hlhs
  rw [mem_storesOf_links hgraph hstmt hplace]
  refine ⟨fun ⟨stmt, target, hstore, htarget, hmeets⟩ => ?_, fun ⟨rhs, hstore⟩ => ?_⟩
  · rcases of_stored? htarget with ⟨base', g, rhs, rfl, hrhs, rfl⟩ | ⟨_, _, _, rfl, -, rfl⟩
    · refine ⟨rhs, ?_⟩
      cases base <;> cases base' <;> simp [Place.mayAlias] at hmeets
      · subst hmeets
        exact .static hstore hrhs
      · obtain ⟨rfl, hmeets⟩ := hmeets
        exact .through hstore hrhs hmeets
    · cases base <;> simp [Place.mayAlias] at hmeets
  · cases hstore with
    | static hstore hrhs =>
      exact ⟨_, _, hstore, if_pos hrhs, by simp [Place.mayAlias]⟩
    | through hstore hrhs hmeets =>
      exact ⟨_, _, hstore, if_pos hrhs, by simp [Place.mayAlias, hmeets]⟩

theorem mem_storesOf_element {load store : Nat} {lhs base index : VarId}
    (hgraph : Supergraph.ofCalls? p points.calls entry = some graph)
    (hstmt : stmtAt? p graph load = some (.loadArray lhs base index))
    (hlhs : p.holdsInt lhs = true) :
    store ∈ (links p graph points).storesOf load ↔
      ∃ rhs index', ElementStore p graph points base store rhs index' := by
  have hplace : loaded? p (.loadArray lhs base index) = some (.element base) := if_pos hlhs
  rw [mem_storesOf_links hgraph hstmt hplace]
  refine ⟨fun ⟨stmt, target, hstore, htarget, hmeets⟩ => ?_, fun ⟨rhs, index', hstore⟩ => ?_⟩
  · rcases of_stored? htarget with ⟨_, _, _, rfl, -, rfl⟩ | ⟨base', index', rhs, rfl, hrhs, rfl⟩
    · cases hmeets
    · exact ⟨rhs, index', .mk hstore hrhs hmeets⟩
  · obtain ⟨hstore, hrhs, hmeets⟩ := hstore
    exact ⟨_, _, hstore, if_pos hrhs, hmeets⟩

end Accesses

/-! ## 3. What the memory holds -/

/-- What a remembered value counts for, for a load: nothing where the indices differ. -/
def counted (entry : ConstValue × ConstValue) (index : Option ConstValue) : ConstValue :=
  match index with
  | none => entry.1
  | some i => if mayBeEqual i entry.2 then entry.1 else .undefined

namespace Memory

/-- What the memory holds of a store, for a load. -/
def held (memory : Memory) (store : Nat) (index : Option ConstValue) : ConstValue :=
  match memory.lookup store with
  | none => .undefined
  | some entry => counted entry index

theorem lookup_filter_ne {store other : Nat} (h : other ≠ store) (memory : Memory) :
    (memory.filter (·.1 ≠ store)).lookup other = memory.lookup other := by
  induction memory with
  | nil => rfl
  | cons entry rest ih =>
    obtain ⟨node, written⟩ := entry
    by_cases hnode : node = store
    · subst hnode
      rw [List.filter_cons_of_neg (by simp), ih, List.lookup_cons, beq_false_of_ne h]
    · rw [List.filter_cons_of_pos (by simpa using hnode), List.lookup_cons, List.lookup_cons, ih]

theorem held_set (memory : Memory) (store other : Nat) (value index : ConstValue) :
    (memory.set store value index).held other =
      if other = store then counted (value, index) else memory.held other := by
  funext i
  unfold held Memory.set
  by_cases h : other = store
  · subst h
    simp
  · rw [List.lookup_cons, beq_false_of_ne h, if_neg h, lookup_filter_ne h]

end Memory

/-- What a store leaves in the memory: the value it stores, and for arrays the index. -/
def written (p : Program) (graph : Supergraph) (store : Nat) (fact : ConstFact) :
    ConstValue × ConstValue :=
  match stmtAt? p graph store with
  | some (.storeField _ _ rhs) => (valueOf p fact rhs, .undefined)
  | some (.storeArray _ index rhs) => (valueOf p fact rhs, valueOf p fact index)
  | _ => (.undefined, .undefined)

/-- A load joins what the memory holds of its stores. -/
theorem loadedValue_eq (l : Links) (memory : Memory) (load : Nat) (index : Option ConstValue) :
    loadedValue l memory load index =
      (l.storesOf load).foldl (fun value store => value ⊔ memory.held store index) .undefined := by
  unfold loadedValue
  congr 1
  funext value store
  unfold Memory.held counted
  cases memory.lookup store with
  | none => exact (sup_bot_eq value).symm
  | some entry =>
    cases index with
    | none => rfl
    | some i =>
      show (if mayBeEqual i entry.2 = true then value ⊔ entry.1 else value) =
        value ⊔ if mayBeEqual i entry.2 = true then entry.1 else .undefined
      split
      · rfl
      · exact (sup_bot_eq value).symm

theorem foldl_sup_le_iff {α β : Type} [SemilatticeSup α] (f : β → α) (l : List β) {a bound : α} :
    l.foldl (fun value b => value ⊔ f b) a ≤ bound ↔ a ≤ bound ∧ ∀ b ∈ l, f b ≤ bound := by
  induction l generalizing a with
  | nil => simp
  | cons b l ih => rw [List.foldl_cons, ih, sup_le_iff, List.forall_mem_cons, and_assoc]

/-- **A load gives the least value above all that the memory holds of its stores.** -/
theorem loadedValue_le_iff {l : Links} {memory : Memory} {load : Nat} {index : Option ConstValue}
    {bound : ConstValue} : loadedValue l memory load index ≤ bound ↔
      ∀ store ∈ l.storesOf load, memory.held store index ≤ bound := by
  rw [loadedValue_eq, foldl_sup_le_iff]
  exact and_iff_right (ConstValue.undefined_le bound)

section Transfer

variable {p : Program} {graph : Supergraph} {points : PlainResult} {l : Links} {n : Nat}

/-- **A store that a load may read from leaves what it stores and passes its input on.** -/
theorem transferNode_store (h : (links p graph points).loadsOf n ≠ []) (fact : ConstFact)
    (memory : Memory) : transferNode p graph (links p graph points) n fact memory =
      (fact, memory.set n (written p graph n fact).1 (written p graph n fact).2) := by
  obtain ⟨stmt, target, hstmt, htarget⟩ := exists_stored h
  unfold transferNode written
  rw [hstmt]
  rcases of_stored? htarget with ⟨base, f, rhs, rfl, -, -⟩ | ⟨base, index, rhs, rfl, -, -⟩ <;>
    simp [h]

/-- No other node leaves anything. -/
theorem transferNode_memory (h : l.loadsOf n = []) (fact : ConstFact) (memory : Memory) :
    (transferNode p graph l n fact memory).2 = memory := by
  unfold transferNode
  cases stmtAt? p graph n with
  | none => rfl
  | some stmt => cases stmt <;> simp [h] <;> split <;> rfl

/-- A transfer reads of the memory what the stores left that the node may read from. -/
theorem transferNode_congr {memory memory' : Memory}
    (h : ∀ store ∈ l.storesOf n, memory.held store = memory'.held store) (fact : ConstFact) :
    (transferNode p graph l n fact memory).1 = (transferNode p graph l n fact memory').1 := by
  have hloaded : loadedValue l memory n = loadedValue l memory' n := by
    funext index
    refine eq_of_forall_ge_iff fun bound => ?_
    rw [loadedValue_le_iff, loadedValue_le_iff]
    exact forall₂_congr fun store hstore => by rw [h store hstore]
  unfold transferNode
  cases stmtAt? p graph n with
  | none => rfl
  | some stmt => cases stmt <;> simp [hloaded] <;> split <;> rfl

/-- **How loads and stores use the memory.** -/
theorem consults : (problem p graph (links p graph points)).Consults Memory.held
    fun store fact => counted (written p graph store fact) where
  noted n hn fact memory := by
    show Memory.held (transferNode p graph _ n fact memory).2 n = _
    rw [transferNode_store hn, Memory.held_set, if_pos rfl]
  kept n fact memory m hm := by
    show Memory.held (transferNode p graph _ n fact memory).2 m = _
    by_cases hn : (links p graph points).loadsOf n = []
    · rw [transferNode_memory hn]
    · rw [transferNode_store hn, Memory.held_set, if_neg hm]
  passed n hn fact memory := by
    show (transferNode p graph _ n fact memory).1 = fact
    rw [transferNode_store hn]
  read n fact memory memory' h := by
    refine transferNode_congr (fun store hstore => h store ?_) fact
    exact mem_loadsOf.mpr (mem_storesOf.mp hstore)

theorem transferNode_loadField {lhs : VarId} {base : Option VarId} {f : FieldId}
    (hstmt : stmtAt? p graph n = some (.loadField lhs base f)) (h : l.storesOf n ≠ [])
    (fact : ConstFact) (memory : Memory) : (transferNode p graph l n fact memory).1 =
      fact.update lhs (loadedValue l memory n none) := by
  unfold transferNode
  rw [hstmt]
  simp [h]

theorem transferNode_loadArray {lhs base index : VarId}
    (hstmt : stmtAt? p graph n = some (.loadArray lhs base index)) (h : l.storesOf n ≠ [])
    (fact : ConstFact) (memory : Memory) : (transferNode p graph l n fact memory).1 =
      fact.update lhs (loadedValue l memory n (some (valueOf p fact index))) := by
  unfold transferNode
  rw [hstmt]
  simp [h]

end Transfer

section Written

variable {p : Program} {graph : Supergraph} {points : PlainResult} {s : Nat} {rhs : VarId}

theorem valueOf_of_holdsInt {v : VarId} (h : p.holdsInt v = true) (fact : ConstFact) :
    valueOf p fact v = fact.get v := if_pos h

theorem FieldStore.written_eq {f : FieldId} {base : Option VarId}
    (h : FieldStore p graph points f s rhs base) (fact : ConstFact) :
    written p graph s fact = (fact.get rhs, .undefined) := by
  unfold written
  cases h with
  | static hstmt hrhs => simp only [hstmt, valueOf_of_holdsInt hrhs]
  | through hstmt hrhs _ => simp only [hstmt, valueOf_of_holdsInt hrhs]

theorem ElementStore.written_eq {x index : VarId}
    (h : ElementStore p graph points x s rhs index) (fact : ConstFact) :
    written p graph s fact = (fact.get rhs, valueOf p fact index) := by
  unfold written
  obtain ⟨hstmt, hrhs, -⟩ := h
  simp only [hstmt, valueOf_of_holdsInt hrhs]

end Written

/-! ## 4. Results -/

section Results

variable {p : Program} {entry : MethodId} {points : PlainResult} {order : VisitOrder}
  {allowance : Nat} {r : Result}

/-- A store that a load may read from is a node between entry and exit of the program. -/
theorem recorders (hgraph : Supergraph.ofCalls? p points.calls entry = some r.graph) :
    (problem p r.graph (links p r.graph points)).Recorders r.graph.graph := by
  intro n hn
  obtain ⟨stmt, _, hstmt, -⟩ := exists_stored hn
  exact lt_of_stmtAt? hgraph hstmt

/-- Before the first visit nothing is remembered, and a store of an integer stores nothing yet. -/
theorem counted_written_empty {graph : Supergraph} {n : Nat}
    (hn : (links p graph points).loadsOf n ≠ []) (index : Option ConstValue) :
    counted (written p graph n .empty) index = .undefined := by
  obtain ⟨stmt, target, hstmt, htarget⟩ := exists_stored hn
  have hvalue : (written p graph n .empty).1 = .undefined := by
    unfold written valueOf
    rw [hstmt]
    rcases of_stored? htarget with ⟨_, _, rhs, rfl, hrhs, -⟩ | ⟨_, _, rhs, rfl, hrhs, -⟩ <;>
      exact if_pos hrhs
  unfold counted
  cases index with
  | none => exact hvalue
  | some i => simp [hvalue]

/-- **No output is stale**: every statement has for the fact after it what its transfer makes of the
    fact before it, with a memory that holds what the stores leave there for the facts before
    them. -/
theorem current_of_analyzeWithin (hp : p.JumpsInside)
    (h : analyzeWithin p entry points order allowance = some r) :
    ∃ memory : Memory,
      (∀ s fact, (links p r.graph points).loadsOf s ≠ [] → r.facts.in? s = some fact →
        memory.held s = counted (written p r.graph s fact)) ∧
      ∀ n stmt, stmtAt? p r.graph n = some stmt → ∃ before, r.facts.in? n = some before ∧
        r.facts.out? n =
          some (transferNode p r.graph (links p r.graph points) n before memory).1 := by
  obtain ⟨hgraph, last, hrun⟩ := of_analyzeWithin h
  have hb := bounded hp hgraph
  obtain ⟨hdirection, hinputs, houtputs, -⟩ := DataflowProblem.inputAt_of_solveWithin hb hrun
  have hfacts : ∀ n < r.graph.graph.nodeCount,
      r.facts.in? n =
        some ((problem p r.graph (links p r.graph points)).inputAt r.facts n) ∧
      r.facts.out? n =
        some ((problem p r.graph (links p r.graph points)).outputAt r.facts n) := by
    intro n hn
    unfold Facts.in? Facts.out? DataflowProblem.inputAt DataflowProblem.outputAt
    rw [hdirection]
    refine ⟨?_, ?_⟩
    · show r.facts.inputs[n]? = _
      simp [hinputs, hn]
    · show r.facts.outputs[n]? = _
      simp [houtputs, hn]
  have hempty : ∀ n, (links p r.graph points).loadsOf n ≠ [] →
      Memory.held [] n = counted (written p r.graph n .empty) :=
    fun n hn => funext fun index => (counted_written_empty hn index).symm
  obtain ⟨memory, hheld, houtput⟩ :=
    DataflowProblem.current_of_solveWithin hb (recorders hgraph) consults hempty hrun
  refine ⟨memory, fun s fact hs hfact => ?_, fun n stmt hstmt => ?_⟩
  · rw [(hfacts s (recorders hgraph s hs).1).1] at hfact
    cases hfact
    exact hheld s hs
  · obtain ⟨hn, hinner⟩ := lt_of_stmtAt? hgraph hstmt
    refine ⟨_, (hfacts n hn).1, ?_⟩
    rw [(hfacts n hn).2, houtput n hn hinner]
    rfl

/-- What a load sets its variable to, given the bounds of what its stores leave. -/
theorem Result.joins_of_load (hp : p.JumpsInside)
    (h : analyzeWithin p entry points order allowance = some r) {n : Nat} {stmt : Stmt}
    (hstmt : stmtAt? p r.graph n = some stmt) {lhs : VarId}
    (index : ConstFact → Option ConstValue) {values : ConstFact → Set ConstValue}
    (htransfer : ∀ fact memory,
      (transferNode p r.graph (links p r.graph points) n fact memory).1 =
        fact.update lhs (loadedValue (links p r.graph points) memory n (index fact)))
    (hvalues : ∀ before bound, bound ∈ upperBounds (values before) ↔
      ∀ s ∈ (links p r.graph points).storesOf n, ∀ fact, r.facts.in? s = some fact →
        counted (written p r.graph s fact) (index before) ≤ bound) :
    r.Joins n lhs values := by
  obtain ⟨memory, hheld, hout⟩ := current_of_analyzeWithin hp h
  obtain ⟨before, hbefore, hafter⟩ := hout n stmt hstmt
  rw [htransfer] at hafter
  refine ⟨before, _, hbefore, hafter, isLUB_iff_le_iff.mpr fun bound => ?_, fun v hv => ?_⟩
  · rw [FactMap.get_update, if_pos rfl, loadedValue_le_iff, hvalues]
    refine forall₂_congr fun s hs => ?_
    have hloads : (links p r.graph points).loadsOf s ≠ [] :=
      List.ne_nil_of_mem (mem_loadsOf.mpr (mem_storesOf.mp hs))
    refine ⟨fun hle fact hfact => hheld s fact hloads hfact ▸ hle, fun hle => ?_⟩
    obtain ⟨_, _, hstmt', -⟩ := exists_stored hloads
    obtain ⟨fact, hfact, -⟩ := hout s _ hstmt'
    rw [hheld s fact hloads hfact]
    exact hle fact hfact
  · rw [FactMap.get_update, if_neg fun hl => hv hl.symm]

theorem Result.joins_of_loadField (hp : p.JumpsInside)
    (h : analyzeWithin p entry points order allowance = some r) {n : Nat} {lhs : VarId}
    {base : Option VarId} {f : FieldId}
    (hstmt : stmtAt? p r.graph n = some (.loadField lhs base f)) (hlhs : p.holdsInt lhs = true)
    (hstore : ∃ s rhs, FieldStore p r.graph points f s rhs base) :
    r.Joins n lhs fun _ => r.fieldValues p points base f := by
  have hmem : ∀ s, s ∈ (links p r.graph points).storesOf n ↔
      ∃ rhs, FieldStore p r.graph points f s rhs base :=
    fun s => mem_storesOf_field (of_analyzeWithin h).1 hstmt hlhs
  have hstores : (links p r.graph points).storesOf n ≠ [] := by
    obtain ⟨s, hs⟩ := hstore
    exact List.ne_nil_of_mem ((hmem s).mpr hs)
  refine Result.joins_of_load hp h hstmt (fun _ => none)
    (transferNode_loadField hstmt hstores) fun _ bound => ⟨fun hbound s hs fact hfact => ?_,
      fun hbound value ⟨s, rhs, fact, hs, hfact, hvalue⟩ => ?_⟩
  · obtain ⟨rhs, hs⟩ := (hmem s).mp hs
    rw [hs.written_eq]
    exact hbound ⟨s, rhs, fact, hs, hfact, rfl⟩
  · have hle := hbound s ((hmem s).mpr ⟨rhs, hs⟩) fact hfact
    rw [hs.written_eq] at hle
    exact hvalue ▸ hle

theorem Result.joins_of_loadArray (hp : p.JumpsInside)
    (h : analyzeWithin p entry points order allowance = some r) {n : Nat} {lhs base index : VarId}
    (hstmt : stmtAt? p r.graph n = some (.loadArray lhs base index))
    (hlhs : p.holdsInt lhs = true)
    (hstore : ∃ s rhs index', ElementStore p r.graph points base s rhs index') :
    r.Joins n lhs fun before => r.elementValues p points base (valueOf p before index) := by
  have hmem : ∀ s, s ∈ (links p r.graph points).storesOf n ↔
      ∃ rhs index', ElementStore p r.graph points base s rhs index' :=
    fun s => mem_storesOf_element (of_analyzeWithin h).1 hstmt hlhs
  have hstores : (links p r.graph points).storesOf n ≠ [] := by
    obtain ⟨s, hs⟩ := hstore
    exact List.ne_nil_of_mem ((hmem s).mpr hs)
  refine Result.joins_of_load hp h hstmt (fun before => some (valueOf p before index))
    (transferNode_loadArray hstmt hstores) fun before bound => ⟨fun hbound s hs fact hfact => ?_,
      fun hbound value ⟨s, rhs, index', fact, hs, hfact, hequal, hvalue⟩ => ?_⟩
  · obtain ⟨rhs, index', hs⟩ := (hmem s).mp hs
    rw [hs.written_eq, counted]
    by_cases hequal : mayBeEqual (valueOf p before index) (valueOf p fact index') = true
    · rw [if_pos hequal]
      exact hbound ⟨s, rhs, index', fact, hs, hfact, hequal, rfl⟩
    · rw [if_neg hequal]
      exact ConstValue.undefined_le bound
  · have hle := hbound s ((hmem s).mpr ⟨rhs, index', hs⟩) fact hfact
    rw [hs.written_eq, counted, if_pos hequal] at hle
    exact hvalue ▸ hle

end Results

/-- **Loads of integers are never stale**: where the analysis stops, a load with a store it may
    read from gives the join of what those stores store, by the final facts before them, and for
    elements of arrays of those among them whose index may be equal. It changes no other
    variable. -/
theorem heap_loads_are_current {source : String} {p : Program}
    (hp : Program.ofSource source = .ok p) {entry : MethodId} {points : PlainResult}
    {order : VisitOrder} {allowance : Nat} {r : Result}
    (h : analyzeWithin p entry points order allowance = some r) :
    (∀ n lhs base f, stmtAt? p r.graph n = some (.loadField lhs base f) →
      p.holdsInt lhs = true → (∃ s rhs, FieldStore p r.graph points f s rhs base) →
      r.Joins n lhs fun _ => r.fieldValues p points base f) ∧
    ∀ n lhs base index, stmtAt? p r.graph n = some (.loadArray lhs base index) →
      p.holdsInt lhs = true → (∃ s rhs index', ElementStore p r.graph points base s rhs index') →
      r.Joins n lhs fun before => r.elementValues p points base (valueOf p before index) := by
  have hjumps := Program.jumpsInside_of_ofSource hp
  exact ⟨fun n lhs base f hstmt hlhs hstore => Result.joins_of_loadField hjumps h hstmt hlhs hstore,
    fun n lhs base index hstmt hlhs hstore => Result.joins_of_loadArray hjumps h hstmt hlhs hstore⟩

/-- Loads that stand before the stores they read from. -/
def storingBehind : String :=
  "class A \x7b
    static field int total;
    static method void main() \x7b
      var int v, w, i; var int[] xs;
      i = 5;
      xs = new int[i];
      v = A.total;
      w = xs[i];
      A.total = i;
      xs[i] = v;
    \x7d
  \x7d"

set_option maxRecDepth 2000 in
/-- The field load gives what is stored behind it, and the array load gives that in turn. -/
theorem heap_loads_are_current_storing_behind :
    ∃ p points r, Program.ofSource storingBehind = .ok p ∧
      Plain.analyzeWithin p {} Plugin.none () 40 0 = some (points, ()) ∧
      analyzeWithin p 0 points .fifo 60 = some r ∧
      (r.Joins 3 0 fun _ => r.fieldValues p points none 0) ∧
      (r.Joins 4 1 fun before => r.elementValues p points 3 (valueOf p before 2)) ∧
      (r.facts.out? 4).map (·.get 1) = some (.const 5) := by
  obtain ⟨p, hp, h⟩ := Program.exists_of_any_ofSource storingBehind
    (fun p => (Plain.analyzeWithin p {} Plugin.none () 40 0).any fun points : PlainResult × Unit =>
      (analyzeWithin p 0 points.1 .fifo 60).any fun r : Result => decide (
        stmtAt? p r.graph 3 = some (.loadField 0 none 0) ∧ p.holdsInt 0 = true ∧
        stmtAt? p r.graph 4 = some (.loadArray 1 3 2) ∧ p.holdsInt 1 = true ∧
        stmtAt? p r.graph 5 = some (.storeField none 0 2) ∧ p.holdsInt 2 = true ∧
        stmtAt? p r.graph 6 = some (.storeArray 3 2 0) ∧ points.1.mayAlias 3 3 = true ∧
        (r.facts.out? 4).map (·.get 1) = some (.const 5))) (by
    have htext : storingBehind.toList = _ := String.toList_ofList
    rw [Program.ofSource, lex_eq htext]
    decide +kernel)
  obtain ⟨⟨points, _⟩, hpoints, h⟩ := (Option.any_eq_true _ _).mp h
  obtain ⟨r, hr, h⟩ := (Option.any_eq_true _ _).mp h
  obtain ⟨hv, hvInt, hw, hwInt, hfield, hiInt, helement, hmeets, hvalue⟩ := of_decide_eq_true h
  obtain ⟨hfields, helements⟩ := heap_loads_are_current hp hr
  exact ⟨p, points, r, hp, hpoints, hr,
    hfields 3 0 none 0 hv hvInt ⟨5, 2, .static hfield hiInt⟩,
    helements 4 1 3 2 hw hwInt ⟨6, 0, 2, .mk helement hvInt hmeets⟩, hvalue⟩

end ProgramConstants

end ObjectFlow
