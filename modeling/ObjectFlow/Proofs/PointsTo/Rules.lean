/-
  File:      ObjectFlow/Proofs/PointsTo/Rules.lean
  Subject:   THE RULES OF THE POINTER ANALYSIS, said of what contexts and objects are and not of
             the numbers a run gives them.

  * `Abstraction`: which contexts there are and which objects are told apart;
  * `Solution`: reachable methods, call edges and points-to facts over such contexts and objects,
    ordered by inclusion;
  * `Solution.Closed`: one field for each rule of the analysis.

  The solution a finished run stands for is the least closed one; `PointsTo/Plain.lean` says so
  without contexts and `PointsTo/Contextual.lean` with them.
-/
import Mathlib.Order.Bounds.Defs
import Mathlib.Order.Defs.PartialOrder
import ObjectFlow.PointsTo.Analysis

namespace ObjectFlow

/-! ## 1. Contexts and objects by what they are -/

/-- How contexts are chosen and objects told apart. -/
structure Abstraction (K O : Type) where
  /-- The context of the method the analysis starts from. -/
  entry : K
  /-- The object of what is allocated under a context. -/
  allocated : K → HeapObject → O
  /-- What an object stands for. -/
  heapObject : O → HeapObject
  /-- The context of the method called at a site, on a receiver if there is one. -/
  callee : Program → Qualified K Site → Option O → K

/-- What can point to objects. -/
inductive Place (K O : Type) where
  | var (context : K) (v : VarId)
  | staticField (f : FieldId)
  | field (object : O) (f : FieldId)
  /-- All elements of an array. -/
  | element (object : O)

/-! ## 2. Solutions -/

/-- Reachable methods, call edges, and which object each place may point to. -/
@[ext] structure Solution (K O : Type) where
  reachable : Qualified K MethodId → Prop
  calls : Qualified K Site → Qualified K MethodId → Prop
  pointsTo : Place K O → O → Prop

namespace Solution

variable {K O : Type}

/-- One solution lies below another if it says nothing the other does not say. -/
instance : PartialOrder (Solution K O) where
  le S T :=
    (∀ m, S.reachable m → T.reachable m) ∧ (∀ a b, S.calls a b → T.calls a b) ∧
      ∀ x o, S.pointsTo x o → T.pointsTo x o
  le_refl _ := ⟨fun _ h => h, fun _ _ h => h, fun _ _ h => h⟩
  le_trans _ _ _ h h' :=
    ⟨fun m hm => h'.1 m (h.1 m hm), fun a b hab => h'.2.1 a b (h.2.1 a b hab),
      fun x o hx => h'.2.2 x o (h.2.2 x o hx)⟩
  le_antisymm _ _ h h' := by
    ext
    · exact ⟨h.1 _, h'.1 _⟩
    · exact ⟨h.2.1 _ _, h'.2.1 _ _⟩
    · exact ⟨h.2.2 _ _, h'.2.2 _ _⟩

/-- All that `x` points to, `y` points to as well. -/
def Flows (S : Solution K O) (x y : Place K O) : Prop := ∀ o, S.pointsTo x o → S.pointsTo y o

/-- **Closed under the rules of the analysis** of `p` from the method `start`, where allocations
    become objects by the policy `heap`. -/
structure Closed (p : Program) (heap : HeapPolicy) (A : Abstraction K O) (start : MethodId)
    (S : Solution K O) : Prop where
  entry : S.reachable ⟨A.entry, start⟩
  alloc : ∀ {c site x ty length}, S.reachable ⟨c, site.method⟩ →
    p.stmt? site = some (.alloc x ty length) →
    S.pointsTo (.var c x) (A.allocated c (Heap.objectFor heap site ty))
  copy : ∀ {c site x y}, S.reachable ⟨c, site.method⟩ →
    p.stmt? site = some (.assign x (.var y)) → S.Flows (.var c y) (.var c x)
  cast : ∀ {c site x ty y}, S.reachable ⟨c, site.method⟩ →
    p.stmt? site = some (.assign x (.cast ty y)) → S.Flows (.var c y) (.var c x)
  loadStatic : ∀ {c site x f}, S.reachable ⟨c, site.method⟩ →
    p.stmt? site = some (.loadField x none f) → S.Flows (.staticField f) (.var c x)
  storeStatic : ∀ {c site f y}, S.reachable ⟨c, site.method⟩ →
    p.stmt? site = some (.storeField none f y) → S.Flows (.var c y) (.staticField f)
  callStatic : ∀ {c site i m}, S.reachable ⟨c, site.method⟩ → p.stmt? site = some (.call i) →
    i.kind = .static → p.callee? none i = some m →
    S.calls ⟨c, site⟩ ⟨A.callee p ⟨c, site⟩ none, m⟩
  loadField : ∀ {c b o site x f}, S.pointsTo (.var c b) o →
    p.stmt? site = some (.loadField x (some b) f) → S.Flows (.field o f) (.var c x)
  storeField : ∀ {c b o site f y}, S.pointsTo (.var c b) o →
    p.stmt? site = some (.storeField (some b) f y) → S.Flows (.var c y) (.field o f)
  loadArray : ∀ {c b o site x k}, S.pointsTo (.var c b) o →
    p.stmt? site = some (.loadArray x b k) → S.Flows (.element o) (.var c x)
  storeArray : ∀ {c b o site k y}, S.pointsTo (.var c b) o →
    p.stmt? site = some (.storeArray b k y) → S.Flows (.var c y) (.element o)
  callOn : ∀ {c b o site i m}, S.pointsTo (.var c b) o → p.stmt? site = some (.call i) →
    i.base = some b → p.callee? (some (A.heapObject o).ty) i = some m →
    S.calls ⟨c, site⟩ ⟨A.callee p ⟨c, site⟩ (some o), m⟩
  receiver : ∀ {c b o site i m this}, S.pointsTo (.var c b) o → p.stmt? site = some (.call i) →
    i.base = some b → p.callee? (some (A.heapObject o).ty) i = some m →
    (p.methodAt m).this = some this → S.pointsTo (.var (A.callee p ⟨c, site⟩ (some o)) this) o
  callee : ∀ {a b}, S.calls a b → S.reachable b
  argument : ∀ {a b i x y}, S.calls a b → p.stmt? a.item = some (.call i) →
    (x, y) ∈ i.args.zip (p.methodAt b.item).params →
    S.Flows (.var a.context x) (.var b.context y)
  result : ∀ {a b i x v}, S.calls a b → p.stmt? a.item = some (.call i) → i.result = some x →
    v ∈ (p.methodAt b.item).returnVars → S.Flows (.var b.context v) (.var a.context x)

end Solution

/-! ## 3. Statements by site -/

namespace Program

theorem invoke?_eq_some_iff {p : Program} {site : Site} {i : Invoke} :
    p.invoke? site = some i ↔ p.stmt? site = some (.call i) := by
  unfold invoke?
  cases h : p.stmt? site with
  | none => simp
  | some stmt => cases stmt <;> simp [StmtOf.invoke?]

theorem mem_sitesOf {p : Program} {m : MethodId} {site : Site} {stmt : Stmt} :
    (site, stmt) ∈ p.sitesOf m ↔ site.method = m ∧ p.stmt? site = some stmt := by
  obtain ⟨n, index⟩ := site
  simp only [sitesOf, stmt?, List.mem_map, Prod.mk.injEq, Prod.exists,
    List.mk_mem_zipIdx_iff_getElem?, Site.mk.injEq, MethodDecl.stmts, List.getElem?_map,
    Array.getElem?_toList]
  constructor
  · intro hfound
    obtain ⟨_, _, h, ⟨rfl, rfl⟩, rfl⟩ := hfound
    exact ⟨rfl, h⟩
  · intro hfound
    obtain ⟨rfl, h⟩ := hfound
    exact ⟨_, _, h, ⟨rfl, rfl⟩, rfl⟩

/-- A statement belongs to a method of the program. -/
theorem method_lt_of_stmt? {p : Program} {site : Site} {stmt : Stmt}
    (h : p.stmt? site = some stmt) : site.method < p.methods.size := by
  by_cases hlt : site.method < p.methods.size
  · exact hlt
  · have hm : p.methodAt site.method = default := by
      unfold methodAt
      rw [Array.getD_eq_getD_getElem?, Array.getElem?_eq_none (Nat.le_of_not_lt hlt)]
      rfl
    unfold stmt? at h
    rw [hm] at h
    have hb : (default : MethodDecl).body = #[] := rfl
    rw [hb] at h
    simp at h

theorem mem_sitesWhere {p : Program} {test : Stmt → Bool} {site : Site} :
    site ∈ p.sitesWhere test ↔ ∃ stmt, p.stmt? site = some stmt ∧ test stmt = true := by
  simp only [sitesWhere, sites, methodIds, List.mem_map, List.mem_filter, List.mem_flatMap,
    List.mem_range, Prod.exists, exists_and_right, exists_eq_right]
  constructor
  · intro ⟨stmt, ⟨m, _, hm⟩, ht⟩
    exact ⟨stmt, (mem_sitesOf.mp hm).2, ht⟩
  · intro ⟨stmt, hs, ht⟩
    exact ⟨stmt, ⟨site.method, method_lt_of_stmt? hs, mem_sitesOf.mpr ⟨rfl, hs⟩⟩, ht⟩

/-- The sites of the statements of one shape. -/
theorem mem_sitesWhere_shape {p : Program} {α β : Type} {test : Stmt → Bool}
    (shape : α → β → Stmt) (hshape : ∀ a b, test (shape a b) = true)
    (htest : ∀ stmt, test stmt = true → ∃ a b, stmt = shape a b) {site : Site} :
    site ∈ p.sitesWhere test ↔ ∃ a b, p.stmt? site = some (shape a b) := by
  rw [mem_sitesWhere]
  constructor
  · intro ⟨stmt, hstmt, ht⟩
    obtain ⟨a, b, rfl⟩ := htest stmt ht
    exact ⟨a, b, hstmt⟩
  · intro ⟨a, b, hstmt⟩
    exact ⟨_, hstmt, hshape a b⟩

/-- The field loads through a variable. -/
theorem mem_loadFields {p : Program} {v : VarId} {site : Site} :
    site ∈ (p.usesOf v).loadFields ↔ ∃ x f, p.stmt? site = some (.loadField x (some v) f) := by
  unfold usesOf
  rw [mem_sitesWhere_shape fun x f => .loadField x (some v) f]
  · exact fun _ _ => decide_eq_true rfl
  · intro stmt ht
    split at ht
    · rw [of_decide_eq_true ht]
      exact ⟨_, _, rfl⟩
    · cases ht

/-- The field stores through a variable. -/
theorem mem_storeFields {p : Program} {v : VarId} {site : Site} :
    site ∈ (p.usesOf v).storeFields ↔ ∃ f y, p.stmt? site = some (.storeField (some v) f y) := by
  unfold usesOf
  rw [mem_sitesWhere_shape fun f y => .storeField (some v) f y]
  · exact fun _ _ => decide_eq_true rfl
  · intro stmt ht
    split at ht
    · rw [of_decide_eq_true ht]
      exact ⟨_, _, rfl⟩
    · cases ht

/-- The array loads through a variable. -/
theorem mem_loadArrays {p : Program} {v : VarId} {site : Site} :
    site ∈ (p.usesOf v).loadArrays ↔ ∃ x k, p.stmt? site = some (.loadArray x v k) := by
  unfold usesOf
  rw [mem_sitesWhere_shape fun x k => .loadArray x v k]
  · exact fun _ _ => decide_eq_true rfl
  · intro stmt ht
    split at ht
    · rw [of_decide_eq_true ht]
      exact ⟨_, _, rfl⟩
    · cases ht

/-- The array stores through a variable. -/
theorem mem_storeArrays {p : Program} {v : VarId} {site : Site} :
    site ∈ (p.usesOf v).storeArrays ↔ ∃ k y, p.stmt? site = some (.storeArray v k y) := by
  unfold usesOf
  rw [mem_sitesWhere_shape fun k y => .storeArray v k y]
  · exact fun _ _ => decide_eq_true rfl
  · intro stmt ht
    split at ht
    · rw [of_decide_eq_true ht]
      exact ⟨_, _, rfl⟩
    · cases ht

/-- The calls on a variable. -/
theorem mem_invokes {p : Program} {v : VarId} {site : Site} :
    site ∈ (p.usesOf v).invokes ↔
      ∃ i, p.stmt? site = some (.call i) ∧ i.base = some v := by
  unfold usesOf
  rw [mem_sitesWhere]
  constructor
  · intro ⟨stmt, hstmt, ht⟩
    split at ht
    · exact ⟨_, hstmt, of_decide_eq_true ht⟩
    · cases ht
  · intro ⟨i, hstmt, hbase⟩
    exact ⟨_, hstmt, decide_eq_true hbase⟩

end Program

end ObjectFlow
