/-
  File:      ObjectFlow/Proofs/PointsTo/Effects.lean
  Subject:   WHAT ENTERING A STATEMENT, TAKING UP AN OBJECT AND CONNECTING A CALL ESTABLISH.

  Each of these functions of the engine only extends the state, within every closed solution, and
  leaves behind the edges and the work that its rules ask for:

  * `Entered`: what a statement asks for as soon as its method is reachable;
  * `TakenUp`: what an object at a variable asks for, of accesses and of calls;
  * `Connected`: what a call edge asks for.

  `Grows` is what these demands need of two states to be kept from one to the other; it holds
  also across a whole step of the engine, where an item leaves the queue.
-/
import ObjectFlow.Proofs.PointsTo.Growth

namespace ObjectFlow

/-! ## 1. Growth -/

/-- All that a rule can ask for is kept. -/
structure Grows {κ ν K O : Type} [DecidableEq κ] (R : Reading κ ν K O) (s s' : EngineState κ ν) :
    Prop where
  keeps : R.Keeps s.heap s.names s'.heap s'.names
  pointers : s.graph.pointers.Keeps s'.graph.pointers
  linked : ∀ {a b}, s.Linked a b → s'.Linked a b
  reaches : ∀ {a i}, s.Reaches a i → s'.Reaches a i
  methods : ∀ {m}, s.calls.hasMethod m = true → s'.calls.hasMethod m = true
  called : ∀ {site callee}, s.Called site callee → s'.Called site callee

section Grows

variable {κ ν K O : Type} [DecidableEq κ] {R : Reading κ ν K O} {s s' s'' : EngineState κ ν}

theorem Grows.trans (a : Grows R s s') (b : Grows R s' s'') : Grows R s s'' :=
  ⟨a.keeps.trans b.keeps, a.pointers.trans b.pointers, fun h => b.linked (a.linked h),
    fun h => b.reaches (a.reaches h), fun h => b.methods (a.methods h),
    fun h => b.called (a.called h)⟩

theorem Extends.grows (h : Extends R s s') : Grows R s s' :=
  ⟨h.keeps, h.pointers, h.linked, h.reaches, fun hm => h.calls.symm ▸ hm, h.called⟩

theorem Grows.placeAt (g : Grows R s s') {id : PointerId} {x : Place K O}
    (e : R.placeAt? s id = some x) : R.placeAt? s' id = some x := by
  obtain ⟨a, ha, hx⟩ := Option.bind_eq_some_iff.mp e
  exact Option.bind_eq_some_iff.mpr ⟨a, g.pointers id a ha, g.keeps.place hx⟩

end Grows

/-! ## 2. What the rules ask for -/

/-- The variable through which a statement accesses a field or an element. -/
def accessed? : Stmt → Option VarId
  | .loadField _ base _ | .storeField base _ _ => base
  | .loadArray _ base _ | .storeArray base _ _ => some base
  | _ => none

/-- The edge a field or array access under `c` asks for when its base holds the object `i`. -/
def accessEdge? {κ : Type} (c : κ) (i : Nat) : Stmt → Option (Pointer κ × Pointer κ)
  | .loadField x _ f => some (.field i f, .var c x)
  | .storeField _ f y => some (.var c y, .field i f)
  | .loadArray x _ _ => some (.element i, .var c x)
  | .storeArray _ _ y => some (.var c y, .element i)
  | _ => none

section Demands

variable {κ ν K O : Type} (R : Reading κ ν K O) (A : Abstraction K O) (p : Program)

/-- What a statement of a method reachable under `c` asks for. -/
def Entered (heap : HeapPolicy) (c : κ) (here : Site × Stmt) (s : EngineState κ ν) : Prop :=
  match here.2 with
  | .alloc lhs ty _ => ∃ k i, R.context? s.heap s.names c = some k ∧
      R.object? s.heap s.names i = some (A.allocated k (Heap.objectFor heap here.1 ty)) ∧
      s.Reaches (.var c lhs) i
  | .assign lhs (.var rhs) | .assign lhs (.cast _ rhs) => s.Linked (.var c rhs) (.var c lhs)
  | .loadField lhs none f => s.Linked (.staticField f) (.var c lhs)
  | .storeField none f rhs => s.Linked (.var c rhs) (.staticField f)
  | .call i => i.kind = .static → ∀ m, p.callee? none i = some m →
      ∃ k c', R.context? s.heap s.names c = some k ∧
        R.context? s.heap s.names c' = some (A.callee p ⟨k, here.1⟩ none) ∧
        s.Called ⟨c, here.1⟩ ⟨c', m⟩
  | _ => True

/-- What a call on the object `i`, which stands for `o`, asks for at a variable under `c`, which
    stands for `k`. -/
def CallTaken (k : K) (o : O) (c : κ) (i : Nat) (site : Site) (s : EngineState κ ν) : Prop :=
  ∀ call m, p.stmt? site = some (.call call) →
    p.callee? (some (A.heapObject o).ty) call = some m →
    ∃ c', R.context? s.heap s.names c' = some (A.callee p ⟨k, site⟩ (some o)) ∧
      s.Called ⟨c, site⟩ ⟨c', m⟩ ∧
      ∀ this, (p.methodAt m).this = some this → s.Reaches (.var c' this) i

/-- **What an object at a variable asks for.** -/
structure TakenUp (k : K) (o : O) (c : κ) (v : VarId) (i : Nat) (s : EngineState κ ν) :
    Prop where
  context : R.context? s.heap s.names c = some k
  object : R.object? s.heap s.names i = some o
  access : ∀ site stmt source target, p.stmt? site = some stmt → accessed? stmt = some v →
    accessEdge? c i stmt = some (source, target) → s.Linked source target
  call : ∀ site call, p.stmt? site = some (.call call) → call.base = some v →
    CallTaken R A p k o c i site s

/-- What a call edge asks for. -/
structure Connected [DecidableEq κ] (e : ContextCallEdge κ) (s : EngineState κ ν) : Prop where
  callee : s.calls.hasMethod e.callee = true
  argument : ∀ i x y, p.stmt? e.site.item = some (.call i) →
    (x, y) ∈ i.args.zip (p.methodAt e.callee.item).params →
    s.Linked (.var e.site.context x) (.var e.callee.context y)
  result : ∀ i x v, p.stmt? e.site.item = some (.call i) → i.result = some x →
    v ∈ (p.methodAt e.callee.item).returnVars →
    s.Linked (.var e.callee.context v) (.var e.site.context x)

end Demands

section Kept

variable {κ ν K O : Type} [DecidableEq κ] {R : Reading κ ν K O} {A : Abstraction K O}
  {p : Program} {s s' : EngineState κ ν}

theorem Entered.grows {heap : HeapPolicy} {c : κ} {here : Site × Stmt}
    (h : Entered R A p heap c here s) (g : Grows R s s') : Entered R A p heap c here s' := by
  unfold Entered at h ⊢
  split at h <;> try exact g.linked h
  · obtain ⟨k, i, hk, hi, hr⟩ := h
    exact ⟨k, i, g.keeps.context hk, g.keeps.object hi, g.reaches hr⟩
  · intro hkind m hm
    obtain ⟨k, c', hk, hc', hcalled⟩ := h hkind m hm
    exact ⟨k, c', g.keeps.context hk, g.keeps.context hc', g.called hcalled⟩
  · trivial

theorem CallTaken.grows {k : K} {o : O} {c : κ} {i : Nat} {site : Site}
    (h : CallTaken R A p k o c i site s) (g : Grows R s s') : CallTaken R A p k o c i site s' := by
  intro call m hcall hm
  obtain ⟨c', hc', hcalled, hthis⟩ := h call m hcall hm
  exact ⟨c', g.keeps.context hc', g.called hcalled, fun t ht => g.reaches (hthis t ht)⟩

theorem TakenUp.grows {k : K} {o : O} {c : κ} {v : VarId} {i : Nat}
    (h : TakenUp R A p k o c v i s) (g : Grows R s s') : TakenUp R A p k o c v i s' where
  context := g.keeps.context h.context
  object := g.keeps.object h.object
  access site stmt source target hs hv he := g.linked (h.access site stmt source target hs hv he)
  call site call hs hb := (h.call site call hs hb).grows g

theorem Connected.grows {e : ContextCallEdge κ} (h : Connected p e s) (g : Grows R s s') :
    Connected p e s' where
  callee := g.methods h.callee
  argument i x y hs hm := g.linked (h.argument i x y hs hm)
  result i x v hs hr hm := g.linked (h.result i x v hs hr hm)

end Kept

/-! ## 3. Loops that link -/

namespace EngineState

section Functions

variable {κ ν K O : Type} [DecidableEq κ] {R : Reading κ ν K O} {A : Abstraction K O}
  {p : Program} {rules : Sensitivity κ ν} {heap : HeapPolicy} {S : Solution K O}
  {start : MethodId} {s : EngineState κ ν}

/-- A loop each of whose steps links two pointers. -/
theorem foldl_link_extends {α : Type} {f : EngineState κ ν → α → EngineState κ ν}
    (source target : α → Pointer κ) (hf : ∀ u a, f u a = u.link (source a) (target a))
    (l : List α) (h : Within R heap S s)
    (hj : ∀ a ∈ l, ∃ x y, R.place? s.heap s.names (source a) = some x ∧
      R.place? s.heap s.names (target a) = some y ∧ S.Flows x y) :
    Within R heap S (l.foldl f s) ∧ Extends R s (l.foldl f s) ∧
      ∀ a ∈ l, (l.foldl f s).Linked (source a) (target a) := by
  refine foldl_extends (Q := fun a u => u.Linked (source a) (target a))
    (fun he hq => he.linked hq) l h fun a ha u hu hsu => ?_
  rw [hf]
  obtain ⟨x, y, hx, hy, hS⟩ := hj a ha
  exact link_extends hu (hsu.keeps.place hx) (hsu.keeps.place hy) hS

/-! ## 4. Entering statements -/

/-- An object is sent to a pointer, numbered on first use. -/
theorem sendTo_extends (h : Within R heap S s) {a : Pointer κ} {i : Nat} {x : Place K O} {o : O}
    (ha : R.place? s.heap s.names a = some x) (hi : R.object? s.heap s.names i = some o)
    (hj : S.pointsTo x o) :
    let t := (s.pointer a).2.send (s.pointer a).1 (.singleton i)
    Within R heap S t ∧ Extends R s t ∧ t.Reaches a i := by
  intro t
  obtain ⟨hid, hw₁, he₁⟩ := pointer_extends h a
  obtain ⟨hw₂, he₂, hpending⟩ := send_extends hw₁ _ (.singleton i) fun i' hi' => by
    rw [IdSet.mem_singleton.mp hi']
    exact ⟨x, o, Option.bind_eq_some_iff.mpr ⟨a, hid, he₁.keeps.place ha⟩, he₁.keeps.object hi, hj⟩
  exact ⟨hw₂, he₁.trans he₂, _, he₂.pointers _ _ hid,
    .inr (hpending i (IdSet.mem_singleton.mpr rfl))⟩

/-- The object of an allocation is sent to its variable. -/
theorem enterAlloc_extends (hR : R.Faithful p rules A) (hS : S.Closed p heap A start)
    (h : Within R heap S s) {c : κ} {k : K} {site : Site} {lhs : VarId} {ty : Ty}
    {length : Option VarId} (hc : R.context? s.heap s.names c = some k)
    (hreach : S.reachable ⟨k, site.method⟩) (hstmt : p.stmt? site = some (.alloc lhs ty length)) :
    let t := enterStmt p rules c s (site, .alloc lhs ty length)
    Within R heap S t ∧ Extends R s t ∧
      Entered R A p heap c (site, .alloc lhs ty length) t := by
  intro t
  have hpolicy := h.policy
  subst hpolicy
  -- the heap object is numbered first, then the object, then the pointer
  obtain ⟨hv₁, hk₁⟩ := hR.intern (Heap.objectFor s.heap.policy site ty) h.valid
  have hget : (s.heap.allocate site ty).2.objects.get? (s.heap.allocate site ty).1
      = some (Heap.objectFor s.heap.policy site ty) := (Interner.intern_spec _ _).1
  obtain ⟨hv₂, hk₂, hobj⟩ := hR.allocated hv₁ (hk₁.context hc) hget
  obtain ⟨hw₁, he₁⟩ := renamed_extends h (hk₁.trans hk₂) hv₂ rfl
  obtain ⟨hw₂, he₂, hr⟩ := sendTo_extends hw₁ (he₁.keeps.place (Reading.place?_var hc lhs)) hobj
    (hS.alloc hreach hstmt)
  have he := he₁.trans he₂
  exact ⟨hw₂, he, k, _, he.keeps.context hc, he₂.keeps.object hobj, hr⟩

/-- A resolved static call is queued. -/
theorem enterStatic_extends (hR : R.Faithful p rules A) (hS : S.Closed p heap A start)
    (h : Within R heap S s) {c : κ} {k : K} {site : Site} {i : Invoke}
    (hc : R.context? s.heap s.names c = some k) (hreach : S.reachable ⟨k, site.method⟩)
    (hstmt : p.stmt? site = some (.call i)) :
    let t := enterStmt p rules c s (site, .call i)
    Within R heap S t ∧ Extends R s t ∧ Entered R A p heap c (site, .call i) t := by
  unfold enterStmt Entered
  simp only
  by_cases hkind : i.kind = .static
  · rw [if_pos hkind]
    cases hm : p.callee? none i with
    | none => exact ⟨h, .refl R s, fun _ m hm' => by cases hm'⟩
    | some m =>
      obtain ⟨hv, hk, hctx⟩ := hR.callee ⟨c, site⟩ none none
        h.valid hc rfl
      obtain ⟨hw₁, he₁⟩ := renamed_extends h hk hv rfl
      obtain ⟨hw₂, he₂, hcalled⟩ := sendCall_extends hw₁ (e := ⟨i.kind, ⟨c, site⟩, ⟨_, m⟩⟩)
        ⟨_, _, Reading.qualified?_eq (he₁.keeps.context hc) _, Reading.qualified?_eq hctx _,
          hS.callStatic hreach hstmt hkind hm⟩
      have he := he₁.trans he₂
      refine ⟨hw₂, he, fun _ m' hm' => ?_⟩
      cases hm'
      exact ⟨k, _, he.keeps.context hc, he₂.keeps.context hctx, hcalled⟩
  · rw [if_neg hkind]
    exact ⟨h, .refl R s, fun hkind' => absurd hkind' hkind⟩

/-- **Entering a statement of a reachable method does what its rules ask for.** -/
theorem enterStmt_extends (hR : R.Faithful p rules A) (hS : S.Closed p heap A start)
    (h : Within R heap S s) {c : κ} {k : K} {site : Site} {stmt : Stmt}
    (hc : R.context? s.heap s.names c = some k) (hreach : S.reachable ⟨k, site.method⟩)
    (hstmt : p.stmt? site = some stmt) :
    Within R heap S (enterStmt p rules c s (site, stmt)) ∧
      Extends R s (enterStmt p rules c s (site, stmt)) ∧
      Entered R A p heap c (site, stmt) (enterStmt p rules c s (site, stmt)) := by
  have hvar (v : VarId) := Reading.place?_var (R := R) hc v
  cases stmt with
  | alloc lhs ty length => exact enterAlloc_extends hR hS h hc hreach hstmt
  | call i => exact enterStatic_extends hR hS h hc hreach hstmt
  | assign lhs rhs =>
    cases rhs with
    | var v => exact link_extends h (hvar v) (hvar lhs) (hS.copy hreach hstmt)
    | cast ty v => exact link_extends h (hvar v) (hvar lhs) (hS.cast hreach hstmt)
    | int value => exact ⟨h, .refl R s, trivial⟩
    | binary op left right => exact ⟨h, .refl R s, trivial⟩
  | loadField lhs base f =>
    cases base with
    | none => exact link_extends h rfl (hvar lhs) (hS.loadStatic hreach hstmt)
    | some b => exact ⟨h, .refl R s, trivial⟩
  | storeField base f rhs =>
    cases base with
    | none => exact link_extends h (hvar rhs) rfl (hS.storeStatic hreach hstmt)
    | some b => exact ⟨h, .refl R s, trivial⟩
  | loadArray lhs base index => exact ⟨h, .refl R s, trivial⟩
  | storeArray base index rhs => exact ⟨h, .refl R s, trivial⟩
  | branch left op right target => exact ⟨h, .refl R s, trivial⟩
  | jump target => exact ⟨h, .refl R s, trivial⟩
  | switch on cases otherwise => exact ⟨h, .refl R s, trivial⟩
  | ret value => exact ⟨h, .refl R s, trivial⟩
  | nop => exact ⟨h, .refl R s, trivial⟩

/-! ## 5. Taking up an object at a variable -/

omit [DecidableEq κ] in
/-- A closed solution is closed along the edges that accesses through a variable ask for. -/
theorem flows_of_accessEdge (hS : S.Closed p heap A start) {h : Heap} {ns : ν} {c : κ} {k : K}
    {v : VarId} {i : Nat} {o : O} (hc : R.context? h ns c = some k)
    (hi : R.object? h ns i = some o) (hpts : S.pointsTo (.var k v) o) {site : Site} {stmt : Stmt}
    (hstmt : p.stmt? site = some stmt) (hv : accessed? stmt = some v)
    {source target : Pointer κ} (he : accessEdge? c i stmt = some (source, target)) :
    ∃ x y, R.place? h ns source = some x ∧ R.place? h ns target = some y ∧ S.Flows x y := by
  have hvar (w : VarId) := Reading.place?_var (R := R) hc w
  have hfield (f : FieldId) := Reading.place?_field (R := R) hi f
  have helement := Reading.place?_element (R := R) hi
  cases stmt <;> simp only [accessEdge?, Option.some.injEq, Prod.mk.injEq, reduceCtorEq] at he <;>
    obtain ⟨rfl, rfl⟩ := he <;> simp only [accessed?, Option.some.injEq] at hv <;> subst hv
  · exact ⟨_, _, hfield _, hvar _, hS.loadField hpts hstmt⟩
  · exact ⟨_, _, hvar _, hfield _, hS.storeField hpts hstmt⟩
  · exact ⟨_, _, helement, hvar _, hS.loadArray hpts hstmt⟩
  · exact ⟨_, _, hvar _, helement, hS.storeArray hpts hstmt⟩

/-- What a loop over accesses leaves behind: the edges they ask for. -/
structure AccessesLinked (R : Reading κ ν K O) (heap : HeapPolicy) (S : Solution K O) (p : Program)
    (c : κ) (i : Nat) (sites : List Site) (s t : EngineState κ ν) : Prop where
  within : Within R heap S t
  grown : Extends R s t
  linked : ∀ site ∈ sites, ∀ stmt source target, p.stmt? site = some stmt →
    accessEdge? c i stmt = some (source, target) → t.Linked source target

/-- One of the loops over the accesses through a variable. -/
theorem accessLoop_linked (hS : S.Closed p heap A start) (h : Within R heap S s) {c : κ} {k : K}
    {v : VarId} {i : Nat} {o : O} (hc : R.context? s.heap s.names c = some k)
    (hi : R.object? s.heap s.names i = some o) (hpts : S.pointsTo (.var k v) o)
    {f : EngineState κ ν → Site → EngineState κ ν} (sites : List Site)
    (hf : ∀ site ∈ sites, ∃ stmt source target, p.stmt? site = some stmt ∧
      accessed? stmt = some v ∧ accessEdge? c i stmt = some (source, target) ∧
        ∀ u, f u site = u.link source target) :
    AccessesLinked R heap S p c i sites s (sites.foldl f s) := by
  obtain ⟨hw, he, hl⟩ := foldl_extends
    (Q := fun site u => ∀ stmt source target, p.stmt? site = some stmt →
      accessEdge? c i stmt = some (source, target) → u.Linked source target)
    (fun he hq stmt source target hs ha => he.linked (hq stmt source target hs ha))
    sites h (f := f) fun site hsite u hu hsu => by
      obtain ⟨stmt, source, target, hstmt, hv, hedge, hlink⟩ := hf site hsite
      obtain ⟨x, y, hx, hy, hS'⟩ := flows_of_accessEdge hS (hsu.keeps.context hc)
        (hsu.keeps.object hi) hpts hstmt hv hedge
      obtain ⟨hw, he, hl⟩ := link_extends hu hx hy hS'
      rw [hlink u]
      refine ⟨hw, he, fun stmt' source' target' hstmt' hedge' => ?_⟩
      rw [hstmt, Option.some.injEq] at hstmt'
      subst hstmt'
      rw [hedge, Option.some.injEq, Prod.mk.injEq] at hedge'
      rw [← hedge'.1, ← hedge'.2]
      exact hl
  exact ⟨hw, he, hl⟩

/-- All accesses through a variable are linked to the fields and elements of its object. -/
theorem access_extends (hS : S.Closed p heap A start) (h : Within R heap S s) {c : κ} {k : K}
    {v : VarId} {i : Nat} {o : O} (hc : R.context? s.heap s.names c = some k)
    (hi : R.object? s.heap s.names i = some o) (hpts : S.pointsTo (.var k v) o) :
    let t := access p (p.usesOf v) c s i
    Within R heap S t ∧ Extends R s t ∧ ∀ site stmt source target, p.stmt? site = some stmt →
      accessed? stmt = some v → accessEdge? c i stmt = some (source, target) →
      t.Linked source target := by
  intro t
  -- the four loops, each as the accesses of its own kind only
  have hloadFields (u) (hu : Within R heap S u) (hsu : Extends R s u) :
      AccessesLinked R heap S p c i (p.usesOf v).loadFields u
        (access p ⟨(p.usesOf v).loadFields, [], [], [], []⟩ c u i) := by
    refine accessLoop_linked hS hu (hsu.keeps.context hc) (hsu.keeps.object hi) hpts _
      fun site hsite => ?_
    obtain ⟨x, f, hs⟩ := Program.mem_loadFields.mp hsite
    exact ⟨_, _, _, hs, rfl, rfl, fun u => by rw [hs]⟩
  have hstoreFields (u) (hu : Within R heap S u) (hsu : Extends R s u) :
      AccessesLinked R heap S p c i (p.usesOf v).storeFields u
        (access p ⟨[], (p.usesOf v).storeFields, [], [], []⟩ c u i) := by
    refine accessLoop_linked hS hu (hsu.keeps.context hc) (hsu.keeps.object hi) hpts _
      fun site hsite => ?_
    obtain ⟨f, y, hs⟩ := Program.mem_storeFields.mp hsite
    exact ⟨_, _, _, hs, rfl, rfl, fun u => by rw [hs]⟩
  have hloadArrays (u) (hu : Within R heap S u) (hsu : Extends R s u) :
      AccessesLinked R heap S p c i (p.usesOf v).loadArrays u
        (access p ⟨[], [], (p.usesOf v).loadArrays, [], []⟩ c u i) := by
    refine accessLoop_linked hS hu (hsu.keeps.context hc) (hsu.keeps.object hi) hpts _
      fun site hsite => ?_
    obtain ⟨x, n, hs⟩ := Program.mem_loadArrays.mp hsite
    exact ⟨_, _, _, hs, rfl, rfl, fun u => by rw [hs]⟩
  have hstoreArrays (u) (hu : Within R heap S u) (hsu : Extends R s u) :
      AccessesLinked R heap S p c i (p.usesOf v).storeArrays u
        (access p ⟨[], [], [], (p.usesOf v).storeArrays, []⟩ c u i) := by
    refine accessLoop_linked hS hu (hsu.keeps.context hc) (hsu.keeps.object hi) hpts _
      fun site hsite => ?_
    obtain ⟨n, y, hs⟩ := Program.mem_storeArrays.mp hsite
    exact ⟨_, _, _, hs, rfl, rfl, fun u => by rw [hs]⟩
  have h₁ := hloadFields s h (.refl R s)
  have h₂ := hstoreFields _ h₁.within h₁.grown
  have h₃ := hloadArrays _ h₂.within (h₁.grown.trans h₂.grown)
  have h₄ := hstoreArrays _ h₃.within ((h₁.grown.trans h₂.grown).trans h₃.grown)
  refine ⟨h₄.within, ((h₁.grown.trans h₂.grown).trans h₃.grown).trans h₄.grown,
    fun site stmt source target hs hv hedge => ?_⟩
  cases stmt with
  | loadField x base f =>
    cases hv
    exact (h₂.grown.trans (h₃.grown.trans h₄.grown)).linked
      (h₁.linked site (Program.mem_loadFields.mpr ⟨x, f, hs⟩) _ source target hs hedge)
  | storeField base f y =>
    cases hv
    exact (h₃.grown.trans h₄.grown).linked
      (h₂.linked site (Program.mem_storeFields.mpr ⟨f, y, hs⟩) _ source target hs hedge)
  | loadArray x base n =>
    cases hv
    exact h₄.grown.linked
      (h₃.linked site (Program.mem_loadArrays.mpr ⟨x, n, hs⟩) _ source target hs hedge)
  | storeArray base n y =>
    cases hv
    exact h₄.linked site (Program.mem_storeArrays.mpr ⟨n, y, hs⟩) _ source target hs hedge
  | _ => cases hv

/-- The receiver object is sent to the receiver variable, if there is one. -/
theorem sendThis_extends (h : Within R heap S s) {c' : κ} {k' : K} {i : Nat} {o : O}
    (this? : Option VarId) (hc : R.context? s.heap s.names c' = some k')
    (hi : R.object? s.heap s.names i = some o) :
    let t := match this? with
      | some this => (s.pointer (.var c' this)).2.send (s.pointer (.var c' this)).1 (.singleton i)
      | none => s
    (∀ this, this? = some this → S.pointsTo (.var k' this) o) →
      Within R heap S t ∧ Extends R s t ∧
        ∀ this, this? = some this → t.Reaches (.var c' this) i := by
  intro t hj
  cases this? with
  | none => exact ⟨h, .refl R s, fun _ ht => (by cases ht)⟩
  | some this =>
    obtain ⟨hw, he, hr⟩ := sendTo_extends h (Reading.place?_var hc this) hi (hj this rfl)
    refine ⟨hw, he, fun this' ht => ?_⟩
    cases ht
    exact hr

/-- **A call on an object is resolved**: its edge is queued and the object sent to the receiver. -/
theorem callOn_extends (hR : R.Faithful p rules A) (hS : S.Closed p heap A start)
    (h : Within R heap S s) {c : κ} {k : K} {v : VarId} {i : Nat} {o : O} {site : Site}
    {call : Invoke} (hc : R.context? s.heap s.names c = some k)
    (hi : R.object? s.heap s.names i = some o) (hpts : S.pointsTo (.var k v) o)
    (hstmt : p.stmt? site = some (.call call)) (hbase : call.base = some v) :
    Within R heap S (callOn p rules c i s site) ∧ Extends R s (callOn p rules c i s site) ∧
      CallTaken R A p k o c i site (callOn p rules c i s site) := by
  have hty : s.heap.tyOf (rules.heapObject s.names i) = (A.heapObject o).ty := by
    unfold Heap.tyOf
    rw [hR.heapObject h.valid hi]
  unfold callOn
  rw [Program.invoke?_eq_some_iff.mpr hstmt, hty]
  simp only
  split
  · rename_i hnone
    refine ⟨h, .refl R s, fun call' m hcall hm => ?_⟩
    rw [hstmt] at hcall
    cases hcall
    rw [hnone] at hm
    cases hm
  · rename_i m hm
    obtain ⟨hv, hk, hctx⟩ := hR.callee ⟨c, site⟩ (some i) (some o)
      h.valid hc (congrArg some hi)
    obtain ⟨hw₁, he₁⟩ := renamed_extends h hk hv rfl
    obtain ⟨hw₂, he₂, hthis⟩ := sendThis_extends hw₁ (p.methodAt m).this hctx
      (he₁.keeps.object hi) fun this ht => hS.receiver hpts hstmt hbase hm ht
    obtain ⟨hw₃, he₃, hcalled⟩ := sendCall_extends hw₂ (e := ⟨call.kind, ⟨c, site⟩, ⟨_, m⟩⟩)
      ⟨_, _, Reading.qualified?_eq ((he₁.trans he₂).keeps.context hc) _,
        Reading.qualified?_eq (he₂.keeps.context hctx) _, hS.callOn hpts hstmt hbase hm⟩
    refine ⟨hw₃, (he₁.trans he₂).trans he₃, fun call' m' hcall hm' => ?_⟩
    rw [hstmt] at hcall
    cases hcall
    rw [hm] at hm'
    cases hm'
    exact ⟨_, (he₂.trans he₃).keeps.context hctx, hcalled, fun t ht => he₃.reaches (hthis t ht)⟩

/-- **Taking up an object at a variable does what its rules ask for.** -/
theorem newObject_extends (hR : R.Faithful p rules A) (hS : S.Closed p heap A start)
    (h : Within R heap S s) {c : κ} {k : K} {v : VarId} {i : Nat} {o : O}
    (hc : R.context? s.heap s.names c = some k) (hi : R.object? s.heap s.names i = some o)
    (hpts : S.pointsTo (.var k v) o) :
    let t := newObject p rules (p.usesOf v) c s i
    Within R heap S t ∧ Extends R s t ∧ TakenUp R A p k o c v i t := by
  intro t
  obtain ⟨hw₁, he₁, hl⟩ := access_extends hS h hc hi hpts
  obtain ⟨hw₂, he₂, hcalls⟩ := foldl_extends (Q := CallTaken R A p k o c i)
    (fun he hq => hq.grows he.grows) (p.usesOf v).invokes hw₁ (f := callOn p rules c i)
    fun site hsite u hu hsu => by
      obtain ⟨call, hstmt, hbase⟩ := Program.mem_invokes.mp hsite
      exact callOn_extends hR hS hu ((he₁.trans hsu).keeps.context hc)
        ((he₁.trans hsu).keeps.object hi) hpts hstmt hbase
  have he := he₁.trans he₂
  refine ⟨hw₂, he, he.keeps.context hc, he.keeps.object hi, fun site stmt source target hs hv hedge =>
    he₂.linked (hl site stmt source target hs hv hedge), fun site call hstmt hbase => ?_⟩
  exact hcalls site (Program.mem_invokes.mpr ⟨call, hstmt, hbase⟩)

/-! ## 6. Connecting calls and reaching methods -/

/-- **Connecting a call edge does what its rules ask for.** -/
theorem connect_extends (hS : S.Closed p heap A start) (h : Within R heap S s)
    {e : ContextCallEdge κ} {i : Invoke} (hj : R.JustifiedCall S s e)
    (hcallee : s.calls.hasMethod e.callee = true) (hstmt : p.stmt? e.site.item = some (.call i)) :
    Within R heap S (connect p s e i) ∧ Extends R s (connect p s e i) ∧
      Connected p e (connect p s e i) := by
  obtain ⟨a, b, ha, hb, hcall⟩ := hj
  obtain ⟨ka, hka, rfl⟩ := Option.map_eq_some_iff.mp ha
  obtain ⟨kb, hkb, rfl⟩ := Option.map_eq_some_iff.mp hb
  obtain ⟨hw₁, he₁, hargs⟩ := foldl_link_extends
    (f := fun s (x : VarId × VarId) => s.link (.var e.site.context x.1) (.var e.callee.context x.2))
    (fun x => .var e.site.context x.1) (fun x => .var e.callee.context x.2) (fun _ _ => rfl)
    (i.args.zip (p.methodAt e.callee.item).params) h
    fun x hx => ⟨_, _, Reading.place?_var hka x.1, Reading.place?_var hkb x.2,
      hS.argument hcall hstmt hx⟩
  have hresult : ∀ x, i.result = some x → ∀ v ∈ (p.methodAt e.callee.item).returnVars,
      S.Flows (.var kb v) (.var ka x) := fun x hx v hv => hS.result hcall hstmt hx hv
  unfold connect
  simp only
  split
  · rename_i x hx
    obtain ⟨hw₂, he₂, hrets⟩ := foldl_link_extends
      (f := fun s v => s.link (.var e.callee.context v) (.var e.site.context x))
      (fun v => .var e.callee.context v) (fun _ => .var e.site.context x) (fun _ _ => rfl)
      (p.methodAt e.callee.item).returnVars hw₁
      fun v hv => ⟨_, _, he₁.keeps.place (Reading.place?_var hkb v),
        he₁.keeps.place (Reading.place?_var hka x), hresult x hx v hv⟩
    have he := he₁.trans he₂
    refine ⟨hw₂, he, he.grows.methods hcallee, fun i' x' y hi' hm => ?_, fun i' x' v hi' hr hv => ?_⟩
    · rw [hstmt] at hi'
      cases hi'
      exact he₂.linked (hargs (x', y) hm)
    · rw [hstmt] at hi'
      cases hi'
      rw [hx] at hr
      cases hr
      exact hrets v hv
  · rename_i hx
    refine ⟨hw₁, he₁, he₁.grows.methods hcallee, fun i' x' y hi' hm => ?_, fun i' x' v hi' hr hv => ?_⟩
    · rw [hstmt] at hi'
      cases hi'
      exact hargs (x', y) hm
    · rw [hstmt] at hi'
      cases hi'
      rw [hx] at hr
      cases hr

/-- Entering all statements of a method that is reachable. -/
theorem enterAll_extends (hR : R.Faithful p rules A) (hS : S.Closed p heap A start)
    (h : Within R heap S s) {m : Qualified κ MethodId} {n : Qualified K MethodId}
    (hm : R.qualified? s.heap s.names m = some n) (hreach : S.reachable n) :
    let t := (p.sitesOf m.item).foldl (enterStmt p rules m.context) s
    Within R heap S t ∧ Extends R s t ∧
      ∀ here ∈ p.sitesOf m.item, Entered R A p heap m.context here t := by
  obtain ⟨k, hk, rfl⟩ := Option.map_eq_some_iff.mp hm
  refine foldl_extends (Q := Entered R A p heap m.context) (fun he hq => hq.grows he.grows)
    (p.sitesOf m.item) h fun here hhere u hu hsu => ?_
  obtain ⟨site, stmt⟩ := here
  obtain ⟨hmethod, hstmt⟩ := Program.mem_sitesOf.mp hhere
  exact enterStmt_extends hR hS hu (hsu.keeps.context hk) (hmethod ▸ hreach) hstmt

end Functions

end EngineState

end ObjectFlow
