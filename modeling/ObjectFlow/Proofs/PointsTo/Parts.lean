/-
  File:      ObjectFlow/Proofs/PointsTo/Parts.lean
  Subject:   PARTS OF A SOLUTION: what a solution of the rules says of some methods and some calls.

  A part is closed under the rules too if the calls of its methods are its calls and lead to its
  methods. The rules move values only within a method and along calls, so a variable that a rule
  sets belongs to a method of the part as soon as the one that is read does.

  * `Solution.part`, `Solution.Closed.part`: the part, and when it is closed.
-/
import ObjectFlow.Proofs.Program.WellFormed

namespace ObjectFlow

/-! ## 1. Variables and their methods -/

namespace Program

variable {p : Program}

/-- A variable of a statement is one of the method the statement stands in. -/
theorem Filled.method_of_var (h : p.Filled) {site : Site} {stmt : Stmt} {v : VarId}
    (hstmt : p.stmt? site = some stmt) (hv : v ∈ stmt.vars) :
    (p.varAt v).method = site.method := by
  obtain ⟨i, hi⟩ := List.mem_iff_getElem?.mp ((h.known_of_stmt? hstmt).vars v hv).mem
  exact ((h.coherent.methods _ (method_lt_of_stmt? hstmt)).vars hi).2.1

/-- The variables a method receives values in are its own. -/
theorem Coherent.method_of_formal (h : p.Coherent) {m : MethodId} {v : VarId}
    (hv : v ∈ (p.methodAt m).this.toList ++ (p.methodAt m).params) :
    (p.varAt v).method = m := by
  rcases Nat.lt_or_ge m p.methods.size with hlt | hge
  · have hmethod := h.methods m hlt
    have hmem : v ∈ (p.methodAt m).vars := by
      rcases List.mem_append.mp hv with hv | hv
      · exact hmethod.this v (Option.mem_toList.mp hv)
      · exact hmethod.params v hv
    obtain ⟨i, hi⟩ := List.mem_iff_getElem?.mp hmem
    exact (hmethod.vars hi).2.1
  · have hnone : p.methodAt m = default := by simp [methodAt, hge]
    rw [hnone] at hv
    exact absurd hv List.not_mem_nil

end Program

/-! ## 2. Parts -/

namespace Solution

variable {K O : Type} {p : Program} {heap : HeapPolicy} {A : Abstraction K O} {start : MethodId}
  {S : Solution K O} {M : Qualified K MethodId → Prop}
  {E : Qualified K Site → Qualified K MethodId → Prop}

/-- What a solution says of the methods `M` and their variables, and of the calls `E`. -/
def part (p : Program) (S : Solution K O) (M : Qualified K MethodId → Prop)
    (E : Qualified K Site → Qualified K MethodId → Prop) : Solution K O where
  reachable a := S.reachable a ∧ M a
  calls a b := S.calls a b ∧ E a b
  pointsTo x o := S.pointsTo x o ∧ ∀ c v, x = .var c v → M ⟨c, (p.varAt v).method⟩

/-- What flows into a variable of one of the methods flows into it in the part. -/
theorem Flows.part {x : Place K O} {c : K} {v : VarId} (h : S.Flows x (.var c v))
    (hv : M ⟨c, (p.varAt v).method⟩) : (S.part p M E).Flows x (.var c v) := by
  intro o ho
  refine ⟨h o ho.1, fun d w hw => ?_⟩
  cases hw
  exact hv

/-- **A part is closed under the rules** if the start is one of its methods, the calls that its
    methods make are its calls, and its calls lead from its methods to its methods. -/
theorem Closed.part (hp : p.Filled) (hS : S.Closed p heap A start) (hstart : M ⟨A.entry, start⟩)
    (hmethods : ∀ {a b}, S.calls a b → E a b → M ⟨a.context, a.item.method⟩ ∧ M b)
    (hstatic : ∀ {c site i m}, S.reachable ⟨c, site.method⟩ → M ⟨c, site.method⟩ →
      p.stmt? site = some (.call i) → p.callee? none i = some m →
      E ⟨c, site⟩ ⟨A.callee p ⟨c, site⟩ none, m⟩)
    (hon : ∀ {c b o site i m}, S.pointsTo (.var c b) o → M ⟨c, site.method⟩ →
      p.stmt? site = some (.call i) → i.base = some b →
      p.callee? (some (A.heapObject o).ty) i = some m →
      E ⟨c, site⟩ ⟨A.callee p ⟨c, site⟩ (some o), m⟩) :
    (S.part p M E).Closed p heap A start := by
  -- a variable that a statement sets belongs to the method of the statement
  have hset : ∀ {c : K} {site stmt v}, p.stmt? site = some stmt → stmt.defined? = some v →
      M ⟨c, site.method⟩ → M ⟨c, (p.varAt v).method⟩ := by
    intro c site stmt v hstmt hv hm
    rwa [hp.method_of_var hstmt (List.mem_append_left _ (Option.mem_toList.mpr hv))]
  -- what the part says of a variable it says of one of its methods
  have hused : ∀ {c : K} {b : VarId} {o : O} {site stmt}, (S.part p M E).pointsTo (.var c b) o →
      p.stmt? site = some stmt → b ∈ stmt.uses → M ⟨c, site.method⟩ := by
    intro c b o site stmt ho hstmt hb
    rw [← hp.method_of_var hstmt (List.mem_append_right _ hb)]
    exact ho.2 c b rfl
  have hformal : ∀ {b : Qualified K MethodId} {v : VarId}, M b →
      v ∈ (p.methodAt b.item).this.toList ++ (p.methodAt b.item).params →
      M ⟨b.context, (p.varAt v).method⟩ := by
    intro b v hm hv
    rwa [hp.coherent.method_of_formal hv]
  constructor
  case entry => exact ⟨hS.entry, hstart⟩
  case alloc =>
    intro c site x ty length hreach hstmt
    refine ⟨hS.alloc hreach.1 hstmt, fun d v hv => ?_⟩
    cases hv
    exact hset hstmt rfl hreach.2
  case copy =>
    intro c site x y hreach hstmt
    exact (hS.copy hreach.1 hstmt).part (hset hstmt rfl hreach.2)
  case cast =>
    intro c site x ty y hreach hstmt
    exact (hS.cast hreach.1 hstmt).part (hset hstmt rfl hreach.2)
  case loadStatic =>
    intro c site x f hreach hstmt
    exact (hS.loadStatic hreach.1 hstmt).part (hset hstmt rfl hreach.2)
  case storeStatic =>
    intro c site f y hreach hstmt o ho
    exact ⟨hS.storeStatic hreach.1 hstmt o ho.1, fun d v hv => by cases hv⟩
  case callStatic =>
    intro c site i m hreach hstmt hkind hm
    exact ⟨hS.callStatic hreach.1 hstmt hkind hm, hstatic hreach.1 hreach.2 hstmt hm⟩
  case loadField =>
    intro c b o site x f ho hstmt
    have hm := hused ho hstmt (by simp [StmtOf.uses])
    exact (hS.loadField ho.1 hstmt).part (hset hstmt rfl hm)
  case storeField =>
    intro c b o site f y ho hstmt o' ho'
    exact ⟨hS.storeField ho.1 hstmt o' ho'.1, fun d v hv => by cases hv⟩
  case loadArray =>
    intro c b o site x k ho hstmt
    have hm := hused ho hstmt (by simp [StmtOf.uses])
    exact (hS.loadArray ho.1 hstmt).part (hset hstmt rfl hm)
  case storeArray =>
    intro c b o site k y ho hstmt o' ho'
    exact ⟨hS.storeArray ho.1 hstmt o' ho'.1, fun d v hv => by cases hv⟩
  case callOn =>
    intro c b o site i m ho hstmt hb hm
    have hsite := hused ho hstmt (by simp [StmtOf.uses, hb])
    exact ⟨hS.callOn ho.1 hstmt hb hm, hon ho.1 hsite hstmt hb hm⟩
  case receiver =>
    intro c b o site i m this ho hstmt hb hm hthis
    refine ⟨hS.receiver ho.1 hstmt hb hm hthis, fun d v hv => ?_⟩
    cases hv
    have hsite := hused ho hstmt (by simp [StmtOf.uses, hb])
    have hcall := hmethods (hS.callOn ho.1 hstmt hb hm) (hon ho.1 hsite hstmt hb hm)
    exact hformal hcall.2 (by simp [hthis])
  case callee =>
    intro a b hab
    exact ⟨hS.callee hab.1, (hmethods hab.1 hab.2).2⟩
  case argument =>
    intro a b i x y hab hstmt hxy
    have hmem := List.mem_append_right (p.methodAt b.item).this.toList (List.of_mem_zip hxy).2
    exact (hS.argument hab.1 hstmt hxy).part (hformal (hmethods hab.1 hab.2).2 hmem)
  case result =>
    intro a b i x v hab hstmt hx hv
    exact (hS.result hab.1 hstmt hx hv).part (hset hstmt hx (hmethods hab.1 hab.2).1)

end Solution

end ObjectFlow
