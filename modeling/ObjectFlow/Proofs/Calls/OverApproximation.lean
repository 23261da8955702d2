/-
  File:      ObjectFlow/Proofs/Calls/OverApproximation.lean
  Subject:   WHEN THE CLASS HIERARCHY COVERS THE CALLS OF THE POINTER ANALYSIS.

  The hierarchy resolves a virtual call from the subtypes of the class the call names, the pointer
  analysis from the classes of the objects that reach the receiver. Variables are not checked
  against their types and casts let every object through, so an object of any class may arrive.

  * `PlainResult.ReceiversFit`: what arrives at a receiver and answers the call is of a subtype of
    the class named there;
  * `ClassHierarchy.restrict`: the part of a solution the hierarchy covers, closed under the rules
    as soon as receivers fit;
  * `ClassHierarchy.covers_plain`: the hierarchy covers every result whose receivers fit;
  * `ClassHierarchy.cast_escapes`: and not every result.
-/
import ObjectFlow.Proofs.Calls.Exploration
import ObjectFlow.Proofs.PointsTo.Parts
import ObjectFlow.Proofs.Taint.Vocabulary

namespace ObjectFlow

/-! ## 1. Receivers -/

/-- **Receivers fit**: whatever arrives at the receiver of a virtual or interface call and has a
    method to run there is of a subtype of the class the call names. -/
def PlainResult.ReceiversFit (r : PlainResult) (p : Program) : Prop :=
  ∀ call ∈ p.sites, ∀ i ∈ call.2.invoke?, i.kind = .virtual ∨ i.kind = .interface →
    ∀ b ∈ i.base, ∀ o ∈ (r.varPointsTo b).elems, ∀ c ∈ (r.heap.objectAt o).ty.class?,
      (p.dispatch? c i.target.subsig).isSome → c ∈ p.subtypes i.target.owner
  deriving Decidable

namespace ClassHierarchy

variable {p : Program} {entry : MethodId}

/-- What a call reaches on a receiver is among its targets, for a virtual call if the receiver is
    of a subtype of the class named. -/
theorem callee_mem_targets {receiver : Option Ty} {i : Invoke} {m : MethodId}
    (hm : p.callee? receiver i = some m)
    (hfit : i.kind = .virtual ∨ i.kind = .interface →
      ∀ ty ∈ receiver, ∀ c ∈ ty.class?, (p.dispatch? c i.target.subsig).isSome →
        c ∈ p.subtypes i.target.owner) :
    m ∈ targets p i := by
  have hvirtual : i.kind = .virtual ∨ i.kind = .interface →
      (do let c ← (← receiver).class?; p.dispatch? c i.target.subsig) = some m →
      m ∈ IdSet.ofList
        ((p.subtypes i.target.owner).filterMap fun c => p.dispatch? c i.target.subsig) := by
    intro hkind hm
    obtain ⟨ty, hty, hm⟩ := Option.bind_eq_some_iff.mp hm
    obtain ⟨c, hc, hm⟩ := Option.bind_eq_some_iff.mp hm
    have hsub := hfit hkind ty hty c hc (Option.isSome_of_eq_some hm)
    exact IdSet.mem_ofList.mpr (List.mem_filterMap.mpr ⟨c, hsub, hm⟩)
  unfold Program.callee? at hm
  unfold targets
  dsimp only
  cases hkind : i.kind with
  | static =>
    rw [hkind] at hm
    exact IdSet.mem_ofList.mpr (Option.mem_toList.mpr hm)
  | special =>
    rw [hkind] at hm
    exact IdSet.mem_ofList.mpr (Option.mem_toList.mpr hm)
  | virtual =>
    rw [hkind] at hm
    exact hvirtual (.inl hkind) hm
  | interface =>
    rw [hkind] at hm
    exact hvirtual (.inr hkind) hm
  | dynamic =>
    rw [hkind] at hm
    cases hm

/-! ## 2. The part of a solution that is covered -/

/-- The methods and calls of a solution that the hierarchy has too, and what it says of the
    variables of such methods. -/
def restrict (p : Program) (g : PlainCallGraph) (S : Solution Unit HeapObject) :
    Solution Unit HeapObject where
  reachable m := S.reachable m ∧ g.hasMethod m.item = true
  calls site m := S.calls site m ∧ g.hasEdge site.item m.item = true
  pointsTo x o := S.pointsTo x o ∧ ∀ c v, x = .var c v → g.hasMethod (p.varAt v).method = true

/-- **The covered part is closed under the rules**, if each call on an object that is there has
    its callee among the targets of the call. -/
theorem restrict_closed (hp : p.Filled) {heap : HeapPolicy} {S : Solution Unit HeapObject}
    (hS : S.Closed p heap Plain.abstraction entry)
    (hcalls : ∀ {b o site i m}, S.pointsTo (.var () b) o → p.stmt? site = some (.call i) →
      i.base = some b → p.callee? (some o.ty) i = some m → m ∈ targets p i) :
    (restrict p (callGraph p entry) S).Closed p heap Plain.abstraction entry := by
  have hedge : ∀ {site i m}, p.stmt? site = some (.call i) → m ∈ targets p i →
      (callGraph p entry).hasMethod site.method = true →
      (callGraph p entry).hasEdge site m = true :=
    fun hstmt hm hsite =>
      hasEdge_of_target hp.coherent hsite (Program.invoke?_eq_some_iff.mpr hstmt) hm
  refine hS.part hp (hasMethod_entry hp.coherent entry)
    (fun _ hcall => of_hasEdge hp.coherent hcall) (fun _ hsite hstmt hm => ?_)
    (fun ho hsite hstmt hb hm => hedge hstmt (hcalls ho hstmt hb hm) hsite)
  exact hedge hstmt (callee_mem_targets hm fun _ ty hty => by cases hty) hsite

/-! ## 3. Results -/

theorem mem_sites {site : Site} {stmt : Stmt} (h : p.stmt? site = some stmt) :
    (site, stmt) ∈ p.sites :=
  List.mem_flatMap.mpr ⟨site.method, List.mem_range.mpr (Program.method_lt_of_stmt? h),
    Program.mem_sitesOf.mpr ⟨rfl, h⟩⟩

/-- What a result whose receivers fit calls on an object is among the targets of the call. -/
theorem mem_targets_of_fit {r : PlainResult} (hfit : r.ReceiversFit p) {b : VarId}
    {o : HeapObject} {site : Site} {i : Invoke} {m : MethodId}
    (ho : r.solution.pointsTo (.var () b) o) (hstmt : p.stmt? site = some (.call i))
    (hb : i.base = some b) (hm : p.callee? (some o.ty) i = some m) : m ∈ targets p i := by
  refine callee_mem_targets hm fun hkind ty hty c hc hsome => ?_
  cases hty
  obtain ⟨a, ha, k, hk, rfl⟩ := ho
  cases a with
  | var d v =>
    cases ha
    exact hfit _ (mem_sites hstmt) i rfl hkind b hb k hk c hc hsome
  | staticField f => cases ha
  | field object f => cases ha
  | element object => cases ha

/-- **The class hierarchy covers every result whose receivers fit**, for every accepted program,
    entry method, heap policy and order of work. The analysis ends; and if whatever arrives at
    the receiver of a virtual call is of a subtype of the class named there, then each method the
    result reaches and each of its call edges is in the call graph of the hierarchy. -/
theorem covers_plain {source : String} (h : Program.ofSource source = .ok p)
    (options : PointsToOptions) (entry : MethodId) :
    (∃ n r, ∀ k, n ≤ k →
      Plain.analyzeWithin p options Plugin.none () k entry = some (r, ())) ∧
    ∀ k r, Plain.analyzeWithin p options Plugin.none () k entry = some (r, ()) →
      r.ReceiversFit p →
      (∀ m, r.calls.hasMethod m = true → (callGraph p entry).hasMethod m = true) ∧
        ∀ site m, r.calls.hasEdge site m = true → (callGraph p entry).hasEdge site m = true := by
  constructor
  · obtain ⟨n, ⟨r, _⟩, hn⟩ := Plain.bareAnalysis_ends p options entry
    exact ⟨n, r, hn⟩
  · intro k r hr hfit
    have hclosed := restrict_closed (Program.filled_of_ofSource h) (Plain.solution_closed hr)
      (mem_targets_of_fit hfit)
    have hle : r.solution ≤ restrict p (callGraph p entry) r.solution := by
      obtain ⟨s, rfl, hw, -⟩ := Plain.run_of_analyzeWithin hr
      have hwithin := hw _ hclosed
      rw [Plain.result_solution hwithin] at hwithin ⊢
      exact hwithin.solution_le
    exact ⟨fun m hm => (hle.1 ⟨(), m⟩ hm).2,
      fun site m hm => (hle.2.1 ⟨(), site⟩ ⟨(), m⟩ hm).2⟩

/-- Two classes below an interface, each with a method `draw` of its own, and a call of it on
    whatever a static field holds. -/
def shapes : String :=
  "interface Shape \x7b method void draw(); \x7d
  class Round implements Shape \x7b method void draw() \x7b return; \x7d \x7d
  class Square implements Shape \x7b method void draw() \x7b return; \x7d \x7d
  class Main \x7b
    static field Shape kept;
    static method void main() \x7b
      var Shape s;
      var Round r;
      r = new Round;
      Main.kept = r;
      s = Main.kept;
      interfaceinvoke s.<Shape: void draw()>();
      return;
    \x7d
  \x7d"

set_option maxRecDepth 4000 in
/-- The call reaches `draw` of the class that is kept; the hierarchy has both methods. -/
theorem covers_plain_shapes :
    ∃ p r, Program.ofSource shapes = .ok p ∧
      Plain.analyzeWithin p { order := .lifo } Plugin.none () 30 3 = some (r, ()) ∧
      r.ReceiversFit p ∧ r.calls.hasEdge ⟨3, 3⟩ 1 = true ∧ r.calls.hasMethod 2 = false ∧
      (∀ m, r.calls.hasMethod m = true → (callGraph p 3).hasMethod m = true) ∧
        ∀ site m, r.calls.hasEdge site m = true → (callGraph p 3).hasEdge site m = true := by
  obtain ⟨p, hp, hrun⟩ := Program.exists_of_any_ofSource shapes (fun p =>
      (Plain.analyzeWithin p { order := .lifo } Plugin.none () 30 3).any fun (r, _) =>
        decide (r.ReceiversFit p) && r.calls.hasEdge ⟨3, 3⟩ 1 && !r.calls.hasMethod 2) (by
    have htext : shapes.toList = _ := String.toList_ofList
    rw [Program.ofSource, lex_eq htext]
    decide +kernel)
  obtain ⟨⟨r, _⟩, hr, htest⟩ := (Option.any_eq_true _ _).mp hrun
  simp only [Bool.and_eq_true, decide_eq_true_eq, Bool.not_eq_true'] at htest
  obtain ⟨⟨hfit, hedge⟩, hunreached⟩ := htest
  exact ⟨p, r, hp, hr, hfit, hedge, hunreached,
    (covers_plain hp { order := .lifo } 3).2 30 r hr hfit⟩

/-- A cast lets an object of an unrelated class through to the receiver of a call. -/
def casting : String :=
  "class Base \x7b \x7d
  class Left extends Base \x7b method void turn() \x7b return; \x7d \x7d
  class Right extends Base \x7b method void turn() \x7b return; \x7d \x7d
  class Main \x7b
    static method void main() \x7b
      var Base b;
      var Left l;
      b = new Right;
      l = (Left) b;
      virtualinvoke l.<Left: void turn()>();
      return;
    \x7d
  \x7d"

set_option maxRecDepth 4000 in
/-- **The hierarchy does not cover every result**: the pointer analysis calls `turn` of `Right`,
    which is not below `Left`, and the hierarchy has neither the edge nor the method. -/
theorem cast_escapes :
    ∃ p r, Program.ofSource casting = .ok p ∧
      Plain.analyzeWithin p {} Plugin.none () 30 2 = some (r, ()) ∧
      r.calls.hasMethod 1 = true ∧ (callGraph p 2).hasMethod 1 = false ∧
      r.calls.hasEdge ⟨2, 2⟩ 1 = true ∧ (callGraph p 2).hasEdge ⟨2, 2⟩ 1 = false := by
  obtain ⟨p, hp, hrun⟩ := Program.exists_of_any_ofSource casting (fun p =>
      (Plain.analyzeWithin p {} Plugin.none () 30 2).any fun (r, _) =>
        r.calls.hasMethod 1 && !(callGraph p 2).hasMethod 1 && r.calls.hasEdge ⟨2, 2⟩ 1 &&
          !(callGraph p 2).hasEdge ⟨2, 2⟩ 1) (by
    have htext : casting.toList = _ := String.toList_ofList
    rw [Program.ofSource, lex_eq htext]
    decide +kernel)
  obtain ⟨⟨r, _⟩, hr, htest⟩ := (Option.any_eq_true _ _).mp hrun
  simp only [Bool.and_eq_true, Bool.not_eq_true'] at htest
  obtain ⟨⟨⟨hmethod, hnone⟩, hedge⟩, hnoedge⟩ := htest
  exact ⟨p, r, hp, hr, hmethod, hnone, hedge, hnoedge⟩

end ClassHierarchy

end ObjectFlow
