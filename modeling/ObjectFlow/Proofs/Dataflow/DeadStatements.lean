/-
  File:      ObjectFlow/Proofs/Dataflow/DeadStatements.lean
  Subject:   THE DEAD STATEMENTS ARE THOSE THAT CANNOT BE REACHED AND THOSE THAT ARE USELESS, and no
             run executes one that cannot be reached when the constants cover its variables.

  * `mem_reached`, `mem_detect`: what is reported;
  * `Visits`: where runs arrive that take the first case that matches;
  * `mem_followed_of_step`: a statement leads on along an edge that is followed, and
    `reach_of_visits`: so runs stay among what can be reached.
-/
import ObjectFlow.Dataflow.DeadCode
import ObjectFlow.Proofs.Dataflow.ConstantSoundness
import ObjectFlow.Proofs.Graph.Search

namespace ObjectFlow

namespace DeadCode

open Body

variable {p : Program} {m : MethodId} {constants : MethodFacts ConstFact}

/-! ## 1. What is reported -/

/-- Edges that are followed are edges. -/
theorem mem_successors_of_followed {n n' : Nat} (h : n' ∈ followed constants n) :
    n' ∈ constants.flow.graph.successors n := by
  have hpick : ∀ kind, ∀ t ∈ taken?.pick (constants.flow.graph.outEdges n) kind,
      t ∈ constants.flow.graph.successors n := by
    intro kind t ht
    obtain ⟨e, he, rfl⟩ := List.mem_map.mp ht
    exact List.mem_map_of_mem (List.mem_of_mem_filter he)
  have htaken : ∀ {fact stmt ts}, taken? (constants.flow.graph.outEdges n) fact stmt = some ts →
      ∀ t ∈ ts, t ∈ constants.flow.graph.successors n := by
    intro fact stmt ts hts
    unfold taken? at hts
    split at hts
    · split at hts
      · cases hts
        exact hpick _
      · cases hts
    · obtain ⟨value, -, rfl⟩ := Option.map_eq_some_iff.mp hts
      exact hpick _
    · cases hts
  unfold followed at h
  simp only at h
  generalize hdecided : (do
    let i ← constants.flow.indexOf? n
    taken? (constants.flow.graph.outEdges n) ((constants.in? i).getD .empty)
      (← constants.flow.stmts[i]?)) = decided at h
  cases decided with
  | none => exact h
  | some ts =>
    obtain ⟨i, -, hdecided⟩ := Option.bind_eq_some_iff.mp hdecided
    obtain ⟨stmt, -, hdecided⟩ := Option.bind_eq_some_iff.mp hdecided
    exact htaken hdecided n' h

/-- **The nodes that count as reached are those a path of followed edges leads to.** -/
theorem mem_reached (hp : p.JumpsInside) (hflow : constants.flow = p.flowOf m) {n : Nat} :
    n ∈ reached constants ↔ Reach (followed constants) 0 n := by
  have hnodes : ∀ b, Reach (followed constants) 0 b →
      b ∈ List.range constants.flow.graph.nodeCount := by
    intro b hb
    rw [List.mem_range]
    induction hb with
    | refl =>
      rw [hflow]
      exact Nat.succ_pos _
    | tail _ hstep ih =>
      have hnext := mem_successors_of_followed hstep
      rw [hflow] at ih hnext ⊢
      exact (hp.coherent m).next_lt .forward ih hnext
  exact mem_breadthFirst hnodes (Nat.le_of_eq List.length_range)

/-- **A statement is reported if no such path leads to it, or it is useless.** -/
theorem mem_detect (hp : p.JumpsInside) (hflow : constants.flow = p.flowOf m)
    (live : MethodFacts IdSet) {i : Nat} :
    i ∈ detect p constants live ↔ ∃ stmt, (p.methodAt m).stmts[i]? = some stmt ∧
      (¬ Reach (followed constants) 0 (i + 1) ∨
        (Reach (followed constants) 0 (i + 1) ∧
          isUseless p stmt ((live.out? i).getD .empty) = true)) := by
  have hstmts : constants.flow.stmts.toList = (p.methodAt m).stmts := by rw [hflow]; rfl
  unfold detect
  simp only [hstmts, List.mem_map, List.mem_filter, Prod.exists, List.mem_zipIdx_iff_getElem?,
    Bool.or_eq_true, decide_eq_true_eq, mem_reached hp hflow]
  constructor
  · rintro ⟨stmt, j, ⟨hstmt, hdead⟩, rfl⟩
    refine ⟨stmt, hstmt, ?_⟩
    by_cases hreach : Reach (followed constants) 0 (j + 1)
    · exact .inr ⟨hreach, hdead.resolve_left fun hnot => hnot hreach⟩
    · exact .inl hreach
  · rintro ⟨stmt, hstmt, hdead⟩
    exact ⟨stmt, i, ⟨hstmt, hdead.imp_right And.right⟩, rfl⟩

/-! ## 2. Runs -/

/-- A switch on an integer goes to the first case of that integer, and to the default if there is
    none. -/
def TakesFirst (stmts : List Stmt) (s t : Body.State) : Prop :=
  ∀ on cases otherwise n, stmts[s.index]? = some (.switch on cases otherwise) →
    s.env on = some (.int n) → t.index = (cases.lookup n).getD otherwise

/-- **Where runs arrive** that take the first case that matches. `Allowed` says which values the
    variables may have: all, or only integers in integer-like variables. -/
inductive Visits (p : Program) (m : MethodId) (Allowed : Env → Prop) : Body.State → Prop where
  | start {env} : Starts p m env → Allowed env → Visits p m Allowed ⟨0, env⟩
  | step {s t} : Visits p m Allowed s → Step p (p.methodAt m).stmts s t →
      TakesFirst (p.methodAt m).stmts s t → Allowed t.env → Visits p m Allowed t

/-- Only integer-like variables are bound. -/
def BindsInts (p : Program) (constants : MethodFacts ConstFact) : Prop :=
  ∀ i v, p.holdsInt v = false → ((constants.in? i).getD .empty).get v = .undefined

/-- What is known of a variable is its value, if it is a constant. -/
theorem eq_int_of_const {fact : ConstFact} {env : Env} (h : Constants.Agrees p fact env)
    (hbinds : ∀ v, p.holdsInt v = false → fact.get v = .undefined) {v : VarId} {c : Int32}
    (hc : fact.get v = .const c) {w : Value} (hw : env v = some w) :
    p.holdsInt v = true ∧ w = .int c := by
  have hint : p.holdsInt v = true := by
    refine Bool.not_eq_false _ ▸ fun hnot => ?_
    rw [hbinds v hnot] at hc
    cases hc
  have hle := h v w hint hw
  rw [hc] at hle
  cases w with
  | int n => exact ⟨hint, congrArg Value.int (ConstValue.const_le_const.mp hle)⟩
  | other n => cases ConstValue.eq_nac_of_le hle

/-- A known result comes of known operands. -/
theorem const_of_eval {op : BinaryOp} {a b : ConstValue} {c : Int32}
    (h : op.eval a b = .const c) : ∃ x y, a = .const x ∧ b = .const y := by
  have hlift : ∀ {f : Int32 → Int32 → Int32}, ConstValue.lift f a b = .const c →
      ∃ x y, a = .const x ∧ b = .const y := by
    intro f hf
    cases a <;> cases b <;> first | exact ⟨_, _, rfl, rfl⟩ | cases hf
  have hdivide : ∀ {f : Int32 → Int32 → Int32}, ConstValue.divide f a b = .const c →
      ∃ x y, a = .const x ∧ b = .const y := by
    intro f hf
    unfold ConstValue.divide at hf
    split at hf
    · cases hf
    · exact hlift hf
  cases op with
  | div | rem => exact hdivide h
  | _ => exact hlift h

/-- A comparison whose value is known gives that value. -/
theorem computes_eq_of_const {fact : ConstFact} {env : Env} (h : Constants.Agrees p fact env)
    (hbinds : ∀ v, p.holdsInt v = false → fact.get v = .undefined) {op : BinaryOp} {l r : VarId}
    {c : Int32} (hc : op.eval (fact.get l) (fact.get r) = .const c) {w : Value}
    (hw : Computes p env op l r w) : w = .int c := by
  obtain ⟨a, b, ha, hb⟩ := const_of_eval hc
  have hints : ∀ {x y : Value}, env l = some x → env r = some y →
      (IsInt p env l ∧ IsInt p env r) ∧ x = .int a ∧ y = .int b := by
    intro x y hx hy
    obtain ⟨hl, rfl⟩ := eq_int_of_const h hbinds ha hx
    obtain ⟨hr, rfl⟩ := eq_int_of_const h hbinds hb hy
    exact ⟨⟨⟨hl, a, hx⟩, ⟨hr, b, hy⟩⟩, rfl, rfl⟩
  cases hw with
  | ints _ _ hx hy hcompute =>
    obtain ⟨-, hxa, hyb⟩ := hints hx hy
    cases hxa
    cases hyb
    rw [ha, hb, BinaryOp.eval_const hcompute] at hc
    exact congrArg Value.int (ConstValue.const.inj hc)
  | comparison hx hy hnot => exact absurd (hints hx hy).1 hnot
  | arithmetic hx hy hnot => exact absurd (hints hx hy).1 hnot

/-- The edges that are followed from a statement. -/
theorem followed_eq (hflow : constants.flow = p.flowOf m) {i : Nat} {stmt : Stmt}
    (hi : (p.methodAt m).stmts[i]? = some stmt) :
    followed constants (i + 1) =
      (taken? ((p.flowOf m).graph.outEdges (i + 1)) ((constants.in? i).getD .empty) stmt).getD
        ((p.flowOf m).graph.successors (i + 1)) := by
  have hlt := (List.getElem?_eq_some_iff.mp hi).1
  have hindex : (p.flowOf m).indexOf? (i + 1) = some i :=
    MethodFlow.indexOf?_eq_some_iff.mpr ⟨rfl, Nat.ne_of_lt hlt⟩
  have hstmt : (p.flowOf m).stmts[i]? = some stmt := by
    simpa [Program.flowOf, MethodFlow.ofStmts] using hi
  unfold followed
  simp only [hflow, hindex, Option.bind_eq_bind, Option.bind_some, hstmt]

/-- An edge of a statement is among those picked by its kind. -/
theorem mem_pick {i : Nat} {stmt : Stmt} (hi : (p.methodAt m).stmts[i]? = some stmt)
    {e : FlowEdge EdgeKind} (he : e ∈ stmtEdges ((p.methodAt m).stmts.length + 1) (i + 1) stmt) :
    e.target ∈ taken?.pick ((p.flowOf m).graph.outEdges (i + 1)) e.kind := by
  have hlt := (List.getElem?_eq_some_iff.mp hi).1
  refine List.mem_map_of_mem (List.mem_filter.mpr ⟨?_, decide_eq_true rfl⟩)
  exact (mem_outEdges_ofStmts (Nat.succ_lt_succ (Nat.lt_succ_of_lt hlt))).mpr
    ⟨mem_bodyEdges.mpr (.inr ⟨i, stmt, hi, he⟩), source_of_mem_stmtEdges he⟩

theorem of_taken?_branch {edges : List (FlowEdge EdgeKind)} {fact : ConstFact} {l r : VarId}
    {op : BinaryOp} {target : Nat} {ts : List Nat}
    (h : taken? edges fact (.branch l op r target) = some ts) :
    ∃ value, op.eval (fact.get l) (fact.get r) = .const value ∧
      ts = taken?.pick edges (if value = 0 then .ifFalse else .ifTrue) := by
  rw [taken?] at h
  split at h
  · rename_i value hvalue
    exact ⟨value, hvalue, (Option.some.inj h).symm⟩
  · cases h

theorem of_taken?_switch {edges : List (FlowEdge EdgeKind)} {fact : ConstFact} {on : VarId}
    {cases : List (Int32 × Nat)} {otherwise : Nat} {ts : List Nat}
    (h : taken? edges fact (.switch on cases otherwise) = some ts) :
    ∃ value, fact.get on = .const value ∧
      ts = taken?.pick edges
        (if cases.any (·.1 = value) then .switchCase value else .switchDefault) := by
  obtain ⟨value, hvalue, rfl⟩ := Option.map_eq_some_iff.mp h
  refine ⟨value, ?_, rfl⟩
  cases hget : fact.get on with
  | const n =>
    rw [hget] at hvalue
    rw [Option.some.inj hvalue]
  | _ =>
    rw [hget] at hvalue
    cases hvalue

/-- **A branch or switch that is decided is decided as runs go.** -/
theorem mem_of_taken {fact : ConstFact} {env : Env} (h : Constants.Agrees p fact env)
    (hbinds : ∀ v, p.holdsInt v = false → fact.get v = .undefined) {i j : Nat} {stmt : Stmt}
    (hi : (p.methodAt m).stmts[i]? = some stmt) (hgoes : Goes p env i stmt j) {ts : List Nat}
    (hts : taken? ((p.flowOf m).graph.outEdges (i + 1)) fact stmt = some ts) : j + 1 ∈ ts := by
  cases hgoes with
  | taken hw hne =>
    obtain ⟨value, heval, rfl⟩ := of_taken?_branch hts
    obtain rfl := computes_eq_of_const h hbinds heval hw
    rw [if_neg fun hzero => hne (congrArg Value.int hzero)]
    exact mem_pick hi List.mem_cons_self
  | passed hw =>
    obtain ⟨value, heval, rfl⟩ := of_taken?_branch hts
    rw [if_pos (Value.int.inj (computes_eq_of_const h hbinds heval hw)).symm]
    exact mem_pick hi (List.mem_cons_of_mem _ List.mem_cons_self)
  | @case on cases otherwise n target hon hcase =>
    obtain ⟨value, hvalue, rfl⟩ := of_taken?_switch hts
    obtain rfl : n = value := Value.int.inj (eq_int_of_const h hbinds hvalue hon).2
    rw [if_pos (List.any_eq_true.mpr ⟨_, hcase, decide_eq_true rfl⟩)]
    exact mem_pick hi (List.mem_append_left _ (List.mem_map_of_mem hcase))
  | @otherwise on cases otherwise w hon hnone =>
    obtain ⟨value, hvalue, rfl⟩ := of_taken?_switch hts
    obtain rfl : w = .int value := (eq_int_of_const h hbinds hvalue hon).2
    have hany : ¬ (cases.any fun c => decide (c.1 = value)) = true := by
      intro hany
      obtain ⟨c, hc, heq⟩ := List.any_eq_true.mp hany
      exact hnone c hc (congrArg Value.int (of_decide_eq_true heq).symm)
    rw [if_neg hany]
    exact mem_pick hi (List.mem_append_right _ List.mem_cons_self)
  | _ => cases hts

/-- **A statement leads on along an edge that is followed**, where the constants cover the
    variables. -/
theorem mem_followed_of_step (hflow : constants.flow = p.flowOf m) (hbinds : BindsInts p constants)
    {s t : Body.State} (hstep : Step p (p.methodAt m).stmts s t)
    (hagrees : Constants.Agrees p ((constants.in? s.index).getD .empty) s.env) :
    t.index + 1 ∈ followed constants (s.index + 1) := by
  have hdecided : ∀ {stmt}, (p.methodAt m).stmts[s.index]? = some stmt →
      (∀ ts, taken? ((p.flowOf m).graph.outEdges (s.index + 1))
        ((constants.in? s.index).getD .empty) stmt = some ts → t.index + 1 ∈ ts) →
      t.index + 1 ∈ followed constants (s.index + 1) := by
    intro stmt hi hall
    rw [followed_eq hflow hi]
    cases htaken : taken? ((p.flowOf m).graph.outEdges (s.index + 1))
        ((constants.in? s.index).getD .empty) stmt with
    | some ts => exact hall ts htaken
    | none =>
      obtain ⟨e, he, hsource, htarget⟩ := Constants.exists_edge_of_step hstep
      have hlt := (List.getElem?_eq_some_iff.mp hi).1
      rw [Option.getD_none, ← htarget]
      refine List.mem_map_of_mem ((mem_outEdges_ofStmts ?_).mpr ⟨he, hsource⟩)
      exact Nat.succ_lt_succ (Nat.lt_succ_of_lt hlt)
  cases hstep with
  | assign hi _ _ hw =>
    refine hdecided hi fun ts hts => ?_
    cases hw <;> cases hts
  | go hi _ _ hgoes =>
    exact hdecided hi fun ts hts => mem_of_taken hagrees (hbinds _) hi hgoes hts

/-- **Runs stay among what can be reached.** -/
theorem reach_of_visits (hflow : constants.flow = p.flowOf m) (hbinds : BindsInts p constants)
    {Allowed : Env → Prop} (hcovers : ∀ s, Visits p m Allowed s →
      Constants.Agrees p ((constants.in? s.index).getD .empty) s.env)
    {s : Body.State} (h : Visits p m Allowed s) : Reach (followed constants) 0 (s.index + 1) := by
  induction h with
  | start _ _ =>
    have hentry : followed constants 0 = (p.flowOf m).graph.successors 0 := by
      unfold followed
      rw [hflow]
      rfl
    refine .single ?_
    rw [hentry]
    exact List.mem_map_of_mem (f := FlowEdge.target) (a := ⟨0, 1, .entry⟩)
      ((mem_outEdges_ofStmts (Nat.succ_pos _)).mpr ⟨mem_bodyEdges.mpr (.inl rfl), rfl⟩)
  | step hs hstep _ _ ih => exact ih.tail (mem_followed_of_step hflow hbinds hstep (hcovers _ hs))

/-! ## 3. The constants of the analysis -/

/-- A fact of integer-like variables only. -/
structure OnlyInts (p : Program) (fact : ConstFact) : Prop where
  canonical : fact.Canonical
  other : ∀ v, p.holdsInt v = false → fact.get v = .undefined

theorem OnlyInts.join {a b : ConstFact} (ha : OnlyInts p a) (hb : OnlyInts p b) :
    OnlyInts p (a.join b) := by
  refine ⟨ha.canonical.join hb.canonical, fun v hv => ?_⟩
  rw [FactMap.get_join _ hb.canonical, ha.other v hv, hb.other v hv]
  rfl

theorem OnlyInts.transferStmt {fact : ConstFact} (h : OnlyInts p fact) (stmt : Stmt) :
    OnlyInts p (Constants.transferStmt p stmt fact) := by
  refine ⟨?_, fun v hv => ?_⟩
  · unfold Constants.transferStmt
    split
    · split
      · exact h.canonical.update _ _
      · exact h.canonical
    · exact h.canonical
  · rw [Constants.get_transferStmt, if_neg fun hboth => ?_]
    · exact h.other v hv
    · rw [hboth.2] at hv
      cases hv

theorem OnlyInts.joined {output : Nat → ConstFact}
    (hp : p.JumpsInside) (h : ∀ n < (p.flowOf m).graph.nodeCount, OnlyInts p (output n)) {n : Nat}
    (hn : n < (p.flowOf m).graph.nodeCount) :
    OnlyInts p ((Constants.problem p (p.flowOf m)).joined (p.flowOf m).graph output n) := by
  refine List.foldlRecOn _ _ ⟨FactMap.canonical_empty, fun _ _ => rfl⟩ fun a ha b hb => ?_
  obtain ⟨e, he, rfl⟩ := List.mem_map.mp hb
  exact ha.join (h _ ((hp.coherent m).mem_next .forward hn he).1)

/-- **Constant propagation binds only integer-like variables.** -/
theorem bindsInts_of_analyzeWithin (hp : p.JumpsInside) {order : VisitOrder} {allowance : Nat}
    {r : MethodFacts ConstFact} (hr : Constants.analyzeWithin p m order allowance = some r) :
    BindsInts p r := by
  obtain ⟨hflow, hrun⟩ := Constants.of_analyzeWithin hr
  have hboundary : OnlyInts p (Constants.unknown p (p.methodAt m).params) := by
    refine ⟨(Constants.binds_unknown p fun _ hv => hv).canonical, fun v hv => ?_⟩
    rw [Constants.get_unknown, if_neg fun hboth => ?_]
    rw [hboth.2] at hv
    cases hv
  have hclosed : DataflowProblem.Closed (Constants.problem p (p.flowOf m)) (p.flowOf m).graph
      (Constants.transferAt p (p.flowOf m)) fun _ => OnlyInts p := by
    refine ⟨fun _ _ _ => hboundary, fun _ _ => ⟨FactMap.canonical_empty, fun _ _ => rfl⟩,
      fun output h n hn _ => ?_⟩
    have hjoined := OnlyInts.joined hp h hn
    unfold Constants.transferAt
    split
    · exact hjoined.transferStmt _
    · exact hjoined
  have hsolves := DataflowProblem.solves_of_solveWithin (Constants.admissible hp m) hrun
  have hall := hclosed.of_solveWithin (Constants.admissible hp m) hrun
  intro i v hv
  rw [Constants.getD_in? p (p.flowOf m) hsolves.direction]
  by_cases hi : i + 1 < (p.flowOf m).graph.nodeCount
  · rw [hsolves.input (i + 1) hi rfl]
    exact (OnlyInts.joined hp hall hi).other v hv
  · unfold DataflowProblem.inputAt
    rw [Array.getD_eq_getD_getElem?, Array.getElem?_eq_none (by rw [hsolves.inputs]; omega)]
    rfl

theorem Visits.reaches {Allowed : Env → Prop} {s : Body.State} (h : Visits p m Allowed s) :
    Reaches p m s := by
  induction h with
  | start hstart _ => exact .start hstart
  | step _ hstep _ _ ih => exact .step ih hstep

/-- Its facts cover the variables of runs, where it calls unknown what integer-like variables take
    from others. -/
theorem agrees_of_visits (hp : p.JumpsInside) {order : VisitOrder} {allowance : Nat}
    {r : MethodFacts ConstFact} (hr : Constants.analyzeWithin p m order allowance = some r)
    (hmix : Constants.MixesUnknown p r) {Allowed : Env → Prop} {s : Body.State}
    (h : Visits p m Allowed s) : Constants.Agrees p ((r.in? s.index).getD .empty) s.env := by
  obtain ⟨-, hrun⟩ := Constants.of_analyzeWithin hr
  have hsolves := DataflowProblem.solves_of_solveWithin (Constants.admissible hp m) hrun
  rw [Constants.getD_in? p (p.flowOf m) hsolves.direction]
  exact Constants.agrees_of_reaches hp hr hmix h.reaches

/-! ## 4. Reported and executed -/

/-- **Dead code is what cannot be reached and what is useless, and runs never get to the first.**
    Reported are exactly the statements to which no path leads along the edges that the constants
    leave open, and those to which one leads but that are useless by the live variables after them.
    And when the constants before each statement cover the variables of all runs that arrive there,
    no run arrives at a statement to which no such path leads. -/
theorem dead_code_is_exact_and_safe {source : String} {p : Program}
    (hp : Program.ofSource source = .ok p) {m : MethodId} {constants : MethodFacts ConstFact}
    (hflow : constants.flow = p.flowOf m) (hbinds : BindsInts p constants)
    (live : MethodFacts IdSet) :
    (∀ i, i ∈ detect p constants live ↔ ∃ stmt, (p.methodAt m).stmts[i]? = some stmt ∧
      (¬ Reach (followed constants) 0 (i + 1) ∨
        (Reach (followed constants) 0 (i + 1) ∧
          isUseless p stmt ((live.out? i).getD .empty) = true))) ∧
    ∀ Allowed : Env → Prop, (∀ s, Visits p m Allowed s →
        Constants.Agrees p ((constants.in? s.index).getD .empty) s.env) →
      ∀ s, Visits p m Allowed s → Reach (followed constants) 0 (s.index + 1) := by
  have hinside := Program.jumpsInside_of_ofSource hp
  refine ⟨fun i => mem_detect hinside hflow live, fun Allowed hcovers s hs => ?_⟩
  exact reach_of_visits hflow hbinds hcovers hs

/-- A branch on a constant that is never taken, a switch with two cases of one value, and an
    assignment that nothing reads. -/
def decided : String :=
  "class Main \x7b
    static method int main(int p) \x7b
      var int one, two, x;
      one = 1;
      two = 2;
      if two < one goto never;
      switch (one) \x7b case 1: first; case 1: second; default: never; \x7d
      never: p = two;
      first: x = p;
      second: return p;
    \x7d
  \x7d"

set_option maxRecDepth 4000 in
/-- With the constants of the analysis the branch is not taken and the default is not either, so the
    one statement they lead to is dead; the assignment is dead too. -/
theorem dead_code_is_exact_and_safe_decided :
    ∃ p constants live, Program.ofSource decided = .ok p ∧
      Constants.analyzeWithin p 0 .fifo 60 = some constants ∧
      Liveness.analyzeWithin p 0 .fifo 60 = some live ∧ detect p constants live = [4, 5] ∧
      ((∀ i, i ∈ detect p constants live ↔ ∃ stmt, (p.methodAt 0).stmts[i]? = some stmt ∧
        (¬ Reach (followed constants) 0 (i + 1) ∨
          (Reach (followed constants) 0 (i + 1) ∧
            isUseless p stmt ((live.out? i).getD .empty) = true))) ∧
      ∀ s, Visits p 0 (fun _ => True) s → Reach (followed constants) 0 (s.index + 1)) := by
  obtain ⟨p, hp, h⟩ := Program.exists_of_any_ofSource decided
    (fun p => (Constants.analyzeWithin p 0 .fifo 60).any fun constants =>
      (Liveness.analyzeWithin p 0 .fifo 60).any fun live => decide (
        Constants.MixesUnknown p constants ∧ detect p constants live = [4, 5])) (by
    have htext : decided.toList = _ := String.toList_ofList
    rw [Program.ofSource, lex_eq htext]
    decide +kernel)
  obtain ⟨constants, hconstants, h⟩ := (Option.any_eq_true _ _).mp h
  obtain ⟨live, hlive, h⟩ := (Option.any_eq_true _ _).mp h
  obtain ⟨hmix, hdead⟩ := of_decide_eq_true h
  have hinside := Program.jumpsInside_of_ofSource hp
  obtain ⟨hexact, hsafe⟩ := dead_code_is_exact_and_safe hp (Constants.of_analyzeWithin hconstants).1
    (bindsInts_of_analyzeWithin hinside hconstants) live
  exact ⟨p, constants, live, hp, hconstants, hlive, hdead, hexact,
    hsafe (fun _ => True) fun s hs => agrees_of_visits hinside hconstants hmix hs⟩

end DeadCode

end ObjectFlow
