/-
  File:      ObjectFlow/Proofs/Dataflow/ConstantFlow.lean
  Subject:   CONSTANT PROPAGATION AS A DATAFLOW PROBLEM: what a statement does to the value of
             each variable, and how far it keeps the order of facts.

  Facts are canonical maps that bind only variables the method may assign. Statements are monotone
  but for quotients whose divisor turns out to be zero.

  * `get_transferStmt`: the value of a variable after a statement;
  * `transferStmt_le`: statements keep the order of facts, quotients apart;
  * `admissible`, `regular`: what the solver may rely on.
-/
import ObjectFlow.Dataflow.Constants
import ObjectFlow.Proofs.ControlFlow.MethodGraph
import ObjectFlow.Proofs.Dataflow.Runs
import ObjectFlow.Proofs.Domain.Maps

namespace ObjectFlow

namespace Constants

/-! ## 1. Statements -/

/-- **Only the assigned variable changes**, and only if it is integer-like. -/
theorem get_transferStmt (p : Program) (stmt : Stmt) (fact : ConstFact) (v : VarId) :
    (transferStmt p stmt fact).get v =
      if stmt.defined? = some v ∧ p.holdsInt v = true then assigned fact stmt else fact.get v := by
  unfold transferStmt
  cases hdefined : stmt.defined? with
  | none => simp
  | some lhs =>
    show (if p.holdsInt lhs = true then _ else fact : ConstFact).get v = _
    by_cases hint : p.holdsInt lhs = true
    · rw [if_pos hint, FactMap.get_update]
      by_cases hv : lhs = v
      · subst hv
        simp [hint]
      · simp [hv]
    · rw [if_neg hint]
      by_cases hv : lhs = v
      · subst hv
        simp [hint]
      · simp [hv]

/-- A quotient or remainder given to an integer-like variable. -/
structure Quotient where
  target : VarId
  dividend : VarId
  divisor : VarId

/-- The quotient a statement computes. -/
def quotient? (p : Program) : Stmt → Option Quotient
  | .assign lhs (.binary op left right) =>
    if op.divides && p.holdsInt lhs then some ⟨lhs, left, right⟩ else none
  | _ => none

/-- The statement of a quotient. -/
theorem of_quotient? {p : Program} {stmt : Stmt} {q : Quotient} (h : quotient? p stmt = some q) :
    ∃ op : BinaryOp, op.divides = true ∧ p.holdsInt q.target = true ∧
      stmt = .assign q.target (.binary op q.dividend q.divisor) := by
  unfold quotient? at h
  split at h
  · rename_i lhs op left right
    split at h
    · rename_i hcond
      cases h
      obtain ⟨hdivides, hint⟩ := (Bool.and_eq_true _ _).mp hcond
      exact ⟨op, hdivides, hint, rfl⟩
    · cases h
  · cases h

/-- **Statements keep the order of facts** but for a quotient of an unknown value whose divisor
    turns from undefined to zero. -/
theorem transferStmt_le {p : Program} {stmt : Stmt} {a b : ConstFact} (hab : a ≤ b)
    (h : ∀ q, quotient? p stmt = some q →
      ¬ (a.get q.dividend = .nac ∧ a.get q.divisor = .undefined ∧ b.get q.divisor = .const 0)) :
    transferStmt p stmt a ≤ transferStmt p stmt b := by
  intro v
  show (transferStmt p stmt a).get v ≤ (transferStmt p stmt b).get v
  rw [get_transferStmt, get_transferStmt]
  by_cases hv : stmt.defined? = some v ∧ p.holdsInt v = true
  · rw [if_pos hv, if_pos hv]
    cases stmt with
    | assign lhs rhs =>
      cases rhs with
      | var w => exact hab w
      | int value => exact le_refl _
      | cast ty w => exact le_refl _
      | binary op left right =>
        refine op.eval_le (hab left) (hab right) fun ⟨hdivides, hzero⟩ => ?_
        obtain ⟨hlhs, hint⟩ := hv
        cases hlhs
        exact h ⟨v, left, right⟩ (by simp [quotient?, hdivides, hint]) hzero
    | _ => exact le_refl _
  · rw [if_neg hv, if_neg hv]
    exact hab v

/-- The value of the variable a quotient is given to. -/
theorem get_of_quotient? {p : Program} {stmt : Stmt} {q : Quotient}
    (h : quotient? p stmt = some q) (fact : ConstFact) :
    ∃ op : BinaryOp, op.divides = true ∧
      (transferStmt p stmt fact).get q.target =
        op.eval (fact.get q.dividend) (fact.get q.divisor) := by
  obtain ⟨op, hdivides, hint, rfl⟩ := of_quotient? h
  refine ⟨op, hdivides, ?_⟩
  rw [get_transferStmt, if_pos ⟨rfl, hint⟩]
  rfl

/-! ## 2. Facts of a method -/

/-- The variables a method may assign: its parameters and those its statements assign. -/
def assignable (p : Program) (flow : MethodFlow) : List VarId :=
  (p.methodAt flow.method).params ++ flow.stmts.toList.filterMap (·.defined?)

/-- A canonical fact that binds only some variables. -/
structure Binds (vars : List VarId) (fact : ConstFact) : Prop where
  canonical : fact.Canonical
  other : ∀ v, ¬ v ∈ vars → fact.get v = .undefined

theorem binds_empty (vars : List VarId) : Binds vars .empty :=
  ⟨FactMap.canonical_empty, fun _ _ => rfl⟩

theorem Binds.update {vars : List VarId} {fact : ConstFact} (h : Binds vars fact) {v : VarId}
    (hv : v ∈ vars) (value : ConstValue) : Binds vars (fact.update v value) := by
  refine ⟨h.canonical.update v value, fun w hw => ?_⟩
  rw [FactMap.get_update, if_neg fun e : v = w => hw (e ▸ hv)]
  exact h.other w hw

theorem Binds.join {vars : List VarId} {a b : ConstFact} (ha : Binds vars a) (hb : Binds vars b) :
    Binds vars (a.join b) := by
  refine ⟨ha.canonical.join hb.canonical, fun v hv => ?_⟩
  rw [FactMap.get_join _ hb.canonical, ha.other v hv, hb.other v hv]
  rfl

/-- **Exactly the integer-like ones of the variables are unknown.** -/
theorem get_unknown (p : Program) (vars : List VarId) (v : VarId) :
    (unknown p vars).get v =
      if v ∈ vars ∧ p.holdsInt v = true then .nac else .undefined := by
  have hfold : ∀ (l : List VarId) (fact : ConstFact),
      (l.foldl (fun fact v => fact.update v .nac) fact).get v =
        if v ∈ l then .nac else fact.get v := by
    intro l
    induction l with
    | nil => exact fun fact => rfl
    | cons w l ih =>
      intro fact
      rw [List.foldl_cons, ih, FactMap.get_update]
      by_cases hl : v ∈ l
      · rw [if_pos hl, if_pos (List.mem_cons_of_mem w hl)]
      · rw [if_neg hl]
        by_cases hw : w = v
        · rw [if_pos hw, hw, if_pos List.mem_cons_self]
        · rw [if_neg hw, if_neg fun h => (List.mem_cons.mp h).elim (fun e => hw e.symm) hl]
  unfold unknown
  rw [hfold]
  simp only [List.mem_filter]
  rfl

theorem binds_unknown (p : Program) {vars params : List VarId} (h : ∀ v ∈ params, v ∈ vars) :
    Binds vars (unknown p params) := by
  unfold unknown
  refine List.foldlRecOn _ _ (binds_empty vars) fun fact hfact v hv => ?_
  exact hfact.update (h v (List.mem_filter.mp hv).1) .nac

theorem Binds.transferStmt {p : Program} {vars : List VarId} {stmt : Stmt} {fact : ConstFact}
    (h : Binds vars fact) (hstmt : ∀ v, stmt.defined? = some v → v ∈ vars) :
    Binds vars (transferStmt p stmt fact) := by
  unfold Constants.transferStmt
  split
  · rename_i lhs hlhs
    split
    · exact h.update (hstmt lhs hlhs) _
    · exact h
  · exact h

/-! ## 3. The problem -/

/-- The transfer of a node. -/
def transferAt (p : Program) (flow : MethodFlow) (node : Nat) (fact : ConstFact) : ConstFact :=
  match flow.stmtAt? node with
  | some stmt => transferStmt p stmt fact
  | none => fact

theorem transferAt_of_stmtAt? {p : Program} {flow : MethodFlow} {node : Nat} {stmt : Stmt}
    (h : flow.stmtAt? node = some stmt) : transferAt p flow node = transferStmt p stmt := by
  funext fact
  rw [transferAt, h]

theorem transferAt_of_none {p : Program} {flow : MethodFlow} {node : Nat}
    (h : flow.stmtAt? node = none) (fact : ConstFact) : transferAt p flow node fact = fact := by
  rw [transferAt, h]

theorem admissible {p : Program} (h : p.JumpsInside) (m : MethodId) :
    (problem p (p.flowOf m)).Admissible (p.flowOf m).graph (transferAt p (p.flowOf m)) where
  stateless _ _ _ := rfl
  independent _ := rfl
  coherent := h.coherent m
  finish _ hn hfinish := h.next_eq_nil m .forward hn hfinish

theorem regular (p : Program) (flow : MethodFlow) :
    (problem p flow).Regular (Binds (assignable p flow)) where
  initial := binds_empty _
  least a v := ConstValue.undefined_le (a.get v)
  boundary _ := binds_unknown p fun _ hv => List.mem_append_left _ hv
  join := Binds.join
  edge h := h
  left_le {a b} hb v := by
    show a.get v ≤ (a.join b).get v
    rw [FactMap.get_join _ hb.canonical]
    exact le_sup_left
  right_le {a b} hb v := by
    show b.get v ≤ (a.join b).get v
    rw [FactMap.get_join _ hb.canonical]
    exact le_sup_right
  join_le {a a' b b'} hb hb' haa' hbb' v := by
    show (a.join b).get v ≤ (a'.join b').get v
    rw [FactMap.get_join _ hb.canonical, FactMap.get_join _ hb'.canonical]
    exact sup_le_sup (haa' v) (hbb' v)
  edge_le _ _ h := h

theorem binds_transferAt (p : Program) (flow : MethodFlow) (n : Nat) (fact : ConstFact)
    (h : Binds (assignable p flow) fact) :
    Binds (assignable p flow) (transferAt p flow n fact) := by
  cases hstmt : flow.stmtAt? n with
  | none =>
    rw [transferAt_of_none hstmt]
    exact h
  | some stmt =>
    rw [transferAt_of_stmtAt? hstmt]
    refine h.transferStmt fun v hv => List.mem_append_right _ ?_
    refine List.mem_filterMap.mpr ⟨stmt, ?_, hv⟩
    obtain ⟨i, -, hi⟩ := Option.bind_eq_some_iff.mp hstmt
    exact Array.mem_toList_iff.mpr (Array.mem_of_getElem? hi)

/-- **All outputs of a run are canonical and bind only variables the method may assign.** -/
theorem closed_binds {p : Program} (h : p.JumpsInside) (m : MethodId) :
    DataflowProblem.Closed (problem p (p.flowOf m)) (p.flowOf m).graph (transferAt p (p.flowOf m))
      fun _ => Binds (assignable p (p.flowOf m)) :=
  (regular p _).closed (h.coherent m) (binds_transferAt p _)

/-! ## 4. Results -/

theorem of_analyzeWithin {p : Program} {m : MethodId} {order : VisitOrder} {allowance : Nat}
    {r : MethodFacts ConstFact} (h : analyzeWithin p m order allowance = some r) :
    r.flow = p.flowOf m ∧
      (problem p (p.flowOf m)).solveWithin (p.flowOf m).graph order () allowance =
        some (r.facts, ()) := by
  obtain ⟨⟨f, _⟩, hf, rfl⟩ := Option.map_eq_some_iff.mp h
  exact ⟨rfl, hf⟩

/-- The statements of a method are those of its inner nodes. -/
theorem stmtAt?_flowOf {p : Program} {m : MethodId} {n : Nat} {stmt : Stmt}
    (h : (p.flowOf m).stmtAt? n = some stmt) :
    ∃ i, n = i + 1 ∧ (p.methodAt m).stmts[i]? = some stmt := by
  cases n with
  | zero => simp [MethodFlow.stmtAt?, MethodFlow.indexOf?, MethodFlow.entry] at h
  | succ i => exact ⟨i, rfl, (stmtAt?_ofStmts m i).symm.trans h⟩

/-- The fact before a statement is the input of its node. -/
theorem getD_in? (p : Program) (flow : MethodFlow) {r : MethodFacts ConstFact}
    (h : r.facts.direction = .forward) (i : Nat) :
    (r.in? i).getD .empty = (problem p flow).inputAt r.facts (i + 1) := by
  unfold MethodFacts.in? Facts.in? DataflowProblem.inputAt
  rw [h, Array.getD_eq_getD_getElem?]
  rfl

end Constants

end ObjectFlow
