/-
  File:      ObjectFlow/Proofs/Dataflow/OrderIndependence.lean
  Subject:   THE ORDER OF VISITS DOES NOT CHANGE CONSTANTS AND DEAD CODE where no unknown value is
             divided by zero.

  A quotient of an unknown value is unknown until its divisor is known to be zero, and nothing from
  then on. An order of visits that looks at the quotient before the divisor is settled can leave
  the unknown value behind in a loop that keeps itself alive (`lateZero`). Where the facts before
  every quotient rule this out they take in all that could be computed from less, so each of two
  such results bounds the other.
-/
import ObjectFlow.Dataflow.DeadCode
import ObjectFlow.Proofs.Dataflow.ConstantFlow
import ObjectFlow.Proofs.Dataflow.LivenessFlow

namespace ObjectFlow

namespace Constants

/-! ## 1. Divisions by zero -/

/-- Whether a statement divides an unknown value by zero, as far as the fact before it tells. -/
def dividesByZero (p : Program) (r : MethodFacts ConstFact) (i : Nat) : Bool :=
  match (r.flow.stmts[i]?).bind (quotient? p) with
  | none => false
  | some q =>
    let fact := (r.in? i).getD .empty
    fact.get q.dividend = .nac && fact.get q.divisor = .const 0

/-- As far as the facts tell, no statement divides an unknown value by zero. -/
def ZeroFree (p : Program) (r : MethodFacts ConstFact) : Prop :=
  ∀ i < r.flow.stmts.size, dividesByZero p r i = false

instance (p : Program) (r : MethodFacts ConstFact) : Decidable (ZeroFree p r) :=
  inferInstanceAs (Decidable (∀ i < r.flow.stmts.size, dividesByZero p r i = false))

section Results

variable {p : Program} {m : MethodId} {order order' : VisitOrder} {allowance allowance' : Nat}
  {r r' : MethodFacts ConstFact}

/-- The values of dividend and divisor before a quotient. -/
theorem ZeroFree.not_zero (hzero : ZeroFree p r) (hflow : r.flow = p.flowOf m)
    (hdirection : r.facts.direction = .forward) {i : Nat} {stmt : Stmt}
    (hstmt : (p.methodAt m).stmts[i]? = some stmt) {q : Quotient}
    (hq : quotient? p stmt = some q) :
    let fact := (problem p (p.flowOf m)).inputAt r.facts (i + 1)
    ¬ (fact.get q.dividend = .nac ∧ fact.get q.divisor = .const 0) := by
  rintro fact ⟨hdividend, hdivisor⟩
  have hstmts : r.flow.stmts[i]? = some stmt := by
    rw [hflow]
    simpa [Program.flowOf, MethodFlow.ofStmts] using hstmt
  have hi := hzero i (Array.getElem?_eq_some_iff.mp hstmts).1
  unfold dividesByZero at hi
  rw [hstmts, getD_in? p (p.flowOf m) hdirection] at hi
  simp only [Option.bind_some, hq] at hi
  simp [fact, hdividend, hdivisor] at hi

/-- **A result without divisions by zero takes in all that could be computed from less**, so it
    bounds the outputs of every run. -/
theorem output_le_of_zeroFree (hp : p.JumpsInside)
    (hr : analyzeWithin p m order allowance = some r)
    (hr' : analyzeWithin p m order' allowance' = some r') (hzero' : ZeroFree p r') {n : Nat}
    (hn : n < (p.flowOf m).graph.nodeCount) :
    (problem p (p.flowOf m)).outputAt r.facts n ≤ (problem p (p.flowOf m)).outputAt r'.facts n := by
  obtain ⟨-, hrun⟩ := of_analyzeWithin hr
  obtain ⟨hflow', hrun'⟩ := of_analyzeWithin hr'
  have hsolves' := DataflowProblem.solves_of_solveWithin (admissible hp m) hrun'
  have hbinds' := (closed_binds hp m).of_solveWithin (admissible hp m) hrun'
  have hbelow := DataflowProblem.Closed.below (regular p _) (hp.coherent m) (binds_transferAt p _)
    hsolves' hbinds' fun n _ _ fact _ hle => ?_
  · exact (hbelow.of_solveWithin (admissible hp m) hrun n hn).2
  · cases hstmt : (p.flowOf m).stmtAt? n with
    | none =>
      rw [transferAt_of_none hstmt, transferAt_of_none hstmt]
      exact hle
    | some stmt =>
      rw [transferAt_of_stmtAt? hstmt]
      obtain ⟨i, rfl, hi⟩ := stmtAt?_flowOf hstmt
      refine transferStmt_le hle fun q hq ⟨hdividend, _, hdivisor⟩ => ?_
      have hnac := ConstValue.eq_nac_of_le (hdividend ▸ hle q.dividend)
      exact hzero'.not_zero hflow' hsolves'.direction hi hq ⟨hnac, hdivisor⟩

theorem eq_of_zeroFree (hp : p.JumpsInside) (hr : analyzeWithin p m order allowance = some r)
    (hr' : analyzeWithin p m order' allowance' = some r') (hzero : ZeroFree p r)
    (hzero' : ZeroFree p r') : r = r' := by
  obtain ⟨hflow, hrun⟩ := of_analyzeWithin hr
  obtain ⟨hflow', hrun'⟩ := of_analyzeWithin hr'
  have hbinds := (closed_binds hp m).of_solveWithin (admissible hp m) hrun
  have hbinds' := (closed_binds hp m).of_solveWithin (admissible hp m) hrun'
  have hfacts : r.facts = r'.facts := by
    refine (DataflowProblem.solves_of_solveWithin (admissible hp m) hrun).ext
      (DataflowProblem.solves_of_solveWithin (admissible hp m) hrun') (hp.coherent m) fun n hn => ?_
    refine (hbinds n hn).canonical.ext (hbinds' n hn).canonical fun v => ?_
    exact le_antisymm (output_le_of_zeroFree hp hr hr' hzero' hn v)
      (output_le_of_zeroFree hp hr' hr hzero hn v)
  cases r
  cases r'
  cases hfacts
  rw [MethodFacts.mk.injEq]
  exact ⟨hflow.trans hflow'.symm, rfl⟩

end Results

/-! ## 2. Every order of visits -/

/-- **Constants and dead code do not depend on the order of visits** where no unknown value is
    divided by zero. -/
theorem constants_eq_in_every_order {source : String} {p : Program}
    (hp : Program.ofSource source = .ok p) {m : MethodId} {order order' : VisitOrder}
    {allowance allowance' : Nat} {r r' : MethodFacts ConstFact}
    (hr : analyzeWithin p m order allowance = some r)
    (hr' : analyzeWithin p m order' allowance' = some r') (hzero : ZeroFree p r)
    (hzero' : ZeroFree p r') :
    r = r' ∧ ∀ dead dead', DeadCode.findWithin p m order allowance = some dead →
      DeadCode.findWithin p m order' allowance' = some dead' → dead = dead' := by
  have hinside := Program.jumpsInside_of_ofSource hp
  have hsame := eq_of_zeroFree hinside hr hr' hzero hzero'
  refine ⟨hsame, fun dead dead' hdead hdead' => ?_⟩
  obtain ⟨constants, hconstants, hdead⟩ := Option.bind_eq_some_iff.mp hdead
  obtain ⟨live, hlive, hdead⟩ := Option.bind_eq_some_iff.mp hdead
  obtain ⟨constants', hconstants', hdead'⟩ := Option.bind_eq_some_iff.mp hdead'
  obtain ⟨live', hlive', hdead'⟩ := Option.bind_eq_some_iff.mp hdead'
  rw [hr] at hconstants
  rw [hr'] at hconstants'
  cases hconstants
  cases hconstants'
  cases hdead
  cases hdead'
  rw [hsame, Liveness.eq_of_analyzeWithin hinside hlive hlive']

/-- A loop in which an unknown value is divided by two. -/
def halving : String :=
  "class A \x7b
    static method void main(int p) \x7b
      var int y, a;
      y = 2;
      l: a = p / y;
      if a == p goto l;
      y = a;
    \x7d
  \x7d"

set_option maxRecDepth 2000 in
/-- Last in, first out gives what first in, first out gives. -/
theorem constants_eq_in_every_order_halving :
    ∃ p r r', Program.ofSource halving = .ok p ∧ analyzeWithin p 0 .fifo 40 = some r ∧
      analyzeWithin p 0 .lifo 40 = some r' ∧ r = r' ∧
      ((r.in? 1).map fun fact => (fact.get 1, fact.get 2)) = some (.const 2, .nac) := by
  obtain ⟨p, hp, h⟩ := Program.exists_of_any_ofSource halving
    (fun p => (analyzeWithin p 0 .fifo 40).any fun r => (analyzeWithin p 0 .lifo 40).any fun r' =>
      decide (ZeroFree p r ∧ ZeroFree p r' ∧
        ((r.in? 1).map fun fact => (fact.get 1, fact.get 2)) = some (.const 2, .nac))) (by
    have htext : halving.toList = _ := String.toList_ofList
    rw [Program.ofSource, lex_eq htext]
    decide +kernel)
  obtain ⟨r, hr, h⟩ := (Option.any_eq_true _ _).mp h
  obtain ⟨r', hr', h⟩ := (Option.any_eq_true _ _).mp h
  obtain ⟨hzero, hzero', hvalues⟩ := of_decide_eq_true h
  exact ⟨p, r, r', hp, hr, hr', (constants_eq_in_every_order hp hr hr' hzero hzero').1, hvalues⟩

/-- The divisor `y` is zero and the dividend `x` unknown. Whether `a` is seen as a quotient of an
    unknown value before that depends on the order of visits, and the loop keeps what was seen. -/
def lateZero : String :=
  "class Main \x7b
    static method void main(int p) \x7b
      var int x, y, a;
      y = 0;
      a = 1;
      x = (int) p;
      if p == x goto loop;
      a = x / y;
      loop: if p == x goto loop;
      if a == y goto end;
      return;
      end: nop;
    \x7d
  \x7d"

set_option maxRecDepth 2000 in
/-- **Without the condition the order of visits matters**: after the loop `a` is 1 in one order and
    unknown in the other, and with it the last statement is dead or not. -/
theorem lateZero_order_matters :
    ∃ p, Program.ofSource lateZero = .ok p ∧
      ((analyzeWithin p 0 .fifo 60).bind fun r => (r.in? 6).map (·.get 3)) = some (.const 1) ∧
      ((analyzeWithin p 0 .lifo 60).bind fun r => (r.in? 6).map (·.get 3)) = some .nac ∧
      DeadCode.findWithin p 0 .fifo 60 = some [8] ∧
      DeadCode.findWithin p 0 .lifo 60 = some [] := by
  obtain ⟨p, hp, h⟩ := Program.exists_of_any_ofSource lateZero
    (fun p => decide (
      ((analyzeWithin p 0 .fifo 60).bind fun r => (r.in? 6).map (·.get 3)) = some (.const 1) ∧
      ((analyzeWithin p 0 .lifo 60).bind fun r => (r.in? 6).map (·.get 3)) = some .nac ∧
      DeadCode.findWithin p 0 .fifo 60 = some [8] ∧
      DeadCode.findWithin p 0 .lifo 60 = some [])) (by
    have htext : lateZero.toList = _ := String.toList_ofList
    rw [Program.ofSource, lex_eq htext]
    decide +kernel)
  exact ⟨p, hp, of_decide_eq_true h⟩

end Constants

end ObjectFlow
