/-
  File:      ObjectFlow/Proofs/Dataflow/Termination.lean
  Subject:   CONSTANT PROPAGATION ENDS where no quotient loses its value on the way.

  Outputs of other statements only rise, and they rise finitely often. A quotient of an unknown
  value can fall: it is unknown while its divisor is undefined and nothing once the divisor is
  zero. The rise and the fall may then follow each other around a loop for ever (`chase`).
-/
import ObjectFlow.Proofs.Dataflow.ConstantFlow

namespace ObjectFlow

namespace Constants

open DataflowProblem

/-! ## 1. Quotients that lose their value -/

/-- Whether a node that gave its quotient a value gives it none any more. -/
def losesQuotient (p : Program) (flow : MethodFlow) (f f' : Facts ConstFact) (n : Nat) : Bool :=
  match (flow.stmtAt? n).bind (quotient? p) with
  | none => false
  | some q =>
    ((problem p flow).outputAt f n).get q.target ≠ .undefined &&
      ((problem p flow).outputAt f' n).get q.target = .undefined

/-- The state of the solver after some visits, unless it ends before. -/
def stateAfter (p : Program) (m : MethodId) (order : VisitOrder) (visits : Nat) :
    Option (State ConstFact Unit) :=
  steps ((problem p (p.flowOf m)).visit (p.flowOf m).graph) visits
    ((problem p (p.flowOf m)).startState (p.flowOf m).graph order ())

/-- The visit of a state takes no quotient its value. -/
def keepsQuotients (p : Program) (flow : MethodFlow) (s : State ConstFact Unit) : Bool :=
  ((problem p flow).visit flow.graph s).all fun t =>
    flow.graph.nodes.all fun n => !losesQuotient p flow s.facts t.facts n

section Runs

variable {p : Program} {flow : MethodFlow} {s t : State ConstFact Unit} {n : Nat}

/-- **A quotient that keeps its value has only risen.** -/
theorem transferAt_le {a b : ConstFact} (hab : a ≤ b) (hs : (problem p flow).outputAt s.facts n =
      transferAt p flow n a) (ht : (problem p flow).outputAt t.facts n = transferAt p flow n b)
    (hkeeps : losesQuotient p flow s.facts t.facts n = false) :
    transferAt p flow n a ≤ transferAt p flow n b := by
  cases hstmt : flow.stmtAt? n with
  | none =>
    rw [transferAt_of_none hstmt, transferAt_of_none hstmt]
    exact hab
  | some stmt =>
    rw [transferAt_of_stmtAt? hstmt] at hs ht ⊢
    refine transferStmt_le hab fun q hq ⟨hdividend, hdivisor, hzero⟩ => ?_
    -- before the visit the quotient was unknown, after it it would have no value
    obtain ⟨op, -, hold⟩ := get_of_quotient? hq a
    obtain ⟨op', hdivides, hnew⟩ := get_of_quotient? hq b
    rw [hdividend, hdivisor] at hold
    rw [hzero, op'.eval_zero hdivides] at hnew
    have hnac : op.eval .nac .undefined = .nac := by cases op <;> rfl
    unfold losesQuotient at hkeeps
    rw [hstmt, Option.bind_some, hq, hs, ht] at hkeeps
    simp [hold, hnew, hnac] at hkeeps

/-- What is seen of a fact: the values of the variables the method may assign. -/
def view (vars : List VarId) (fact : ConstFact) : {v // v ∈ vars} → ConstValue :=
  fun v => fact.get v

instance (vars : List VarId) : WellFoundedGT ({v // v ∈ vars} → ConstValue) := by
  have hfinite : Finite {v // v ∈ vars} := List.finite_toSet vars
  have hdual : WellFoundedLT ({v // v ∈ vars} → ConstValueᵒᵈ) := inferInstance
  exact ⟨hdual.wf⟩

/-- Facts that look the same are the same. -/
theorem Binds.eq_of_view {vars : List VarId} {a b : ConstFact} (ha : Binds vars a)
    (hb : Binds vars b) (h : view vars a = view vars b) : a = b := by
  refine ha.canonical.ext hb.canonical fun v => ?_
  by_cases hv : v ∈ vars
  · exact congrFun h ⟨v, hv⟩
  · rw [ha.other v hv, hb.other v hv]

end Runs

/-! ## 2. Runs end -/

/-- The outputs are in order, and all that was computed so far came from inputs that have at most
    risen since. -/
structure InOrder (p : Program) (flow : MethodFlow) (s : State ConstFact Unit) : Prop where
  binds : Throughout (problem p flow) flow.graph (fun _ => Binds (assignable p flow)) s.facts
  tracked : Tracked (problem p flow) flow.graph (transferAt p flow) s.facts

section Visit

variable {p : Program} {m : MethodId} {s t : State ConstFact Unit} {n : Nat}

/-- **A visit that takes no quotient its value raises the output of its node or leaves it.** -/
theorem InOrder.output_le (h : InOrder p (p.flowOf m) s)
    (v : Visited (problem p (p.flowOf m)) (p.flowOf m).graph (transferAt p (p.flowOf m)) s t n)
    (hs : Settled (problem p (p.flowOf m)) (p.flowOf m).graph (transferAt p (p.flowOf m)) s)
    (hv : (problem p (p.flowOf m)).visit (p.flowOf m).graph s = some t)
    (hkeeps : keepsQuotients p (p.flowOf m) s = true) :
    (problem p (p.flowOf m)).outputAt s.facts n ≤ (problem p (p.flowOf m)).outputAt t.facts n := by
  obtain ⟨hlt, hinner⟩ := hs.pending n v.pending
  have hloses : losesQuotient p (p.flowOf m) s.facts t.facts n = false := by
    unfold keepsQuotients at hkeeps
    rw [hv, Option.all_some, List.all_eq_true] at hkeeps
    simpa using hkeeps n (List.mem_range.mpr hlt)
  have hafter : (problem p (p.flowOf m)).outputAt t.facts n = _ := (v.output n).trans (if_pos rfl)
  rcases h.tracked n hlt hinner with hinitial | ⟨hbefore, hinput⟩
  · rw [hinitial]
    exact (regular p (p.flowOf m)).least _
  · have hle := transferAt_le hinput hbefore hafter hloses
    rw [hbefore, hafter]
    exact hle

end Visit

/-- **Constant propagation ends**, in every order of visits in which no visit takes a quotient its
    value. -/
theorem analyzeWithin_ends {source : String} {p : Program} (hp : Program.ofSource source = .ok p)
    (m : MethodId) (order : VisitOrder)
    (hkeeps : ∀ visits s, stateAfter p m order visits = some s →
      keepsQuotients p (p.flowOf m) s = true) :
    ∃ n r, ∀ allowance, n ≤ allowance → analyzeWithin p m order allowance = some r := by
  have hinside := Program.jumpsInside_of_ofSource hp
  have hclosed := closed_binds hinside m
  have hstart : InOrder p (p.flowOf m)
      ((problem p (p.flowOf m)).startState (p.flowOf m).graph order ()) :=
    ⟨hclosed.startFacts, startFacts_tracked⟩
  obtain ⟨n, r, hn⟩ := exists_solveWithin_of_rising (view (assignable p (p.flowOf m)))
    (admissible hinside m) order () hstart (by
      intro s t n hreached h hs hv v
      have hlt := (hs.pending n v.pending).1
      have hbinds := v.throughout hclosed hs h.binds
      obtain ⟨visits, hvisits⟩ := hreached
      have hle := h.output_le v hs hv (hkeeps visits s hvisits)
      refine ⟨⟨hbinds, v.tracked (regular p _) (hinside.coherent m) h.binds hbinds hle h.tracked⟩,
        fun hchanged => lt_of_le_of_ne (fun x => hle x) fun hview => hchanged ?_⟩
      exact ((h.binds n hlt).eq_of_view (hbinds n hlt) hview).symm)
  refine ⟨n, ⟨p.flowOf m, r.1⟩, fun allowance hle => ?_⟩
  unfold analyzeWithin
  simp only
  rw [hn allowance hle]
  rfl

/-- A loop with a quotient that never has a value. -/
def zeroLoop : String :=
  "class A \x7b
    static method void main(int p) \x7b
      var int y, a;
      y = 0;
      l: a = p / y;
      if a == p goto l;
    \x7d
  \x7d"

set_option maxRecDepth 2000 in
/-- Every run over it ends. -/
theorem analyzeWithin_ends_zeroLoop :
    ∃ p, Program.ofSource zeroLoop = .ok p ∧
      ∃ n r, ∀ allowance, n ≤ allowance → analyzeWithin p 0 .lifo allowance = some r := by
  obtain ⟨p, hp, h⟩ := Program.exists_of_any_ofSource zeroLoop
    (fun p => decide (
      (∀ k : Nat, k < 12 → (stateAfter p 0 .lifo k).all (keepsQuotients p (p.flowOf 0)) = true) ∧
        stateAfter p 0 .lifo 12 = none)) (by
    have htext : zeroLoop.toList = _ := String.toList_ofList
    rw [Program.ofSource, lex_eq htext]
    decide +kernel)
  obtain ⟨hall, hstop⟩ := of_decide_eq_true h
  exact ⟨p, hp, analyzeWithin_ends hp 0 .lifo fun visits s hs =>
    all_of_steps_eq_none hall hstop hs⟩

/-- The divisor `y` is undefined on one way to the quotient `a` and zero on the other. Behind the
    quotient a ring of jumps leads back to its start. -/
def chase : String :=
  "class Main \x7b
    static method void main(int p) \x7b
      var int y, a;
      if p == p goto zero;
      goto div;
      r3: goto head;
      r2: goto r3;
      r1: goto r2;
      div: a = p / y;
      head: goto r1;
      zero: y = 0;
      goto div;
    \x7d
  \x7d"

set_option maxRecDepth 2000 in
/-- **Without the condition a run may go on for ever**: first in, first out, the unknown quotient
    and its withdrawal follow each other around the ring, and after eight visits the state is the
    same again. -/
theorem chase_never_ends :
    ∃ p, Program.ofSource chase = .ok p ∧
      ∀ allowance, analyzeWithin p 0 .fifo allowance = none := by
  obtain ⟨p, hp, h⟩ := Program.exists_of_any_ofSource chase
    (fun p => (stateAfter p 0 .fifo 19).any fun s =>
      steps ((problem p (p.flowOf 0)).visit (p.flowOf 0).graph) 8 s = some s) (by
    have htext : chase.toList = _ := String.toList_ofList
    rw [Program.ofSource, lex_eq htext]
    decide +kernel)
  obtain ⟨s, hs, hcycle⟩ := (Option.any_eq_true _ _).mp h
  refine ⟨p, hp, fun allowance => ?_⟩
  unfold analyzeWithin solveWithin
  simp only
  rw [iterate_eq_none_of_cycle (of_decide_eq_true hcycle) hs allowance]
  rfl

end Constants

end ObjectFlow
