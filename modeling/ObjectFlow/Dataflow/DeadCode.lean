/-
  File:      ObjectFlow/Dataflow/DeadCode.lean
  Subject:   DEAD CODE: statements no path reaches when constant branches are decided, and
             assignments without effect to variables that are not live.
-/
import ObjectFlow.Dataflow.Constants
import ObjectFlow.Dataflow.Liveness

namespace ObjectFlow

namespace DeadCode

/-! ## 1. Branches that are decided -/

/-- The nodes a branch goes on to when its condition is a known constant; `none` when every
    successor is possible. -/
def taken? (edges : List (FlowEdge EdgeKind)) (fact : ConstFact) : Stmt → Option (List Nat)
  | .branch left op right _ =>
    match op.eval (fact.get left) (fact.get right) with
    | .const value => some (pick (if value = 0 then .ifFalse else .ifTrue))
    | _ => none
  | .switch on cases _ =>
    (fact.get on).value?.map fun value =>
      pick (if cases.any (·.1 = value) then .switchCase value else .switchDefault)
  | _ => none
where
  /-- The targets of the edges of one kind. -/
  pick (kind : EdgeKind) : List Nat := (edges.filter (·.kind = kind)).map (·.target)

/-- The nodes control may go on to from a node. -/
def followed (constants : MethodFacts ConstFact) (node : Nat) : List Nat :=
  let flow := constants.flow
  let decided := do
    let i ← flow.indexOf? node
    taken? (flow.graph.outEdges node) ((constants.in? i).getD .empty) (← flow.stmts[i]?)
  decided.getD (flow.graph.successors node)

/-- The nodes control may reach. -/
def reached (constants : MethodFacts ConstFact) : List Nat :=
  breadthFirst (followed constants) constants.flow.graph.nodeCount constants.flow.entry

/-! ## 2. Assignments without effect -/

/-- Statements that may do more than assign a variable: they may allocate, fail or trap. Calls do
    not count here. -/
def hasSideEffect : Stmt → Bool
  | .assign _ (.cast _ _) => true
  | .assign _ (.binary .div _ _) | .assign _ (.binary .rem _ _) => true
  | .assign _ _ | .call _ => false
  | _ => true

/-- An assignment to a variable that is not live afterwards, without a side effect. -/
def isUseless (p : Program) (stmt : Stmt) (liveAfter : IdSet) : Bool :=
  match stmt.defined? with
  | some lhs => !liveAfter.contains (Liveness.localIndex p lhs) && !hasSideEffect stmt
  | none => false

/-! ## 3. The analysis -/

/-- The indices of the dead statements in ascending order, given constants and live variables. -/
def detect (p : Program) (constants : MethodFacts ConstFact) (live : MethodFacts IdSet) :
    List Nat :=
  let flow := constants.flow
  let alive := reached constants
  (flow.stmts.toList.zipIdx.filter fun (stmt, i) =>
    flow.nodeOf i ∉ alive || isUseless p stmt ((live.out? i).getD .empty)).map (·.2)

/-- The indices of the dead statements of a method in ascending order; each of the two analyses
    it rests on visits at most `allowance` nodes. -/
def findWithin (p : Program) (m : MethodId) (order : VisitOrder) (allowance : Nat) :
    Option (List Nat) := do
  let constants ← Constants.analyzeWithin p m order allowance
  let live ← Liveness.analyzeWithin p m order allowance
  return detect p constants live

/-- The indices of the dead statements of a method in ascending order. -/
def find (p : Program) (m : MethodId) (order : VisitOrder) : Option (List Nat) :=
  findWithin p m order stepAllowance

end DeadCode

end ObjectFlow
