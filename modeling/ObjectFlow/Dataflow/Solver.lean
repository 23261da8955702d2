/-
  File:      ObjectFlow/Dataflow/Solver.lean
  Subject:   THE WORKLIST SOLVER for dataflow problems in either direction.

  Along the direction of the problem every node has an input fact, the join of what arrives over
  its edges, and an output fact, the transfer of its input. Start nodes hold the boundary fact on
  both sides. Inner nodes are visited until no output changes; finish nodes, which no inner node
  waits for, are computed once at the end.
-/
import ObjectFlow.Iterate
import ObjectFlow.Graph.Worklist

namespace ObjectFlow

/-! ## 1. Problems and facts -/

/-- A dataflow problem over graphs with edge kinds `κ` and facts `φ`. The node transfer may keep
    a memory `σ` of its own from visit to visit; for most problems it is `Unit`. -/
structure DataflowProblem (κ φ σ : Type) where
  direction : Direction
  /-- The fact inner nodes start from, and the unit of `join`. -/
  initial : φ
  join : φ → φ → φ
  boundary : Nat → φ
  transferNode : Nat → φ → σ → φ × σ
  transferEdge : FlowEdge κ → φ → φ := fun _ fact => fact
  /-- Nodes to visit again when the output of a node changes, beside the next ones. -/
  dependents : Nat → List Nat := fun _ => []

/-- The facts at the two sides of every node. -/
structure Facts (φ : Type) where
  direction : Direction
  inputs : Array φ
  outputs : Array φ
  deriving DecidableEq

namespace Facts

variable {φ : Type}

/-- The fact before a node, along the flow of control. -/
def in? (f : Facts φ) (n : Nat) : Option φ :=
  match f.direction with
  | .forward => f.inputs[n]?
  | .backward => f.outputs[n]?

/-- The fact after a node, along the flow of control. -/
def out? (f : Facts φ) (n : Nat) : Option φ :=
  match f.direction with
  | .forward => f.outputs[n]?
  | .backward => f.inputs[n]?

def nodeCount (f : Facts φ) : Nat := f.inputs.size

/-- What is said of a node without facts. -/
def missing (n : Nat) : String := s!"No dataflow fact for node {n}"

end Facts

/-! ## 2. The solver -/

namespace DataflowProblem

variable {κ φ σ : Type}

/-- The state between two visits. -/
structure State (φ σ : Type) where
  facts : Facts φ
  worklist : Worklist
  memory : σ
  deriving DecidableEq

/-- Nodes that are neither start nor finish. -/
def isInner (g : FlowGraph κ) (n : Nat) : Bool := !g.isEntry n && !g.isExit n

/-- The output fact of a node. -/
def outputAt (p : DataflowProblem κ φ σ) (f : Facts φ) (n : Nat) : φ :=
  f.outputs.getD n p.initial

/-- The input of a node: what arrives over its edges, joined in edge order. -/
def arrived (p : DataflowProblem κ φ σ) (g : FlowGraph κ) (f : Facts φ) (n : Nat) : φ :=
  (g.arriving p.direction n).foldl
    (fun fact e => p.join fact (p.transferEdge e (p.outputAt f (e.origin p.direction))))
    p.initial

/-- Facts before the first visit: the boundary fact at start nodes, the initial fact elsewhere. -/
def startFacts (p : DataflowProblem κ φ σ) (g : FlowGraph κ) : Facts φ :=
  let column := (Array.range g.nodeCount).map fun n =>
    if g.isStart p.direction n then p.boundary n else p.initial
  { direction := p.direction, inputs := column, outputs := column }

/-- All inner nodes are pending at first, from the start of the flow to its end. -/
def startState (p : DataflowProblem κ φ σ) (g : FlowGraph κ) (order : VisitOrder) (memory : σ) :
    State φ σ :=
  let inner := g.nodes.filter (isInner g)
  let queue := match p.direction with
    | .forward => inner
    | .backward => inner.reverse
  { facts := p.startFacts g
    worklist := (Worklist.new g order p.direction).pushAll queue
    memory := memory }

variable [DecidableEq φ]

/-- Visits the next pending node: computes its facts anew and, if its output changed, makes its
    inner next nodes and its dependents pending. -/
def visit (p : DataflowProblem κ φ σ) (g : FlowGraph κ) (s : State φ σ) : Option (State φ σ) :=
  s.worklist.pop?.map fun (n, worklist) =>
    let input := p.arrived g s.facts n
    let (output, memory) := p.transferNode n input s.memory
    let old := p.outputAt s.facts n
    let facts := { s.facts with inputs := s.facts.inputs.setIfInBounds n input }
    if output = old then { facts := facts, worklist := worklist, memory := memory }
    else
      { facts := { facts with outputs := facts.outputs.setIfInBounds n output }
        worklist :=
          (worklist.pushAll ((g.next p.direction n).filter (isInner g))).pushAll (p.dependents n)
        memory := memory }

/-- Computes the facts of a finish node. -/
def finishNode (p : DataflowProblem κ φ σ) (g : FlowGraph κ) (s : Facts φ × σ) (n : Nat) :
    Facts φ × σ :=
  let (facts, memory) := s
  let input := p.arrived g facts n
  let (output, memory) := p.transferNode n input memory
  ({ facts with
      inputs := facts.inputs.setIfInBounds n input
      outputs := facts.outputs.setIfInBounds n output }, memory)

/-- Computes the facts of the finish nodes that are not start nodes. -/
def finish (p : DataflowProblem κ φ σ) (g : FlowGraph κ) (s : State φ σ) : Facts φ × σ :=
  let last := g.nodes.filter fun n => g.isFinish p.direction n && !g.isStart p.direction n
  last.foldl (p.finishNode g) (s.facts, s.memory)

/-- Solves the problem, visiting at most `allowance` nodes. -/
def solveWithin (p : DataflowProblem κ φ σ) (g : FlowGraph κ) (order : VisitOrder) (memory : σ)
    (allowance : Nat) : Option (Facts φ × σ) :=
  (iterate (p.visit g) allowance (p.startState g order memory)).map (p.finish g)

/-- Solves the problem. -/
def solve (p : DataflowProblem κ φ σ) (g : FlowGraph κ) (order : VisitOrder) (memory : σ) :
    Option (Facts φ × σ) :=
  p.solveWithin g order memory stepAllowance

end DataflowProblem

end ObjectFlow
