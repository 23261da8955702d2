/-
  File:      ObjectFlow/Graph/Basic.lean
  Subject:   FLOW GRAPHS: numbered nodes, labelled edges listed at both ends, and the nodes
             where flow begins and ends.
-/
namespace ObjectFlow

/-! ## 1. Graphs -/

/-- The direction facts travel in. -/
inductive Direction where
  | forward
  | backward
  deriving DecidableEq, Inhabited

/-- A directed edge between two nodes. -/
structure FlowEdge (κ : Type) where
  source : Nat
  target : Nat
  kind : κ
  deriving DecidableEq

/-- A flow graph on the nodes below `nodeCount`. -/
structure FlowGraph (κ : Type) where
  nodeCount : Nat
  /-- The edges into a node, in order. -/
  inEdges : Nat → List (FlowEdge κ)
  /-- The edges out of a node, in order. -/
  outEdges : Nat → List (FlowEdge κ)
  isEntry : Nat → Bool
  isExit : Nat → Bool

namespace FlowGraph

variable {κ : Type}

/-- Groups edges by one of their ends, keeping their order within a group. -/
def groupBy (n : Nat) (key : FlowEdge κ → Nat) (edges : List (FlowEdge κ)) :
    Array (List (FlowEdge κ)) :=
  (Array.range n).map fun i => edges.filter (key · = i)

/-- The graph of a list of edges; each node lists its edges in the order of that list. -/
def ofEdges (n : Nat) (edges : List (FlowEdge κ)) (isEntry isExit : Nat → Bool) : FlowGraph κ :=
  let ins := groupBy n FlowEdge.target edges
  let outs := groupBy n FlowEdge.source edges
  { nodeCount := n
    inEdges := fun i => ins.getD i []
    outEdges := fun i => outs.getD i []
    isEntry := isEntry
    isExit := isExit }

def nodes (g : FlowGraph κ) : List Nat := List.range g.nodeCount

def successors (g : FlowGraph κ) (n : Nat) : List Nat := (g.outEdges n).map (·.target)

def predecessors (g : FlowGraph κ) (n : Nat) : List Nat := (g.inEdges n).map (·.source)

/-! ## 2. A graph seen along a direction -/

/-- The edges along which facts arrive at a node. -/
def arriving (g : FlowGraph κ) : Direction → Nat → List (FlowEdge κ)
  | .forward => g.inEdges
  | .backward => g.outEdges

/-- The nodes facts travel to next. -/
def next (g : FlowGraph κ) : Direction → Nat → List Nat
  | .forward => g.successors
  | .backward => g.predecessors

/-- The nodes facts start from. -/
def isStart (g : FlowGraph κ) : Direction → Nat → Bool
  | .forward => g.isEntry
  | .backward => g.isExit

/-- The nodes facts end at. -/
def isFinish (g : FlowGraph κ) : Direction → Nat → Bool
  | .forward => g.isExit
  | .backward => g.isEntry

end FlowGraph

/-- The node an arriving fact comes from. -/
def FlowEdge.origin {κ : Type} (e : FlowEdge κ) : Direction → Nat
  | .forward => e.source
  | .backward => e.target

/-! ## 3. The graph as text -/

namespace FlowGraph

variable {κ : Type}

/-- Writes the graph in the dot language. A graph without a name is called `CFG`; quotes in node
    labels are escaped. -/
def toDot (g : FlowGraph κ) (name : Option String) (nodeLabel : Nat → String)
    (kindLabel : κ → String) : String :=
  let nodeLine (n : Nat) :=
    let label := (nodeLabel n).replace "\"" "\\\""
    s!"  Node_{n}[label=\"{label}\"]\n"
  let edgeLine (e : FlowEdge κ) :=
    s!"  Node_{e.source} -> Node_{e.target}[label=\"{kindLabel e.kind}\"]\n"
  "digraph " ++ name.getD "CFG" ++ " \x7b\n"
    ++ String.join (g.nodes.map nodeLine)
    ++ "\n"
    ++ String.join ((g.nodes.flatMap g.outEdges).map edgeLine)
    ++ "\x7d\n"

end FlowGraph

end ObjectFlow
