/-
  File:      ObjectFlow/Graph/Order.lean
  Subject:   ORDERS ON THE NODES of a graph: reverse post-order and breadth-first order.

  A depth-first search puts a node in front of the list of finished nodes when all that can be
  reached from it is finished, so the list it leaves is the reverse post-order, and the rank of
  a node is its position in that list.
-/
import ObjectFlow.Graph.Basic

namespace ObjectFlow

/-! ## 1. Depth-first search -/

/-- The nodes a search has entered, and those it has finished, the last one first. -/
structure SearchState where
  entered : List Nat := []
  finished : List Nat := []
  deriving Inhabited

/-- Searches depth first from a node, trying the last of the next nodes first. The first argument
    bounds the depth; the number of nodes is always enough. -/
def depthFirst (next : Nat → List Nat) : Nat → SearchState → Nat → SearchState
  | 0, s, _ => s
  | depth + 1, s, n =>
    if n ∈ s.entered then s
    else
      let after := (next n).reverse.foldl (depthFirst next depth)
        { s with entered := n :: s.entered }
      { after with finished := n :: after.finished }

namespace FlowGraph

variable {κ : Type}

/-- All nodes in reverse post-order: searched first from the start nodes, then from all nodes. -/
def postOrderReversed (g : FlowGraph κ) (d : Direction) : List Nat :=
  let roots := g.nodes.filter (g.isStart d) ++ g.nodes
  (roots.foldl (depthFirst (g.next d) (g.nodeCount + 1)) {}).finished

/-- The reverse post-order rank of every node. -/
def ranks (g : FlowGraph κ) (d : Direction) : Array Nat :=
  let order := g.postOrderReversed d
  (Array.range g.nodeCount).map fun n => order.idxOf n

end FlowGraph

/-! ## 2. Breadth-first search -/

/-- Adds the nodes that are not yet listed, in order and each once. -/
def addFresh {α : Type} [DecidableEq α] (seen : List α) (more : List α) : List α :=
  more.foldl (fun fresh a => if a ∈ seen ∨ a ∈ fresh then fresh else fresh ++ [a]) []

/-- Extends the nodes seen by all that can be reached from the queued ones, nearest first. The
    first argument bounds the number of nodes taken from the queue. -/
def breadthFirstFrom {α : Type} [DecidableEq α] (next : α → List α) :
    Nat → (queue seen : List α) → List α
  | 0, _, seen => seen
  | _ + 1, [], seen => seen
  | bound + 1, a :: queue, seen =>
    let fresh := addFresh seen (next a)
    breadthFirstFrom next bound (queue ++ fresh) (seen ++ fresh)

/-- Everything that can be reached from `a`, in breadth-first order and starting with `a`. -/
def breadthFirst {α : Type} [DecidableEq α] (next : α → List α) (bound : Nat) (a : α) : List α :=
  breadthFirstFrom next bound [a] [a]

end ObjectFlow
