/-
  File:      ObjectFlow/Graph/Worklist.lean
  Subject:   WORKLISTS: the pending nodes of a fixpoint loop, each pending at most once.

  A worklist is the list of its pending nodes in the order they were accepted. The order of
  visits only decides which of them is taken next.
-/
import ObjectFlow.Graph.Order

namespace ObjectFlow

/-- Which pending node is visited next. -/
inductive VisitOrder where
  /-- The one accepted longest ago. -/
  | fifo
  /-- The one accepted last. -/
  | lifo
  /-- The one with the least reverse post-order rank. -/
  | reversePostOrder
  deriving DecidableEq, Inhabited

/-- The pending nodes of a graph. -/
structure Worklist where
  order : VisitOrder
  /-- The rank of every node, when visits go by rank. -/
  ranks : Array Nat := #[]
  /-- The pending nodes in the order they were accepted. -/
  pending : List Nat := []
  deriving Inhabited, DecidableEq

namespace Worklist

/-- The empty worklist of a graph. -/
def new {κ : Type} (g : FlowGraph κ) (order : VisitOrder) (d : Direction) : Worklist :=
  { order := order
    ranks := if order = .reversePostOrder then g.ranks d else #[] }

def rank (w : Worklist) (n : Nat) : Nat := w.ranks.getD n 0

def accepts (w : Worklist) (n : Nat) : Bool := decide (n ∉ w.pending)

/-- Makes a node pending; a node that is pending already stays where it is. -/
def push (w : Worklist) (n : Nat) : Worklist :=
  if w.accepts n then { w with pending := w.pending ++ [n] } else w

def pushAll (w : Worklist) (ns : List Nat) : Worklist := ns.foldl push w

/-- The first of the nodes whose key is least. -/
def leastBy (key : Nat → Nat) : List Nat → Option Nat
  | [] => none
  | n :: rest =>
    match leastBy key rest with
    | none => some n
    | some m => if key m < key n then some m else some n

/-- The node to visit next. -/
def peek? (w : Worklist) : Option Nat :=
  match w.order with
  | .fifo => w.pending.head?
  | .lifo => w.pending.getLast?
  | .reversePostOrder => leastBy w.rank w.pending

/-- Takes the node to visit next out of the worklist. -/
def pop? (w : Worklist) : Option (Nat × Worklist) :=
  w.peek?.map fun n => (n, { w with pending := w.pending.erase n })

def size (w : Worklist) : Nat := w.pending.length

def isEmpty (w : Worklist) : Bool := w.pending.isEmpty

/-- Empties the worklist; `n` bounds the number of nodes taken. -/
def drain : Nat → Worklist → List Nat
  | 0, _ => []
  | n + 1, w =>
    match w.pop? with
    | none => []
    | some (a, rest) => a :: drain n rest

end Worklist

end ObjectFlow
