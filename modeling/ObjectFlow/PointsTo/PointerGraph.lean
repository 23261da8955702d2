/-
  File:      ObjectFlow/PointsTo/PointerGraph.lean
  Subject:   POINTERS, the objects they point to and the edges objects flow along.

  An edge from `s` to `t` says that all that `s` points to flows into `t`. Pointers are numbered
  on first use.
-/
import ObjectFlow.IdSet
import ObjectFlow.Interner

namespace ObjectFlow

abbrev PointerId := Nat

/-- A graph on pointers of type `π`. -/
structure PointerGraph (π : Type) where
  pointers : Interner π := {}
  /-- The objects each pointer points to. -/
  sets : Array IdSet := #[]
  /-- The targets of the edges out of each pointer, in the order they were added. -/
  targets : Array (List PointerId) := #[]
  deriving Inhabited

namespace PointerGraph

variable {π : Type}

def size (g : PointerGraph π) : Nat := g.pointers.size

/-- The pointer with a number. -/
def pointer? (g : PointerGraph π) (id : PointerId) : Option π := g.pointers.get? id

def pointsTo (g : PointerGraph π) (id : PointerId) : IdSet := g.sets.getD id .empty

def successors (g : PointerGraph π) (id : PointerId) : List PointerId := g.targets.getD id []

def hasEdge (g : PointerGraph π) (source target : PointerId) : Bool :=
  decide (target ∈ g.successors source)

/-- Adds an edge, unless it is there. -/
def addEdge (g : PointerGraph π) (source target : PointerId) : PointerGraph π :=
  if g.hasEdge source target then g
  else { g with targets := g.targets.modify source (· ++ [target]) }

/-- Adds objects to what a pointer points to. -/
def addObjects (g : PointerGraph π) (id : PointerId) (objects : IdSet) : PointerGraph π :=
  { g with sets := g.sets.modify id (·.union objects) }

def edgeCount (g : PointerGraph π) : Nat := g.targets.foldl (fun n ts => n + ts.length) 0

/-- All pointers with what they point to, in the order of their numbers. -/
def entries (g : PointerGraph π) : List (π × IdSet) :=
  g.pointers.items.toList.zip g.sets.toList

variable [DecidableEq π]

/-- The number of a pointer that was used before. -/
def find? (g : PointerGraph π) (a : π) : Option PointerId := g.pointers.find? a

/-- The number of a pointer; a pointer not used before points to nothing yet. -/
def intern (g : PointerGraph π) (a : π) : PointerId × PointerGraph π :=
  match g.find? a with
  | some id => (id, g)
  | none =>
    (g.size,
      { pointers := (g.pointers.intern a).2
        sets := g.sets.push .empty
        targets := g.targets.push [] })

end PointerGraph

end ObjectFlow
