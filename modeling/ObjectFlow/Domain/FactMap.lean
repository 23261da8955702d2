/-
  File:      ObjectFlow/Domain/FactMap.lean
  Subject:   MAPS INTO A LATTICE, ordered and joined pointwise.

  A key without a binding stands for bottom, so a bottom is never bound: updating a key to
  bottom removes it. The bindings are kept in ascending key order, which makes equal maps equal
  values.
-/
import ObjectFlow.Domain.Lattice

namespace ObjectFlow

/-- Bindings in ascending key order, none of them to bottom. -/
structure FactMap (κ α : Type) where
  entries : List (κ × α) := []
  deriving DecidableEq, Inhabited

namespace FactMap

variable {κ α : Type}

/-! ## 1. Bindings of one key -/

/-- The map that binds nothing: bottom at every key. -/
def empty : FactMap κ α := {}

def size (m : FactMap κ α) : Nat := m.entries.length

def isEmpty (m : FactMap κ α) : Bool := m.entries.isEmpty

/-- The bound keys in ascending order. -/
def keys (m : FactMap κ α) : List κ := m.entries.map (·.1)

/-- The value bound to a key. -/
def find? [DecidableEq κ] (m : FactMap κ α) (k : κ) : Option α :=
  (m.entries.find? (·.1 = k)).map (·.2)

/-- The value at a key: its binding, or bottom. -/
def get [DecidableEq κ] [JoinOps α] (m : FactMap κ α) (k : κ) : α :=
  (m.find? k).getD JoinOps.bottom

/-- The bindings as text, in braces. -/
def render (m : FactMap κ α) (key : κ → String) (value : α → String) : String :=
  "\x7b" ++ ", ".intercalate (m.entries.map fun (k, v) => key k ++ "=" ++ value v) ++ "\x7d"

/-- Binds a key at its place in the order, replacing an earlier binding. -/
def bindEntry [Ord κ] (k : κ) (v : α) : List (κ × α) → List (κ × α)
  | [] => [(k, v)]
  | (k', v') :: rest =>
    match compare k k' with
    | .lt => (k, v) :: (k', v') :: rest
    | .eq => (k, v) :: rest
    | .gt => (k', v') :: bindEntry k v rest

/-- Binds a key to a value other than bottom. -/
def bind [Ord κ] (m : FactMap κ α) (k : κ) (v : α) : FactMap κ α := ⟨bindEntry k v m.entries⟩

def erase [DecidableEq κ] (m : FactMap κ α) (k : κ) : FactMap κ α :=
  ⟨m.entries.filter (·.1 ≠ k)⟩

variable [Ord κ] [DecidableEq κ] [DecidableEq α] [JoinOps α]

/-- Sets the value at a key; setting it to bottom removes the binding. -/
def update (m : FactMap κ α) (k : κ) (v : α) : FactMap κ α :=
  if v = JoinOps.bottom then m.erase k else m.bind k v

/-- Whether setting the value at a key makes a different map. -/
def updateChanges (m : FactMap κ α) (k : κ) (v : α) : Bool :=
  if v = JoinOps.bottom then (m.find? k).isSome else decide (m.find? k ≠ some v)

/-! ## 2. The pointwise lattice -/

/-- Joins one binding into a map. -/
def joinEntry (m : FactMap κ α) (e : κ × α) : FactMap κ α :=
  match m.find? e.1 with
  | some v => m.bind e.1 (JoinOps.join v e.2)
  | none => m.bind e.1 e.2

/-- The pointwise join. -/
def join (m n : FactMap κ α) : FactMap κ α := n.entries.foldl joinEntry m

/-- Whether joining `n` into `m` makes a different map: some binding of `n` is missing from `m`
    or raises the one there. -/
def joinChanges (m n : FactMap κ α) : Bool :=
  n.entries.any fun e =>
    match m.find? e.1 with
    | some v => decide (JoinOps.join v e.2 ≠ v)
    | none => true

/-- Whether joining one binding into a map makes a different map. -/
def raises (m : FactMap κ α) (e : κ × α) : Bool :=
  match m.find? e.1 with
  | some v => decide (JoinOps.join v e.2 ≠ v)
  | none => true

/-- Joins one binding into a map in place, telling whether that makes a different map. -/
def joinAssignEntry (s : FactMap κ α × Bool) (e : κ × α) : FactMap κ α × Bool :=
  (s.1.joinEntry e, s.2 || s.1.raises e)

/-- The join in place: binding after binding, and whether one of them changed the map it met. -/
def joinAssign (m n : FactMap κ α) : FactMap κ α × Bool :=
  n.entries.foldl joinAssignEntry (m, false)

/-- Whether every binding of `m` is below the one of `n`. -/
def below (m n : FactMap κ α) : Bool :=
  m.entries.all fun e =>
    match n.find? e.1 with
    | some v => JoinOps.below e.2 v
    | none => false

/-- The pointwise order. -/
def compare? (m n : FactMap κ α) : Option Ordering :=
  match m.below n, n.below m with
  | true, true => some .eq
  | true, false => some .lt
  | false, true => some .gt
  | false, false => none

instance : JoinOps (FactMap κ α) where
  bottom := empty
  join := join
  compare? := compare?

end FactMap

end ObjectFlow
