/-
  File:      ObjectFlow/Domain/Lattice.lean
  Subject:   JOIN SEMILATTICES as the analyses use them: a bottom, a join and a partial order.

  The operations stand apart from their laws. Truth values, the one-point type and the sets of
  ids below a bound are given here; the flat lattice of constants and the pointwise lifting to
  maps have files of their own.
-/
import ObjectFlow.IdSet

namespace ObjectFlow

/-- A bottom element, the join of two elements, and their order where they have one. -/
class JoinOps (α : Type) where
  bottom : α
  join : α → α → α
  /-- How two elements are ordered; `none` when they are not comparable. -/
  compare? : α → α → Option Ordering

/-- A greatest element and the meet of two elements. -/
class MeetOps (α : Type) where
  top : α
  meet : α → α → α

namespace JoinOps

variable {α : Type} [JoinOps α]

/-- Whether the first element is below the second or equal to it. -/
def below (a b : α) : Bool :=
  match compare? a b with
  | some .lt | some .eq => true
  | _ => false

/-- The join, together with whether it differs from its first operand. -/
def joinChanged [DecidableEq α] (a b : α) : Bool × α :=
  (decide (join a b ≠ a), join a b)

end JoinOps

/-! ## 1. Truth values and the one-point lattice -/

/-- `false` is below `true`: the join is "or", the meet is "and". -/
instance : JoinOps Bool where
  bottom := false
  join := (· || ·)
  compare? a b := some (compare a b)

instance : MeetOps Bool where
  top := true
  meet := (· && ·)

instance : JoinOps Unit where
  bottom := ()
  join _ _ := ()
  compare? _ _ := some .eq

instance : MeetOps Unit where
  top := ()
  meet _ _ := ()

/-! ## 2. Sets of ids -/

/-- Sets of ids are ordered by inclusion and joined by union. -/
instance : JoinOps IdSet where
  bottom := IdSet.empty
  join := IdSet.union
  compare? := IdSet.compare?

end ObjectFlow
