/-
  File:      ObjectFlow/PointsTo/WorkQueue.lean
  Subject:   THE WORK QUEUE of the pointer analysis, emptied from either end.

  The queue is kept in two parts so that both ends are at hand; `toList` is the queue they stand
  for.
-/
import ObjectFlow.IdSet

namespace ObjectFlow

/-- Which end of the queue is taken next. -/
inductive QueueOrder where
  | fifo
  | lifo
  deriving DecidableEq, Inhabited

def QueueOrder.name : QueueOrder → String
  | .fifo => "fifo"
  | .lifo => "lifo"

/-- The order with a given name. -/
def QueueOrder.ofName? (s : String) : Option QueueOrder := [.fifo, .lifo].find? (·.name = s)

/-- What remains to be done; call edges are of type `ε`. -/
inductive WorkItem (ε : Type) where
  /-- Objects that flow into a pointer. -/
  | points (pointer : Nat) (objects : IdSet)
  /-- A call edge whose ends have still to be connected. -/
  | call (edge : ε)

structure WorkQueue (α : Type) where
  order : QueueOrder
  /-- The older items, the oldest first. -/
  front : List α := []
  /-- The newer items, the newest first. -/
  back : List α := []

namespace WorkQueue

variable {α : Type}

/-- The items from oldest to newest. -/
def toList (q : WorkQueue α) : List α := q.front ++ q.back.reverse

def push (q : WorkQueue α) (a : α) : WorkQueue α := { q with back := a :: q.back }

def isEmpty (q : WorkQueue α) : Bool := q.front.isEmpty && q.back.isEmpty

/-- Takes the next item. -/
def pop? (q : WorkQueue α) : Option (α × WorkQueue α) :=
  match q.order with
  | .fifo =>
    match q.front with
    | a :: front => some (a, { q with front := front })
    | [] =>
      match q.back.reverse with
      | a :: front => some (a, { q with front := front, back := [] })
      | [] => none
  | .lifo =>
    match q.back with
    | a :: back => some (a, { q with back := back })
    | [] =>
      match q.front.reverse with
      | a :: back => some (a, { q with front := [], back := back })
      | [] => none

@[simp] theorem toList_push (q : WorkQueue α) (a : α) : (q.push a).toList = q.toList ++ [a] := by
  simp [toList, push]

theorem pop?_eq_none_iff (q : WorkQueue α) : q.pop? = none ↔ q.toList = [] := by
  obtain ⟨order, front, back⟩ := q
  cases order
  · cases front with
    | nil => simp only [pop?, toList, List.nil_append]; split <;> simp_all
    | cons => simp [pop?, toList]
  · cases back with
    | nil =>
      simp only [pop?, toList, List.reverse_nil, List.append_nil]
      split
      · next h => simp only [reduceCtorEq, false_iff]; intro e; simp [e] at h
      · next h => simpa using h
    | cons => simp [pop?, toList]

/-- **The first item is taken from a queue that is emptied in order of arrival.** -/
theorem toList_of_pop?_fifo {q rest : WorkQueue α} {a : α} (ho : q.order = .fifo)
    (h : q.pop? = some (a, rest)) : q.toList = a :: rest.toList ∧ rest.order = .fifo := by
  obtain ⟨order, front, back⟩ := q
  subst ho
  cases front with
  | nil =>
    simp only [pop?] at h
    split at h
    · next hb =>
      simp only [Option.some.injEq, Prod.mk.injEq] at h
      obtain ⟨rfl, rfl⟩ := h
      simp [toList, hb]
    · simp at h
  | cons =>
    simp only [pop?, Option.some.injEq, Prod.mk.injEq] at h
    obtain ⟨rfl, rfl⟩ := h
    simp [toList]

/-- **The last item is taken from a queue that is emptied backwards.** -/
theorem toList_of_pop?_lifo {q rest : WorkQueue α} {a : α} (ho : q.order = .lifo)
    (h : q.pop? = some (a, rest)) : q.toList = rest.toList ++ [a] ∧ rest.order = .lifo := by
  obtain ⟨order, front, back⟩ := q
  subst ho
  cases back with
  | nil =>
    simp only [pop?] at h
    split at h
    · next hb =>
      simp only [Option.some.injEq, Prod.mk.injEq] at h
      obtain ⟨rfl, rfl⟩ := h
      have hf := congrArg List.reverse hb
      rw [List.reverse_reverse] at hf
      simp [toList, hf]
    · simp at h
  | cons =>
    simp only [pop?, Option.some.injEq, Prod.mk.injEq] at h
    obtain ⟨rfl, rfl⟩ := h
    simp [toList]

end WorkQueue

end ObjectFlow
