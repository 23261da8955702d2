/-
  File:      ObjectFlow/Interner.lean
  Subject:   DENSE NUMBERING: values are numbered from 0 in the order of their first use.

  Heap objects, contexts and pointers are numbered this way, and their numbers are visible in
  every result.
-/
namespace ObjectFlow

/-- The values numbered so far; the number of a value is its position. -/
structure Interner (α : Type) where
  items : Array α := #[]

namespace Interner

variable {α : Type}

instance : Inhabited (Interner α) := ⟨{}⟩

def size (t : Interner α) : Nat := t.items.size

/-- The value with the given number. -/
def get? (t : Interner α) (i : Nat) : Option α := t.items[i]?

variable [DecidableEq α]

/-- The number of a value that was seen before. -/
def find? (t : Interner α) (a : α) : Option Nat := t.items.findIdx? (· = a)

/-- The number of a value; a value not seen before gets the next free number. -/
def intern (t : Interner α) (a : α) : Nat × Interner α :=
  match t.find? a with
  | some i => (i, t)
  | none => (t.size, ⟨t.items.push a⟩)

end Interner

end ObjectFlow
