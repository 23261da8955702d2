/-
  File:      ObjectFlow/IdSet.lean
  Subject:   FINITE SETS OF IDS, kept as strictly ascending lists.

  Live variables and points-to sets are sets of dense ids. The ascending order is part of the
  type, so two sets with the same members are the same value, and listing a set lists its
  members in id order.
-/
namespace ObjectFlow

/-! ## 1. Ascending lists -/

/-- Puts an id at its place in an ascending list; an id that is already there stays single. -/
def insertAscending (a : Nat) : List Nat → List Nat
  | [] => [a]
  | b :: rest =>
    if a < b then a :: b :: rest
    else if a = b then b :: rest
    else b :: insertAscending a rest

@[simp] theorem mem_insertAscending {a x : Nat} {l : List Nat} :
    x ∈ insertAscending a l ↔ x = a ∨ x ∈ l := by
  induction l with
  | nil => simp [insertAscending]
  | cons b rest ih =>
    simp only [insertAscending]
    split
    · simp
    · split
      · next h => subst h; simp
      · simp only [List.mem_cons, ih]; grind

theorem pairwise_insertAscending {a : Nat} {l : List Nat} (h : l.Pairwise (· < ·)) :
    (insertAscending a l).Pairwise (· < ·) := by
  induction l with
  | nil => simp [insertAscending]
  | cons b rest ih =>
    rw [List.pairwise_cons] at h
    simp only [insertAscending]
    split
    · next hab =>
      refine List.pairwise_cons.2 ⟨fun x hx => ?_, List.pairwise_cons.2 h⟩
      rcases List.mem_cons.1 hx with rfl | hx
      · exact hab
      · exact Nat.lt_trans hab (h.1 x hx)
    · split
      · exact List.pairwise_cons.2 h
      · next hlt hne =>
        refine List.pairwise_cons.2 ⟨fun x hx => ?_, ih h.2⟩
        rcases mem_insertAscending.1 hx with rfl | hx
        · omega
        · exact h.1 x hx

/-! ## 2. The type and its operations -/

/-- A finite set of ids. -/
structure IdSet where
  /-- The members, from least to greatest. -/
  elems : List Nat
  ascending : elems.Pairwise (· < ·)
  deriving DecidableEq

namespace IdSet

/-- The set without members. -/
def empty : IdSet := ⟨[], List.Pairwise.nil⟩

instance : Inhabited IdSet := ⟨empty⟩

instance : Membership Nat IdSet := ⟨fun s a => a ∈ s.elems⟩

instance (a : Nat) (s : IdSet) : Decidable (a ∈ s) := inferInstanceAs (Decidable (a ∈ s.elems))

/-- All members satisfying a test. -/
def filter (s : IdSet) (p : Nat → Bool) : IdSet :=
  ⟨s.elems.filter p, s.ascending.filter p⟩

def contains (s : IdSet) (a : Nat) : Bool := decide (a ∈ s)

def insert (s : IdSet) (a : Nat) : IdSet :=
  ⟨insertAscending a s.elems, pairwise_insertAscending s.ascending⟩

def erase (s : IdSet) (a : Nat) : IdSet := s.filter (· != a)

/-- The set with exactly one member. -/
def singleton (a : Nat) : IdSet := empty.insert a

/-- The set of the listed ids; order and repetition in the list do not matter. -/
def ofList (l : List Nat) : IdSet := l.foldl insert empty

def union (s t : IdSet) : IdSet := t.elems.foldl insert s

def inter (s t : IdSet) : IdSet := s.filter t.contains

/-- The members of `s` that are not in `t`. -/
def diff (s t : IdSet) : IdSet := s.filter fun a => !t.contains a

def isEmpty (s : IdSet) : Bool := s.elems.isEmpty

def size (s : IdSet) : Nat := s.elems.length

def subset (s t : IdSet) : Bool := s.elems.all t.contains

/-- Whether the two sets share a member. -/
def intersects (s t : IdSet) : Bool := s.elems.any t.contains

/-- The set of images of the members. -/
def image (s : IdSet) (f : Nat → Nat) : IdSet := ofList (s.elems.map f)

/-- The ids below `n`. -/
def below (n : Nat) : IdSet := ⟨List.range n, List.pairwise_lt_range⟩

/-- The inclusion order; `none` when neither set includes the other. -/
def compare? (s t : IdSet) : Option Ordering :=
  match s.subset t, t.subset s with
  | true, true => some .eq
  | true, false => some .lt
  | false, true => some .gt
  | false, false => none

/-- The set as text: the members in order between braces. -/
def render (s : IdSet) : String :=
  "\x7b" ++ ", ".intercalate (s.elems.map toString) ++ "\x7d"

/-! ## 3. Membership, one lemma per operation -/

theorem mem_def {a : Nat} {s : IdSet} : a ∈ s ↔ a ∈ s.elems := Iff.rfl

@[ext] theorem ext {s t : IdSet} (h : ∀ a, a ∈ s ↔ a ∈ t) : s = t := by
  obtain ⟨l, hl⟩ := s
  obtain ⟨m, hm⟩ := t
  have hp : l.Perm m := by
    refine (List.perm_ext_iff_of_nodup ?_ ?_).2 h
    · exact hl.imp Nat.ne_of_lt
    · exact hm.imp Nat.ne_of_lt
  have : l = m := hp.eq_of_pairwise (fun a b _ _ hab hba => by omega) hl hm
  subst this
  rfl

@[simp] theorem not_mem_empty {a : Nat} : ¬ a ∈ empty := List.not_mem_nil

@[simp] theorem mem_filter {a : Nat} {s : IdSet} {p : Nat → Bool} :
    a ∈ s.filter p ↔ a ∈ s ∧ p a = true := List.mem_filter

@[simp] theorem contains_iff {a : Nat} {s : IdSet} : s.contains a = true ↔ a ∈ s := by
  simp [contains]

@[simp] theorem mem_insert {a x : Nat} {s : IdSet} : x ∈ s.insert a ↔ x = a ∨ x ∈ s :=
  mem_insertAscending

@[simp] theorem mem_erase {a x : Nat} {s : IdSet} : x ∈ s.erase a ↔ x ∈ s ∧ x ≠ a := by
  simp [erase]

@[simp] theorem mem_singleton {a x : Nat} : x ∈ singleton a ↔ x = a := by
  simp [singleton]

theorem mem_foldl_insert {x : Nat} {l : List Nat} {s : IdSet} :
    x ∈ l.foldl insert s ↔ x ∈ s ∨ x ∈ l := by
  induction l generalizing s with
  | nil => simp
  | cons b rest ih => simp only [List.foldl_cons, ih, mem_insert, List.mem_cons]; grind

@[simp] theorem mem_ofList {x : Nat} {l : List Nat} : x ∈ ofList l ↔ x ∈ l := by
  simp [ofList, mem_foldl_insert]

@[simp] theorem mem_union {x : Nat} {s t : IdSet} : x ∈ s.union t ↔ x ∈ s ∨ x ∈ t :=
  mem_foldl_insert

@[simp] theorem mem_inter {x : Nat} {s t : IdSet} : x ∈ s.inter t ↔ x ∈ s ∧ x ∈ t := by
  simp [inter]

@[simp] theorem mem_diff {x : Nat} {s t : IdSet} : x ∈ s.diff t ↔ x ∈ s ∧ ¬ x ∈ t := by
  simp [diff, contains]

@[simp] theorem mem_below {x n : Nat} : x ∈ below n ↔ x < n := by
  simp [below, mem_def]

@[simp] theorem subset_iff {s t : IdSet} : s.subset t = true ↔ ∀ a, a ∈ s → a ∈ t := by
  simp [subset, mem_def, contains]

@[simp] theorem isEmpty_iff {s : IdSet} : s.isEmpty = true ↔ s = empty := by
  obtain ⟨l, hl⟩ := s
  cases l <;> simp [isEmpty, empty]

end IdSet

end ObjectFlow
