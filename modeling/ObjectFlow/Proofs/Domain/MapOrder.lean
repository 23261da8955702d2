/-
  File:      ObjectFlow/Proofs/Domain/MapOrder.lean
  Subject:   MAPS INTO A LATTICE ARE A LATTICE, as long as updates and joins are all they are built
             from.

  A missing key stands for bottom. So the order of the bindings is the order of the values, equal
  values make equal maps, and a change of the map is a change of some value, but only because no
  bottom is ever bound.

  * `LawfulLattice`: the laws of a partial order in which the join is the least upper bound;
  * `FactMap.Built`: what updates and joins build from the empty map, and `Built.canonical`;
  * `Canonical.below_iff`, `Canonical.compare?_iff`: bindings are compared as values are;
  * `Canonical.updateChanges_iff`, `Canonical.joinChanges_iff`: what is told of a change;
  * `joinAssign_eq`: the join in place, binding after binding, is the join;
  * `maps_lift_lattice`: all of it.
-/
import ObjectFlow.Proofs.Domain.Maps

namespace ObjectFlow

/-! ## 1. Lattices -/

/-- **The laws of a lattice**: `compare?` is a partial order with a least element, and the join of
    two elements is the least one above both. -/
class LawfulLattice (α : Type) [JoinOps α] : Prop extends LawfulJoin α where
  compare?_eq : ∀ {a b : α}, JoinOps.compare? a b = some .eq ↔ a = b
  compare?_swap : ∀ a b : α, JoinOps.compare? b a = (JoinOps.compare? a b).map Ordering.swap
  below_trans : ∀ {a b c : α}, JoinOps.below a b → JoinOps.below b c → JoinOps.below a c
  bottom_below : ∀ a : α, JoinOps.below JoinOps.bottom a
  below_join : ∀ a b : α, JoinOps.below a (JoinOps.join a b)
  join_below : ∀ {a b c : α}, JoinOps.below a c → JoinOps.below b c →
    JoinOps.below (JoinOps.join a b) c

namespace LawfulLattice

variable {α : Type} [JoinOps α] [LawfulLattice α] {a b : α}

theorem below_antisymm (h : JoinOps.below a b) (h' : JoinOps.below b a) : a = b := by
  unfold JoinOps.below at h h'
  rw [compare?_swap a b] at h'
  cases hcompare : JoinOps.compare? a b with
  | none => simp [hcompare] at h
  | some o =>
    cases o with
    | lt => simp [hcompare] at h'
    | eq => exact compare?_eq.mp hcompare
    | gt => simp [hcompare] at h

/-- Nothing but bottom is below it. -/
theorem below_bottom (h : JoinOps.below a JoinOps.bottom) : a = JoinOps.bottom :=
  below_antisymm h (bottom_below a)

theorem below_join_right (a b : α) : JoinOps.below b (JoinOps.join a b) := by
  rw [LawfulJoin.join_comm]
  exact below_join b a

end LawfulLattice

instance : LawfulLattice ConstValue where
  compare?_eq {a b} := by
    show ConstValue.compare? a b = some .eq ↔ a = b
    cases a <;> cases b <;> simp [ConstValue.compare?]
  compare?_swap a b := by
    show ConstValue.compare? b a = (ConstValue.compare? a b).map Ordering.swap
    cases a <;> cases b <;> simp [ConstValue.compare?]
    rename_i x y
    by_cases h : x = y <;> simp [h, eq_comm]
  below_trans := le_trans (α := ConstValue)
  bottom_below := ConstValue.undefined_le
  below_join _ _ := le_sup_left (α := ConstValue)
  join_below := sup_le (α := ConstValue)

namespace FactMap

variable {κ α : Type} [Ord κ] [DecidableEq κ] [JoinOps α]

/-- The order of the lattice of maps is the one of their bindings. -/
theorem joinOps_below [DecidableEq α] (m n : FactMap κ α) : JoinOps.below m n = m.below n := by
  have hcompare : JoinOps.compare? m n = m.compare? n := rfl
  rw [JoinOps.below, hcompare, compare?]
  cases m.below n <;> cases n.below m <;> rfl

variable [Std.LawfulEqOrd κ]

/-! ## 2. Bindings and values -/

theorem Canonical.find?_eq_some_iff {m : FactMap κ α} (hm : m.Canonical) {k : κ} {v : α} :
    m.find? k = some v ↔ v ≠ JoinOps.bottom ∧ m.get k = v := by
  constructor
  · exact fun h => hm.mem_entries.mp (mem_of_find? h)
  · rintro ⟨hv, rfl⟩
    unfold get at hv ⊢
    cases hfind : m.find? k with
    | none =>
      rw [hfind] at hv
      exact absurd rfl hv
    | some w => rfl

theorem Canonical.find?_eq_none_iff {m : FactMap κ α} (hm : m.Canonical) {k : κ} :
    m.find? k = none ↔ m.get k = JoinOps.bottom := by
  constructor
  · intro h
    rw [get, h]
    rfl
  · intro h
    cases hfind : m.find? k with
    | none => rfl
    | some v =>
      obtain ⟨hv, hget⟩ := hm.find?_eq_some_iff.mp hfind
      exact absurd (hget.symm.trans h) hv

/-- What holds of all bindings holds of all values other than bottom. -/
theorem Canonical.forall_entries {m : FactMap κ α} (hm : m.Canonical) {P : κ × α → Prop} :
    (∀ e ∈ m.entries, P e) ↔ ∀ k, m.get k ≠ JoinOps.bottom → P (k, m.get k) := by
  constructor
  · exact fun h k hk => h _ (hm.mem_entries.mpr ⟨hk, rfl⟩)
  · rintro h ⟨k, v⟩ he
    obtain ⟨hv, hget⟩ := hm.mem_entries.mp he
    have hget : m.get k = v := hget
    subst hget
    exact h k hv

/-! ## 3. The order -/

/-- The value at each key of `m` is below the one of `n`. -/
def Pointwise (m n : FactMap κ α) : Prop := ∀ k, JoinOps.below (m.get k) (n.get k)

/-- **Bindings are compared as values are.** -/
theorem Canonical.below_iff [LawfulLattice α] {m n : FactMap κ α} (hm : m.Canonical)
    (hn : n.Canonical) : m.below n = true ↔ m.Pointwise n := by
  unfold below
  rw [List.all_eq_true, hm.forall_entries]
  refine forall_congr' fun k => ?_
  dsimp only
  by_cases hk : m.get k = JoinOps.bottom
  · simp [hk, LawfulLattice.bottom_below]
  · cases hfind : n.find? k with
    | some v =>
      obtain ⟨-, rfl⟩ := hn.find?_eq_some_iff.mp hfind
      simp [hk]
    | none =>
      -- a binding without a counterpart is above bottom
      rw [hn.find?_eq_none_iff.mp hfind]
      simp only [ne_eq, hk, not_false_eq_true, forall_const, Bool.false_eq_true, false_iff]
      exact fun h => hk (LawfulLattice.below_bottom h)

theorem pointwise_join [LawfulLattice α] (m : FactMap κ α) {n : FactMap κ α} (hn : n.Canonical) :
    m.Pointwise (m.join n) ∧ n.Pointwise (m.join n) := by
  refine ⟨fun k => ?_, fun k => ?_⟩
  · rw [get_join m hn]
    exact LawfulLattice.below_join _ _
  · rw [get_join m hn]
    exact LawfulLattice.below_join_right _ _

theorem join_pointwise [LawfulLattice α] {l m n : FactMap κ α} (hn : n.Canonical)
    (hml : m.Pointwise l) (hnl : n.Pointwise l) : (m.join n).Pointwise l := by
  intro k
  rw [get_join m hn]
  exact LawfulLattice.join_below (hml k) (hnl k)

/-- **What a comparison of maps answers** is what the values say both ways. -/
theorem Canonical.compare?_iff [LawfulLattice α] {m n : FactMap κ α} (hm : m.Canonical)
    (hn : n.Canonical) :
    (m.compare? n = some .lt ↔ m.Pointwise n ∧ ¬ n.Pointwise m) ∧
    (m.compare? n = some .eq ↔ m.Pointwise n ∧ n.Pointwise m) ∧
    (m.compare? n = some .gt ↔ ¬ m.Pointwise n ∧ n.Pointwise m) ∧
    (m.compare? n = none ↔ ¬ m.Pointwise n ∧ ¬ n.Pointwise m) := by
  rw [← hm.below_iff hn, ← hn.below_iff hm]
  unfold compare?
  cases m.below n <;> cases n.below m <;> simp

/-! ## 4. Changes -/

section Changes

variable [Std.TransOrd κ] [DecidableEq α] {m n : FactMap κ α}

/-- **An update is said to change the map if and only if it does.** -/
theorem Canonical.updateChanges_iff (hm : m.Canonical) (k : κ) (v : α) :
    m.updateChanges k v = true ↔ m.update k v ≠ m := by
  have hsame : m.update k v = m ↔ m.get k = v := by
    constructor
    · intro h
      have hget := get_update m k k v
      rwa [h, if_pos rfl] at hget
    · rintro rfl
      refine (hm.update k _).ext hm fun k' => ?_
      rw [get_update]
      split
      · rename_i hk
        rw [hk]
      · rfl
  rw [ne_eq, hsame]
  unfold updateChanges
  by_cases hv : v = JoinOps.bottom
  · rw [if_pos hv, Option.isSome_iff_ne_none, ne_eq, hm.find?_eq_none_iff, hv]
  · rw [if_neg hv, decide_eq_true_iff, ne_eq, hm.find?_eq_some_iff]
    simp [hv]

/-- **A join in place is said to change the map if and only if it does.** -/
theorem Canonical.joinChanges_iff [LawfulJoin α] (hm : m.Canonical) (hn : n.Canonical) :
    m.joinChanges n = true ↔ m.join n ≠ m := by
  have hsame : m.join n = m ↔ ∀ k, JoinOps.join (m.get k) (n.get k) = m.get k := by
    constructor
    · intro h k
      rw [← get_join m hn, h]
    · exact fun h => (hm.join hn).ext hm fun k => (get_join m hn k).trans (h k)
  rw [← not_iff_not, Bool.not_eq_true, ne_eq, not_not, hsame]
  unfold joinChanges
  rw [List.any_eq_false, hn.forall_entries]
  refine forall_congr' fun k => ?_
  dsimp only
  by_cases hk : n.get k = JoinOps.bottom
  · simp [hk, LawfulJoin.join_bottom]
  · cases hfind : m.find? k with
    | some v =>
      obtain ⟨-, rfl⟩ := hm.find?_eq_some_iff.mp hfind
      simp [hk]
    | none =>
      rw [hm.find?_eq_none_iff.mp hfind, LawfulJoin.bottom_join]
      simp [hk]

end Changes

/-! ## 5. Joining in place -/

/-- Joining one binding in leaves the other keys as they are. -/
theorem find?_joinEntry (m : FactMap κ α) {e : κ × α} {k : κ} (hk : e.1 ≠ k) :
    (m.joinEntry e).find? k = m.find? k := by
  unfold joinEntry
  cases m.find? e.1 <;> exact (find?_bindEntry e.1 k _ m.entries).trans (if_neg hk)

section InPlace

variable [DecidableEq α]

/-- On bindings of different keys, what each finds in the map it meets is what it would find in
    the first. -/
theorem foldl_joinAssignEntry {l : List (κ × α)}
    (hl : l.Pairwise fun e e' => compare e.1 e'.1 = .lt) (m : FactMap κ α) (b : Bool) :
    l.foldl joinAssignEntry (m, b) = (l.foldl joinEntry m, b || l.any m.raises) := by
  induction l generalizing m b with
  | nil => simp
  | cons e rest ih =>
    obtain ⟨hhead, hrest⟩ := List.pairwise_cons.mp hl
    have hsame : rest.any (m.joinEntry e).raises = rest.any m.raises := by
      refine Bool.eq_iff_iff.mpr ?_
      simp only [List.any_eq_true]
      refine exists_congr fun e' => and_congr_right fun he' => ?_
      rw [raises, raises, m.find?_joinEntry (ne_of_compare_lt (hhead e' he'))]
    rw [List.foldl_cons, joinAssignEntry, ih hrest, hsame, List.foldl_cons, List.any_cons,
      Bool.or_assoc]

/-- **The join in place** leaves the join, and tells of a change as `joinChanges` does. -/
theorem joinAssign_eq (m : FactMap κ α) {n : FactMap κ α} (hn : n.Canonical) :
    m.joinAssign n = (m.join n, m.joinChanges n) :=
  foldl_joinAssignEntry hn.ascending m false

end InPlace

/-! ## 6. Maps that are built -/

variable [DecidableEq α]

/-- **The maps that updates and joins build** from the empty one. -/
inductive Built : FactMap κ α → Prop
  | empty : Built .empty
  | update {m : FactMap κ α} (h : Built m) (k : κ) (v : α) : Built (m.update k v)
  | join {m n : FactMap κ α} (h : Built m) (h' : Built n) : Built (m.join n)
  | joinAssign {m n : FactMap κ α} (h : Built m) (h' : Built n) : Built (m.joinAssign n).1

variable [Std.TransOrd κ]

theorem Built.canonical [LawfulJoin α] {m : FactMap κ α} (h : m.Built) : m.Canonical := by
  induction h with
  | empty => exact canonical_empty
  | update _ k v ih => exact ih.update k v
  | join _ _ ih ih' => exact ih.join ih'
  | joinAssign _ _ ih ih' =>
    rw [joinAssign_eq _ ih']
    exact ih.join ih'

/-! ## 7. The lattice of maps -/

variable [LawfulLattice α] {l m n : FactMap κ α}

/-- **Maps into a lattice are a lattice**, and the laws of the values lift to them: a built map
    binds no bottom, is determined by its values, joins and compares as they do, and is said to
    change if and only if it does. -/
theorem maps_lift_lattice (hl : l.Built) (hm : m.Built) (hn : n.Built) :
    (∀ e ∈ m.entries, e.2 ≠ JoinOps.bottom) ∧
    (m = n ↔ ∀ k, m.get k = n.get k) ∧
    (∀ k, (m.join n).get k = JoinOps.join (m.get k) (n.get k)) ∧
    ((m.compare? n = some .lt ↔ m.Pointwise n ∧ ¬ n.Pointwise m) ∧
      (m.compare? n = some .eq ↔ m.Pointwise n ∧ n.Pointwise m) ∧
      (m.compare? n = some .gt ↔ ¬ m.Pointwise n ∧ n.Pointwise m) ∧
      (m.compare? n = none ↔ ¬ m.Pointwise n ∧ ¬ n.Pointwise m)) ∧
    (m.join m = m ∧ m.join n = n.join m ∧ (l.join m).join n = l.join (m.join n) ∧
      empty.join m = m ∧ m.join empty = m) ∧
    (JoinOps.below m (m.join n) ∧ JoinOps.below n (m.join n) ∧
      (JoinOps.below m l → JoinOps.below n l → JoinOps.below (m.join n) l)) ∧
    (∀ k v, m.updateChanges k v = true ↔ m.update k v ≠ m) ∧
    ((m.joinAssign n).1 = m.join n ∧ ((m.joinAssign n).2 = true ↔ (m.joinAssign n).1 ≠ m)) := by
  have cl := hl.canonical
  have cm := hm.canonical
  have cn := hn.canonical
  have cmn := cm.join cn
  -- equal values make equal maps, so each law of the join is the one of the values
  have hidem : m.join m = m := (cm.join cm).ext cm fun k => by
    rw [get_join m cm, LawfulJoin.join_self]
  have hcomm : m.join n = n.join m := cmn.ext (cn.join cm) fun k => by
    rw [get_join m cn, get_join n cm, LawfulJoin.join_comm]
  have hassoc : (l.join m).join n = l.join (m.join n) :=
    ((cl.join cm).join cn).ext (cl.join cmn) fun k => by
      rw [get_join _ cn, get_join l cm, get_join l cmn, get_join m cn, LawfulJoin.join_assoc]
  have hunit : empty.join m = m := (canonical_empty.join cm).ext cm fun k => by
    rw [get_join _ cm]
    exact LawfulJoin.bottom_join _
  have hleast : JoinOps.below m l → JoinOps.below n l → JoinOps.below (m.join n) l := by
    simp only [joinOps_below, cm.below_iff cl, cn.below_iff cl, cmn.below_iff cl]
    exact join_pointwise cn
  have hinPlace : (m.joinAssign n).1 = m.join n ∧
      ((m.joinAssign n).2 = true ↔ (m.joinAssign n).1 ≠ m) := by
    rw [joinAssign_eq m cn]
    exact ⟨rfl, cm.joinChanges_iff cn⟩
  obtain ⟨hleft, hright⟩ := pointwise_join m cn
  refine ⟨cm.proper, ⟨fun h _ => h ▸ rfl, cm.ext cn⟩, get_join m cn, cm.compare?_iff cn,
    ⟨hidem, hcomm, hassoc, hunit, rfl⟩, ⟨?_, ?_, hleast⟩, cm.updateChanges_iff, hinPlace⟩
  · rw [joinOps_below]
    exact (cm.below_iff cmn).mpr hleft
  · rw [joinOps_below]
    exact (cn.below_iff cmn).mpr hright

/-- Two maps of constants that share one key and differ everywhere else. -/
theorem maps_lift_lattice_constants :
    let m : FactMap Nat ConstValue := (empty.update 1 (.const 5)).update 2 .nac
    let n : FactMap Nat ConstValue := (empty.update 1 (.const 6)).update 3 (.const 0)
    (empty : FactMap Nat ConstValue).Built ∧ m.Built ∧ n.Built ∧ (m.join n).get 1 = .nac ∧
      m.compare? n = none ∧ (m.joinAssign n).2 = true ∧ (m.joinAssign n).1 ≠ m := by
  intro m n
  have hempty : (empty : FactMap Nat ConstValue).Built := .empty
  have hm : m.Built := (hempty.update 1 (.const 5)).update 2 .nac
  have hn : n.Built := (hempty.update 1 (.const 6)).update 3 (.const 0)
  obtain ⟨-, -, hjoin, ⟨-, -, -, hnone⟩, -, -, -, -, hchanges⟩ :=
    maps_lift_lattice hempty hm hn
  have hapart : ¬ m.Pointwise n ∧ ¬ n.Pointwise m :=
    ⟨fun h => absurd (h 2) (by decide), fun h => absurd (h 3) (by decide)⟩
  exact ⟨hempty, hm, hn, hjoin 1, hnone.mpr hapart, by decide, hchanges.mp (by decide)⟩

end FactMap

end ObjectFlow
