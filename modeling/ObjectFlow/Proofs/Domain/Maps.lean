/-
  File:      ObjectFlow/Proofs/Domain/Maps.lean
  Subject:   MAPS INTO A LATTICE ARE DETERMINED BY THEIR VALUES, and updating and joining them is
             updating and joining the values.

  * `LawfulJoin`: the laws of a join with a bottom;
  * `get_update`, `get_join`: what each operation does to the value at a key;
  * `Canonical`: keys ascend and no bottom is bound, which all operations keep;
  * `Canonical.ext`: canonical maps with the same values are the same.
-/
import Mathlib.Order.Basic
import ObjectFlow.Domain.FactMap
import ObjectFlow.Proofs.Domain.ConstOrder

namespace ObjectFlow

/-! ## 1. Joins -/

/-- The laws of a join with a bottom. -/
class LawfulJoin (α : Type) [JoinOps α] : Prop where
  join_comm : ∀ a b : α, JoinOps.join a b = JoinOps.join b a
  join_assoc : ∀ a b c : α, JoinOps.join (JoinOps.join a b) c = JoinOps.join a (JoinOps.join b c)
  join_self : ∀ a : α, JoinOps.join a a = a
  bottom_join : ∀ a : α, JoinOps.join JoinOps.bottom a = a

namespace LawfulJoin

variable {α : Type} [JoinOps α] [LawfulJoin α]

theorem join_bottom (a : α) : JoinOps.join a JoinOps.bottom = a := by
  rw [join_comm, bottom_join]

/-- Only bottoms join to bottom. -/
theorem eq_bottom_of_join {a b : α} (h : JoinOps.join a b = JoinOps.bottom) :
    a = JoinOps.bottom := by
  calc
    a = JoinOps.join a (JoinOps.join a b) := by rw [h, join_bottom]
    _ = JoinOps.join a b := by rw [← join_assoc, join_self]
    _ = JoinOps.bottom := h

end LawfulJoin

instance : LawfulJoin ConstValue where
  join_comm := sup_comm (α := ConstValue)
  join_assoc := sup_assoc (α := ConstValue)
  join_self := sup_idem (α := ConstValue)
  bottom_join := bot_sup_eq (α := ConstValue)

namespace FactMap

variable {κ α : Type}

/-! ## 2. Bindings in order -/

section Ordered

variable [Ord κ]

/-- Keys ascend, and none is bound to bottom. -/
structure Canonical [JoinOps α] (m : FactMap κ α) : Prop where
  ascending : m.entries.Pairwise fun e e' => compare e.1 e'.1 = .lt
  proper : ∀ e ∈ m.entries, e.2 ≠ JoinOps.bottom

theorem canonical_empty [JoinOps α] : (empty : FactMap κ α).Canonical :=
  ⟨List.Pairwise.nil, fun _ he => absurd he List.not_mem_nil⟩

theorem mem_bindEntry {k : κ} {v : α} {e : κ × α} {l : List (κ × α)}
    (h : e ∈ bindEntry k v l) : e = (k, v) ∨ e ∈ l := by
  induction l with
  | nil => exact .inl (List.mem_singleton.mp h)
  | cons e' rest ih =>
    unfold bindEntry at h
    cases hcompare : compare k e'.1 with
    | lt =>
      rw [hcompare] at h
      exact List.mem_cons.mp h
    | eq =>
      rw [hcompare] at h
      exact (List.mem_cons.mp h).imp_right (List.mem_cons_of_mem e')
    | gt =>
      rw [hcompare] at h
      rcases List.mem_cons.mp h with rfl | h
      · exact .inr List.mem_cons_self
      · exact (ih h).imp_right (List.mem_cons_of_mem e')

variable [Std.LawfulEqOrd κ]

theorem ne_of_compare_lt {k k' : κ} (h : compare k k' = .lt) : k ≠ k' := by
  rintro rfl
  rw [Std.ReflOrd.compare_self] at h
  cases h

theorem Canonical.nodup [JoinOps α] {m : FactMap κ α} (hm : m.Canonical) : m.entries.Nodup :=
  hm.ascending.imp fun {_ _} hlt heq => ne_of_compare_lt hlt (congrArg Prod.fst heq)

theorem pairwise_bindEntry [Std.TransOrd κ] {k : κ} {v : α} {l : List (κ × α)}
    (h : l.Pairwise fun e e' => compare e.1 e'.1 = .lt) :
    (bindEntry k v l).Pairwise fun e e' => compare e.1 e'.1 = .lt := by
  induction l with
  | nil => exact List.pairwise_singleton _ _
  | cons e rest ih =>
    obtain ⟨hhead, hrest⟩ := List.pairwise_cons.mp h
    unfold bindEntry
    cases hcompare : compare k e.1 with
    | lt =>
      refine List.pairwise_cons.mpr ⟨fun e' he' => ?_, h⟩
      rcases List.mem_cons.mp he' with rfl | he'
      · exact hcompare
      · exact Std.TransCmp.lt_trans hcompare (hhead e' he')
    | eq =>
      have hk : k = e.1 := Std.LawfulEqOrd.eq_of_compare hcompare
      subst hk
      exact List.pairwise_cons.mpr ⟨hhead, hrest⟩
    | gt =>
      refine List.pairwise_cons.mpr ⟨fun e' he' => ?_, ih hrest⟩
      rcases mem_bindEntry he' with rfl | he'
      · exact Std.OrientedCmp.lt_of_gt hcompare
      · exact hhead e' he'

theorem Canonical.bind [Std.TransOrd κ] [JoinOps α] {m : FactMap κ α} (hm : m.Canonical) (k : κ)
    {v : α} (hv : v ≠ JoinOps.bottom) : (m.bind k v).Canonical := by
  refine ⟨pairwise_bindEntry hm.ascending, fun e he => ?_⟩
  rcases mem_bindEntry he with rfl | he
  · exact hv
  · exact hm.proper e he

end Ordered

/-! ## 3. The binding of a key -/

variable [DecidableEq κ]

theorem find?_cons (e : κ × α) (rest : List (κ × α)) (k : κ) :
    (⟨e :: rest⟩ : FactMap κ α).find? k =
      if e.1 = k then some e.2 else (⟨rest⟩ : FactMap κ α).find? k := by
  unfold find?
  by_cases h : e.1 = k <;> simp [h]

theorem mem_of_find? {m : FactMap κ α} {k : κ} {v : α} (h : m.find? k = some v) :
    (k, v) ∈ m.entries := by
  obtain ⟨e, he, rfl⟩ := Option.map_eq_some_iff.mp h
  have hk : e.1 = k := by simpa using List.find?_some he
  subst hk
  exact List.mem_of_find?_eq_some he

theorem find?_eq_none {m : FactMap κ α} {k : κ} (h : ∀ e ∈ m.entries, e.1 ≠ k) :
    m.find? k = none := by
  refine Option.map_eq_none_iff.mpr (List.find?_eq_none.mpr fun e he => ?_)
  simpa using h e he

theorem find?_erase (m : FactMap κ α) (k k' : κ) :
    (m.erase k).find? k' = if k' = k then none else m.find? k' := by
  by_cases h : k' = k
  · rw [if_pos h, h]
    refine find?_eq_none fun e he => ?_
    simpa using (List.mem_filter.mp he).2
  · rw [if_neg h]
    unfold erase find?
    rw [List.find?_filter]
    congr 2
    funext e
    by_cases he : e.1 = k'
    · simp [he, h]
    · simp [he]

theorem find?_bindEntry [Ord κ] [Std.LawfulEqOrd κ] (k k' : κ) (v : α) (l : List (κ × α)) :
    (⟨bindEntry k v l⟩ : FactMap κ α).find? k' =
      if k = k' then some v else (⟨l⟩ : FactMap κ α).find? k' := by
  induction l with
  | nil => exact find?_cons (k, v) [] k'
  | cons e rest ih =>
    unfold bindEntry
    cases hcompare : compare k e.1 with
    | lt => exact find?_cons (k, v) (e :: rest) k'
    | eq =>
      have hk : k = e.1 := Std.LawfulEqOrd.eq_of_compare hcompare
      simp only [find?_cons, ← hk]
      by_cases h : k = k' <;> simp [h]
    | gt =>
      have hk : ¬ e.1 = k := by
        rintro rfl
        rw [Std.ReflOrd.compare_self] at hcompare
        cases hcompare
      simp only [find?_cons, ih]
      by_cases h : k = k'
      · subst h
        simp [hk]
      · simp [h]

/-! ## 4. The value at a key -/

section Values

variable [JoinOps α]

theorem get_cons (e : κ × α) (rest : List (κ × α)) (k : κ) :
    (⟨e :: rest⟩ : FactMap κ α).get k =
      if e.1 = k then e.2 else (⟨rest⟩ : FactMap κ α).get k := by
  unfold get
  rw [find?_cons]
  by_cases h : e.1 = k <;> simp [h]

variable [Ord κ] [Std.LawfulEqOrd κ]

/-- The bindings of a canonical map are its values other than bottom. -/
theorem Canonical.mem_entries {m : FactMap κ α} (hm : m.Canonical) {e : κ × α} :
    e ∈ m.entries ↔ e.2 ≠ JoinOps.bottom ∧ m.get e.1 = e.2 := by
  refine ⟨fun he => ⟨hm.proper e he, ?_⟩, fun ⟨hproper, hget⟩ => ?_⟩
  · obtain ⟨entries⟩ := m
    have hascending := hm.ascending
    clear hm
    simp only at he hascending
    induction entries with
    | nil => exact absurd he List.not_mem_nil
    | cons e' rest ih =>
      obtain ⟨hhead, hrest⟩ := List.pairwise_cons.mp hascending
      rw [get_cons]
      rcases List.mem_cons.mp he with rfl | he
      · rw [if_pos rfl]
      · rw [if_neg (ne_of_compare_lt (hhead e he))]
        exact ih he hrest
  · unfold FactMap.get at hget
    cases hfind : m.find? e.1 with
    | none =>
      rw [hfind] at hget
      exact absurd hget.symm hproper
    | some v =>
      rw [hfind] at hget
      cases hget
      exact mem_of_find? hfind

/-- **Canonical maps with the same values are the same.** -/
theorem Canonical.ext [Std.TransOrd κ] {m n : FactMap κ α} (hm : m.Canonical) (hn : n.Canonical)
    (h : ∀ k, m.get k = n.get k) : m = n := by
  have hperm : m.entries.Perm n.entries := by
    refine (List.perm_ext_iff_of_nodup hm.nodup hn.nodup).mpr fun e => ?_
    rw [hm.mem_entries, hn.mem_entries, h]
  have heq : m.entries = n.entries := by
    refine hperm.eq_of_pairwise (fun e e' _ _ hlt hgt => ?_) hm.ascending hn.ascending
    rw [Std.OrientedCmp.gt_of_lt hgt] at hlt
    cases hlt
  obtain ⟨_⟩ := m
  obtain ⟨_⟩ := n
  rw [FactMap.mk.injEq]
  exact heq

theorem get_bind (m : FactMap κ α) (k k' : κ) (v : α) :
    (m.bind k v).get k' = if k = k' then v else m.get k' := by
  unfold get bind
  rw [find?_bindEntry]
  by_cases h : k = k' <;> simp [h]

/-- **An update changes the value at its key and no other.** -/
theorem get_update [DecidableEq α] (m : FactMap κ α) (k k' : κ) (v : α) :
    (m.update k v).get k' = if k = k' then v else m.get k' := by
  unfold update
  by_cases hv : v = JoinOps.bottom
  · rw [if_pos hv, get, find?_erase]
    by_cases h : k = k'
    · simp [h, hv]
    · rw [if_neg h, if_neg fun e => h e.symm]
      rfl
  · rw [if_neg hv, get_bind]

theorem Canonical.update [Std.TransOrd κ] [DecidableEq α] {m : FactMap κ α} (hm : m.Canonical)
    (k : κ) (v : α) : (m.update k v).Canonical := by
  unfold FactMap.update
  by_cases hv : v = JoinOps.bottom
  · rw [if_pos hv]
    exact ⟨hm.ascending.filter _, fun e he => hm.proper e (List.mem_filter.mp he).1⟩
  · rw [if_neg hv]
    exact hm.bind k hv

variable [LawfulJoin α]

theorem get_joinEntry (m : FactMap κ α) (e : κ × α) (k : κ) :
    (m.joinEntry e).get k = if e.1 = k then JoinOps.join (m.get k) e.2 else m.get k := by
  unfold joinEntry
  by_cases hk : e.1 = k
  · subst hk
    cases hfind : m.find? e.1 with
    | some v =>
      rw [get_bind, if_pos rfl, if_pos rfl, get, hfind]
      rfl
    | none =>
      rw [get_bind, if_pos rfl, if_pos rfl, get, hfind]
      exact (LawfulJoin.bottom_join e.2).symm
  · rw [if_neg hk]
    cases m.find? e.1 <;> simp only [get_bind, if_neg hk]

/-- **Joining maps is joining their values.** -/
theorem get_join (m : FactMap κ α) {n : FactMap κ α} (hn : n.Canonical) (k : κ) :
    (m.join n).get k = JoinOps.join (m.get k) (n.get k) := by
  obtain ⟨entries⟩ := n
  have hascending := hn.ascending
  clear hn
  unfold join
  simp only at hascending ⊢
  induction entries generalizing m with
  | nil => exact (LawfulJoin.join_bottom (m.get k)).symm
  | cons e rest ih =>
    obtain ⟨hhead, hrest⟩ := List.pairwise_cons.mp hascending
    rw [List.foldl_cons, ih _ hrest, get_joinEntry, get_cons]
    by_cases hk : e.1 = k
    · have hnone : (⟨rest⟩ : FactMap κ α).get k = JoinOps.bottom := by
        rw [get, find?_eq_none fun e' he' => ?_]
        · rfl
        · rw [← hk]
          exact (ne_of_compare_lt (hhead e' he')).symm
      rw [if_pos hk, if_pos hk, hnone, LawfulJoin.join_bottom]
    · rw [if_neg hk, if_neg hk]

/-! ## 5. Joining keeps maps canonical -/

namespace Canonical

variable [Std.TransOrd κ] {m n : FactMap κ α}

theorem joinEntry (hm : m.Canonical) {e : κ × α} (he : e.2 ≠ JoinOps.bottom) :
    (m.joinEntry e).Canonical := by
  unfold FactMap.joinEntry
  cases hfind : m.find? e.1 with
  | none => exact hm.bind e.1 he
  | some v =>
    have hv := hm.proper _ (mem_of_find? hfind)
    exact hm.bind e.1 fun hbottom => hv (LawfulJoin.eq_bottom_of_join hbottom)

theorem join (hm : m.Canonical) (hn : n.Canonical) : (m.join n).Canonical := by
  unfold FactMap.join
  refine List.foldlRecOn n.entries _ hm fun m hm e he => ?_
  exact hm.joinEntry (hn.proper e he)

end Canonical

end Values

/-! ## 6. The order -/

/-- Maps are ordered by their values. -/
instance [JoinOps α] [Preorder α] : Preorder (FactMap κ α) := Preorder.lift FactMap.get

end FactMap

end ObjectFlow
