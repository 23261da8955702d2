/-
  File:      ObjectFlow/Proofs/Numbering.lean
  Subject:   NUMBERS KEEP THEIR MEANING: what interning a value does to a numbering, and what the
             operations of the pointer graph do to pointers, sets and edges.

  * `Interner.Keeps t t'`: every number of `t` means the same in `t'`;
  * `Interner.Distinct t`: no value has two numbers;
  * `Interner.intern_spec`: interning finds a number for its value and loses nothing;
  * `PointerGraph.WF` and one membership lemma for each operation of the pointer graph;
  * the same for call graphs, and for the queue that pending work leaves from either end.
-/
import ObjectFlow.Calls.Graph
import ObjectFlow.PointsTo.Heap
import ObjectFlow.PointsTo.PointerGraph
import ObjectFlow.PointsTo.WorkQueue

namespace ObjectFlow

/-! ## 1. Numberings -/

namespace Interner

variable {α : Type}

/-- Every number of `t` means the same in `t'`. -/
def Keeps (t t' : Interner α) : Prop := ∀ i a, t.get? i = some a → t'.get? i = some a

/-- No value has two numbers. -/
def Distinct (t : Interner α) : Prop := ∀ i j a, t.get? i = some a → t.get? j = some a → i = j

theorem keeps_refl (t : Interner α) : t.Keeps t := fun _ _ h => h

theorem Keeps.trans {t t' t'' : Interner α} (h : t.Keeps t') (h' : t'.Keeps t'') : t.Keeps t'' :=
  fun i a hi => h' i a (h i a hi)

theorem distinct_empty : Distinct ({} : Interner α) := by
  intro i j a hi
  simp [get?] at hi

theorem lt_size_of_get? {t : Interner α} {i : Nat} {a : α} (h : t.get? i = some a) :
    i < t.size := by
  unfold get? at h
  exact (Array.getElem?_eq_some_iff.mp h).1

theorem exists_get? {t : Interner α} {i : Nat} (h : i < t.size) : ∃ a, t.get? i = some a :=
  ⟨_, Array.getElem?_eq_getElem h⟩

/-- What a numbering means after one more value. -/
theorem get?_push (t : Interner α) (a : α) (i : Nat) :
    (⟨t.items.push a⟩ : Interner α).get? i = if i = t.size then some a else t.get? i := by
  unfold get? size
  rw [Array.getElem?_push]

variable [DecidableEq α]

theorem get?_of_find? {t : Interner α} {a : α} {i : Nat} (h : t.find? a = some i) :
    t.get? i = some a := by
  unfold find? at h
  obtain ⟨hi, ha, _⟩ := Array.findIdx?_eq_some_iff_getElem.mp h
  unfold get?
  rw [Array.getElem?_eq_getElem hi]
  simpa using ha

theorem ne_of_find?_none {t : Interner α} {a : α} (h : t.find? a = none) (i : Nat) :
    t.get? i ≠ some a := by
  intro hi
  unfold find? at h
  have hmem : a ∈ t.items := Array.mem_of_getElem? hi
  have := Array.findIdx?_eq_none_iff.mp h a hmem
  simp at this

/-- In a numbering without repetition the number of a value is the one that is found. -/
theorem find?_of_get? {t : Interner α} (hd : t.Distinct) {a : α} {i : Nat}
    (h : t.get? i = some a) : t.find? a = some i := by
  cases hf : t.find? a with
  | none => exact absurd h (ne_of_find?_none hf i)
  | some j => rw [hd j i a (get?_of_find? hf) h]

/-- **Interning finds a number for its value and changes the meaning of none.** -/
theorem intern_spec (t : Interner α) (a : α) :
    (t.intern a).2.get? (t.intern a).1 = some a ∧ t.Keeps (t.intern a).2 ∧
      (t.Distinct → (t.intern a).2.Distinct) := by
  unfold intern
  cases hf : t.find? a with
  | some i => exact ⟨get?_of_find? hf, keeps_refl t, id⟩
  | none =>
    refine ⟨by simp [get?_push], fun i b hi => ?_, fun hd i j b hi hj => ?_⟩
    · have hlt := lt_size_of_get? hi
      rw [get?_push, if_neg (by omega)]
      exact hi
    · rw [get?_push] at hi hj
      -- the new value has the new number only, because it had none before
      split at hi <;> split at hj
      · omega
      · cases hi
        exact absurd hj (ne_of_find?_none hf j)
      · cases hj
        exact absurd hi (ne_of_find?_none hf i)
      · exact hd i j b hi hj

/-- Interning adds no value but its own. -/
theorem get?_intern {t : Interner α} {a b : α} {i : Nat} (h : (t.intern a).2.get? i = some b) :
    t.get? i = some b ∨ b = a := by
  unfold intern at h
  cases hf : t.find? a with
  | some j =>
    rw [hf] at h
    exact .inl h
  | none =>
    rw [hf] at h
    simp only [get?_push] at h
    split at h
    · exact .inr (Option.some.inj h).symm
    · exact .inl h

end Interner

/-- An object in use is found by its number. -/
theorem Heap.objectAt_of_get? {h : Heap} {i : Nat} {o : HeapObject}
    (hi : h.objects.get? i = some o) : h.objectAt i = o := by
  unfold Heap.objectAt
  rw [hi]
  rfl

/-! ## 2. The pointer graph -/

namespace PointerGraph

variable {π : Type}

/-- A graph whose tables fit its pointers, each pointer numbered once. -/
structure WF (g : PointerGraph π) : Prop where
  distinct : g.pointers.Distinct
  sets : g.sets.size = g.size
  targets : g.targets.size = g.size

theorem wf_empty : WF ({} : PointerGraph π) := ⟨Interner.distinct_empty, rfl, rfl⟩

theorem lt_size_of_pointer? {g : PointerGraph π} {id : PointerId} {a : π}
    (h : g.pointer? id = some a) : id < g.size := Interner.lt_size_of_get? h

theorem mem_successors_addEdge {g : PointerGraph π} (hg : g.WF) {source : PointerId}
    (hs : source < g.size) (target id t : PointerId) :
    t ∈ (g.addEdge source target).successors id ↔
      t ∈ g.successors id ∨ (id = source ∧ t = target) := by
  unfold addEdge
  split
  · rename_i h
    have hmem : target ∈ g.successors source := by simpa [hasEdge] using h
    refine ⟨Or.inl, ?_⟩
    intro hcase
    rcases hcase with h | ⟨rfl, rfl⟩
    · exact h
    · exact hmem
  · rw [← hg.targets] at hs
    simp only [successors, Array.getD_eq_getD_getElem?, Array.getElem?_modify]
    by_cases hid : source = id
    · subst hid
      rw [if_pos rfl, Array.getElem?_eq_getElem hs]
      simp
    · rw [if_neg hid]
      have hne : ¬ id = source := fun e => hid e.symm
      simp [hne]

@[simp] theorem pointsTo_addEdge (g : PointerGraph π) (source target id : PointerId) :
    (g.addEdge source target).pointsTo id = g.pointsTo id := by
  unfold addEdge
  split <;> rfl

@[simp] theorem pointers_addEdge (g : PointerGraph π) (source target : PointerId) :
    (g.addEdge source target).pointers = g.pointers := by
  unfold addEdge
  split <;> rfl

theorem WF.addEdge {g : PointerGraph π} (hg : g.WF) (source target : PointerId) :
    (g.addEdge source target).WF := by
  unfold PointerGraph.addEdge
  split
  · exact hg
  · exact ⟨hg.distinct, hg.sets, Array.size_modify.trans hg.targets⟩

theorem mem_pointsTo_addObjects {g : PointerGraph π} (hg : g.WF) (id : PointerId)
    (objects : IdSet) (id' : PointerId) (i : Nat) :
    i ∈ (g.addObjects id objects).pointsTo id' ↔
      i ∈ g.pointsTo id' ∨ (id < g.size ∧ id' = id ∧ i ∈ objects) := by
  rw [← hg.sets]
  simp only [pointsTo, addObjects, Array.getD_eq_getD_getElem?, Array.getElem?_modify]
  by_cases h : id = id'
  · subst h
    by_cases hid : id < g.sets.size
    · rw [if_pos rfl, Array.getElem?_eq_getElem hid]
      simp [hid]
    · rw [if_pos rfl, Array.getElem?_eq_none (Nat.le_of_not_lt hid)]
      simp [hid]
  · rw [if_neg h]
    have hne : ¬ id' = id := fun e => h e.symm
    simp [hne]

theorem WF.addObjects {g : PointerGraph π} (hg : g.WF) (id : PointerId) (objects : IdSet) :
    (g.addObjects id objects).WF :=
  ⟨hg.distinct, Array.size_modify.trans hg.sets, hg.targets⟩

variable [DecidableEq π]

/-- Looking a key up in two lists side by side. -/
theorem lookup_zip_eq_some {α β : Type} [DecidableEq α] {keys : List α} {values : List β} {a : α}
    (hd : ∀ i j : Nat, keys[i]? = some a → keys[j]? = some a → i = j) {b : β} :
    (keys.zip values).lookup a = some b ↔ ∃ i : Nat, keys[i]? = some a ∧ values[i]? = some b := by
  induction keys generalizing values with
  | nil => simp
  | cons k keys ih =>
    cases values with
    | nil => simp
    | cons v values =>
      have hd' : ∀ i j : Nat, keys[i]? = some a → keys[j]? = some a → i = j := fun i j hi hj =>
        Nat.succ.inj (hd (i + 1) (j + 1) hi hj)
      rw [List.zip_cons_cons, List.lookup_cons]
      by_cases hk : a = k
      · subst hk
        simp only [beq_self_eq_true]
        refine ⟨fun h => ⟨0, rfl, h⟩, ?_⟩
        intro ⟨i, hi, hv⟩
        rw [hd i 0 hi rfl] at hv
        exact hv
      · rw [show (a == k) = false from beq_eq_false_iff_ne.mpr hk]
        simp only
        rw [ih hd']
        constructor
        · intro ⟨i, hi, hv⟩
          exact ⟨i + 1, hi, hv⟩
        · intro ⟨i, hi, hv⟩
          cases i with
          | zero => exact absurd (Option.some.inj hi).symm hk
          | succ i => exact ⟨i, hi, hv⟩

omit [DecidableEq π] in
/-- What stands in the table of all pointers. -/
theorem mem_entries {g : PointerGraph π} {a : π} {objects : IdSet} (h : (a, objects) ∈ g.entries) :
    ∃ id, g.pointer? id = some a ∧ g.pointsTo id = objects := by
  obtain ⟨id, hid⟩ := List.mem_iff_getElem?.mp h
  obtain ⟨hpointer, hset⟩ := List.getElem?_zip_eq_some.mp hid
  rw [Array.getElem?_toList] at hpointer hset
  refine ⟨id, hpointer, ?_⟩
  unfold pointsTo
  rw [Array.getD_eq_getD_getElem?, hset]
  rfl

/-- What the table of all pointers says of one of them. -/
theorem mem_lookup_entries {g : PointerGraph π} (hg : g.WF) {a : π} {i : Nat} :
    i ∈ (g.entries.lookup a).getD .empty ↔
      ∃ id, g.pointer? id = some a ∧ i ∈ g.pointsTo id := by
  have hd : ∀ i j : Nat, g.pointers.items.toList[i]? = some a → g.pointers.items.toList[j]? = some a →
      i = j := by
    intro i j hi hj
    rw [Array.getElem?_toList] at hi hj
    exact hg.distinct i j a hi hj
  constructor
  · intro h
    cases hl : g.entries.lookup a with
    | none =>
      rw [hl] at h
      exact absurd h IdSet.not_mem_empty
    | some objects =>
      rw [hl] at h
      obtain ⟨id, hid, hset⟩ := (lookup_zip_eq_some hd).mp hl
      rw [Array.getElem?_toList] at hid hset
      refine ⟨id, hid, ?_⟩
      unfold pointsTo
      rw [Array.getD_eq_getD_getElem?, hset]
      exact h
  · intro ⟨id, hid, h⟩
    have hlt : id < g.sets.size := hg.sets ▸ lt_size_of_pointer? hid
    unfold pointsTo at h
    rw [Array.getD_eq_getD_getElem?, Array.getElem?_eq_getElem hlt] at h
    have hl : g.entries.lookup a = some g.sets[id] :=
      (lookup_zip_eq_some hd).mpr ⟨id, by rw [Array.getElem?_toList]; exact hid,
        by rw [Array.getElem?_toList]; exact Array.getElem?_eq_getElem hlt⟩
    rw [hl]
    exact h

/-- **Interning a pointer gives it a number and changes no set and no edge.** -/
theorem intern_spec (g : PointerGraph π) (a : π) :
    (g.intern a).2.pointer? (g.intern a).1 = some a ∧
      g.pointers.Keeps (g.intern a).2.pointers ∧
      (∀ id, (g.intern a).2.pointsTo id = g.pointsTo id) ∧
      (∀ id, (g.intern a).2.successors id = g.successors id) ∧
      (g.WF → (g.intern a).2.WF) := by
  obtain ⟨hget, hkeeps, hdist⟩ := Interner.intern_spec g.pointers a
  unfold PointerGraph.intern PointerGraph.find?
  cases hf : g.pointers.find? a with
  | some found =>
    exact ⟨Interner.get?_of_find? hf, Interner.keeps_refl _, fun _ => rfl, fun _ => rfl, id⟩
  | none =>
    unfold Interner.intern at hget hkeeps hdist ⊢
    rw [hf] at hget hkeeps hdist ⊢
    refine ⟨hget, hkeeps, fun id => ?_, fun id => ?_, fun hg => ⟨hdist hg.distinct, ?_, ?_⟩⟩
    · simp only [pointsTo, Array.getD_eq_getD_getElem?, Array.getElem?_push]
      split
      · rename_i h
        simp [h]
      · rfl
    · simp only [successors, Array.getD_eq_getD_getElem?, Array.getElem?_push]
      split
      · rename_i h
        simp [h]
      · rfl
    · simpa [size, Interner.size] using hg.sets
    · simpa [size, Interner.size] using hg.targets

end PointerGraph

/-! ## 3. Call graphs -/

/-- What holds after a loop if each step may make it hold. -/
theorem holds_foldl_iff {α γ : Type} {f : γ → α → γ} {P : γ → Prop} {Q : α → Prop}
    (h : ∀ g a, P (f g a) ↔ P g ∨ Q a) (l : List α) (g : γ) :
    P (l.foldl f g) ↔ P g ∨ ∃ a ∈ l, Q a := by
  induction l generalizing g with
  | nil => simp
  | cons a l ih =>
    rw [List.foldl_cons, ih, h]
    simp [or_assoc]

namespace CallGraph

variable {σ μ : Type} [DecidableEq σ] [DecidableEq μ]

omit [DecidableEq σ] in
theorem hasMethod_iff {g : CallGraph σ μ} {m : μ} : g.hasMethod m = true ↔ m ∈ g.reachable := by
  simp only [hasMethod, Array.any_eq_true', decide_eq_true_eq, exists_eq_right]

theorem hasEdge_iff {g : CallGraph σ μ} {site : σ} {callee : μ} :
    g.hasEdge site callee = true ↔ ∃ e ∈ g.edges, e.site = site ∧ e.callee = callee := by
  simp only [hasEdge, Array.any_eq_true', decide_eq_true_eq]

omit [DecidableEq σ] in
theorem hasMethod_addReachable {g : CallGraph σ μ} {m m' : μ} :
    (g.addReachable m).hasMethod m' = true ↔ g.hasMethod m' = true ∨ m' = m := by
  unfold addReachable
  split
  · rename_i h
    refine ⟨.inl, ?_⟩
    intro hcase
    rcases hcase with h' | rfl
    · exact h'
    · exact h
  · simp [hasMethod_iff]

omit [DecidableEq σ] in
@[simp] theorem edges_addReachable (g : CallGraph σ μ) (m : μ) :
    (g.addReachable m).edges = g.edges := by
  unfold addReachable
  split <;> rfl

omit [DecidableEq σ] in
theorem hasMethod_addEntry {g : CallGraph σ μ} {m m' : μ} :
    (g.addEntry m).hasMethod m' = true ↔ g.hasMethod m' = true ∨ m' = m :=
  hasMethod_addReachable

omit [DecidableEq σ] in
@[simp] theorem edges_addEntry (g : CallGraph σ μ) (m : μ) : (g.addEntry m).edges = g.edges :=
  edges_addReachable _ m

theorem mem_edges_addEdge {g : CallGraph σ μ} {e e' : CallEdge σ μ}
    (h : g.hasEdge e.site e.callee = false) :
    e' ∈ (g.addEdge e).edges ↔ e' ∈ g.edges ∨ e' = e := by
  unfold addEdge
  rw [h]
  simp

omit [DecidableEq σ] in
@[simp] theorem entries_addReachable (g : CallGraph σ μ) (m : μ) :
    (g.addReachable m).entries = g.entries := by
  unfold addReachable
  split <;> rfl

omit [DecidableEq σ] in
theorem mem_entries_addEntry {g : CallGraph σ μ} {m m' : μ} :
    m' ∈ (g.addEntry m).entries ↔ m' ∈ g.entries ∨ m' = m := by
  unfold addEntry
  rw [entries_addReachable]
  exact Array.mem_push

@[simp] theorem entries_addEdge (g : CallGraph σ μ) (e : CallEdge σ μ) :
    (g.addEdge e).entries = g.entries := by
  unfold addEdge
  split <;> rfl

@[simp] theorem hasMethod_addEdge (g : CallGraph σ μ) (e : CallEdge σ μ) (m : μ) :
    (g.addEdge e).hasMethod m = g.hasMethod m := by
  unfold addEdge
  split <;> rfl

theorem hasEdge_addEdge {g : CallGraph σ μ} {e : CallEdge σ μ} {site : σ} {callee : μ} :
    (g.addEdge e).hasEdge site callee = true ↔
      g.hasEdge site callee = true ∨ (e.site = site ∧ e.callee = callee) := by
  cases h : g.hasEdge e.site e.callee with
  | true =>
    have hsame : g.addEdge e = g := if_pos h
    rw [hsame]
    refine ⟨.inl, ?_⟩
    intro hcase
    rcases hcase with h' | ⟨rfl, rfl⟩
    · exact h'
    · exact h
  | false =>
    simp only [hasEdge_iff, mem_edges_addEdge h]
    constructor
    · intro hcase
      obtain ⟨e', he' | rfl, hs⟩ := hcase
      · exact .inl ⟨e', he', hs⟩
      · exact .inr hs
    · intro hcase
      rcases hcase with ⟨e', he', hs⟩ | hs
      · exact ⟨e', .inl he', hs⟩
      · exact ⟨e, .inr rfl, hs⟩

/-- What holds after a loop over an array if each step may make it hold. -/
theorem foldl_iff {α γ : Type} {f : γ → α → γ} {P : γ → Prop} {Q : α → Prop}
    (h : ∀ g a, P (f g a) ↔ P g ∨ Q a) (items : Array α) (g : γ) :
    P (items.foldl f g) ↔ P g ∨ ∃ a ∈ items, Q a := by
  obtain ⟨l⟩ := items
  rw [List.foldl_toArray, holds_foldl_iff h]
  simp only [List.mem_toArray]

section Rename

variable {σ' μ' : Type} [DecidableEq σ'] [DecidableEq μ'] {site : σ → σ'} {method : μ → μ'}

omit [DecidableEq σ] [DecidableEq μ] in
theorem hasMethod_rename {g : CallGraph σ μ} {m' : μ'} :
    (g.rename site method).hasMethod m' = true ↔
      (∃ m ∈ g.entries, m' = method m) ∨ ∃ m ∈ g.reachable, m' = method m := by
  unfold rename
  simp only
  rw [foldl_iff (P := fun h : CallGraph σ' μ' => h.hasMethod m' = true) (Q := fun _ => False)
      (fun h e => by rw [hasMethod_addEdge]; exact (or_false _).symm ▸ Iff.rfl),
    foldl_iff (P := fun h : CallGraph σ' μ' => h.hasMethod m' = true) (Q := fun m => m' = method m)
      (fun h m => hasMethod_addReachable),
    foldl_iff (P := fun h : CallGraph σ' μ' => h.hasMethod m' = true) (Q := fun m => m' = method m)
      (fun h m => hasMethod_addEntry)]
  simp [hasMethod]

omit [DecidableEq σ] [DecidableEq μ] in
theorem hasEdge_rename {g : CallGraph σ μ} {a : σ'} {b : μ'} :
    (g.rename site method).hasEdge a b = true ↔
      ∃ e ∈ g.edges, site e.site = a ∧ method e.callee = b := by
  unfold rename
  simp only
  rw [foldl_iff (P := fun h : CallGraph σ' μ' => h.hasEdge a b = true)
      (Q := fun e => site e.site = a ∧ method e.callee = b) (fun h e => hasEdge_addEdge),
    foldl_iff (P := fun h : CallGraph σ' μ' => h.hasEdge a b = true) (Q := fun _ => False)
      (fun h m => by simp [hasEdge_iff]),
    foldl_iff (P := fun h : CallGraph σ' μ' => h.hasEdge a b = true) (Q := fun _ => False)
      (fun h m => by simp [hasEdge_iff])]
  simp [hasEdge]

end Rename

end CallGraph

/-! ## 4. The queue -/

/-- From either end, one item leaves the queue and all others stay. -/
theorem WorkQueue.mem_of_pop? {α : Type} {q rest : WorkQueue α} {a : α}
    (h : q.pop? = some (a, rest)) (w : α) : w ∈ q.toList ↔ w = a ∨ w ∈ rest.toList := by
  cases ho : q.order with
  | fifo =>
    rw [(toList_of_pop?_fifo ho h).1, List.mem_cons]
  | lifo =>
    rw [(toList_of_pop?_lifo ho h).1, List.mem_append, List.mem_singleton]
    exact Or.comm

theorem WorkQueue.length_of_pop? {α : Type} {q rest : WorkQueue α} {a : α}
    (h : q.pop? = some (a, rest)) : q.toList.length = rest.toList.length + 1 := by
  cases ho : q.order with
  | fifo => rw [(toList_of_pop?_fifo ho h).1, List.length_cons]
  | lifo => rw [(toList_of_pop?_lifo ho h).1, List.length_append, List.length_singleton]

/-- A set that is not empty has a member. -/
theorem IdSet.mem_image {s : IdSet} {f : Nat → Nat} {i : Nat} :
    i ∈ s.image f ↔ ∃ j ∈ s, f j = i := by
  unfold image
  rw [mem_ofList, List.mem_map]
  exact Iff.rfl

theorem IdSet.exists_mem_of_not_isEmpty {s : IdSet} (h : ¬ s.isEmpty = true) : ∃ i, i ∈ s := by
  obtain ⟨l, hl⟩ := s
  cases l with
  | nil => exact absurd rfl h
  | cons i l => exact ⟨i, List.mem_cons_self⟩

end ObjectFlow
