/-
  File:      ObjectFlow/Proofs/PointsTo/Renaming.lean
  Subject:   RENAMING WHAT IS NUMBERED CHANGES NO NUMBER: tables, graphs and queues whose values
             are renamed one to one answer as before, and grow as before.
-/
import Mathlib.Logic.Function.Basic
import ObjectFlow.Proofs.Numbering

namespace ObjectFlow

/-! ## 1. Numberings and the pointer graph -/

namespace Interner

variable {α β : Type} [DecidableEq α] [DecidableEq β] {f : α → β}

/-- The numbering with its values renamed. -/
def map (f : α → β) (t : Interner α) : Interner β := ⟨t.items.map f⟩

omit [DecidableEq α] [DecidableEq β] in
theorem get?_map (t : Interner α) (i : Nat) : (t.map f).get? i = (t.get? i).map f :=
  Array.getElem?_map

theorem find?_map (hf : f.Injective) (t : Interner α) (a : α) :
    (t.map f).find? (f a) = t.find? a := by
  unfold find? map
  rw [Array.findIdx?_map]
  congr 1
  funext b
  exact decide_eq_decide.mpr hf.eq_iff

theorem intern_map (hf : f.Injective) (t : Interner α) (a : α) :
    (t.map f).intern (f a) = ((t.intern a).1, (t.intern a).2.map f) := by
  unfold intern
  rw [find?_map hf]
  cases t.find? a with
  | some i => rfl
  | none => simp [map, size]

end Interner

namespace PointerGraph

variable {π π' : Type} [DecidableEq π] [DecidableEq π'] {f : π → π'}

/-- The graph with its pointers renamed. -/
def map (f : π → π') (g : PointerGraph π) : PointerGraph π' where
  pointers := g.pointers.map f
  sets := g.sets
  targets := g.targets

theorem intern_map (hf : f.Injective) (g : PointerGraph π) (a : π) :
    (g.map f).intern (f a) = ((g.intern a).1, (g.intern a).2.map f) := by
  have hfind : (g.map f).find? (f a) = g.find? a := Interner.find?_map hf g.pointers a
  unfold intern
  rw [hfind]
  cases g.find? a with
  | some i => rfl
  | none =>
    have hintern := congrArg Prod.snd (Interner.intern_map hf g.pointers a)
    simp only [map, size, Interner.size, Interner.map, Array.size_map] at hintern ⊢
    rw [hintern]

omit [DecidableEq π] [DecidableEq π'] in
theorem addEdge_map (g : PointerGraph π) (source target : PointerId) :
    (g.map f).addEdge source target = (g.addEdge source target).map f := by
  unfold addEdge
  split <;> split <;> first | rfl | contradiction

omit [DecidableEq π] [DecidableEq π'] in
theorem entries_map (g : PointerGraph π) :
    (g.map f).entries = g.entries.map fun e => (f e.1, e.2) := by
  unfold entries map Interner.map
  rw [Array.toList_map, List.zip_map_left]
  rfl

omit [DecidableEq π'] in
/-- A pointer that has a number after interning another had one before, or is that other. -/
theorem pointer?_intern {g : PointerGraph π} {a b : π} {id : PointerId}
    (h : (g.intern a).2.pointer? id = some b) : g.pointer? id = some b ∨ b = a := by
  unfold intern at h
  cases hf : g.find? a with
  | some found =>
    rw [hf] at h
    exact .inl h
  | none =>
    rw [hf] at h
    exact Interner.get?_intern h

end PointerGraph

/-! ## 2. Call graphs -/

namespace CallGraph

variable {σ μ σ' μ' : Type} [DecidableEq σ] [DecidableEq μ] [DecidableEq σ'] [DecidableEq μ']
  {site : σ → σ'} {method : μ → μ'}

/-- The call graph with sites and methods renamed one to one. -/
def map (site : σ → σ') (method : μ → μ') (g : CallGraph σ μ) : CallGraph σ' μ' where
  entries := g.entries.map method
  reachable := g.reachable.map method
  edges := g.edges.map fun e => ⟨e.kind, site e.site, method e.callee⟩

omit [DecidableEq σ] [DecidableEq σ'] in
theorem hasMethod_map (hm : method.Injective) (g : CallGraph σ μ) (m : μ) :
    (g.map site method).hasMethod (method m) = g.hasMethod m := by
  unfold hasMethod map
  rw [Array.any_map]
  congr 1
  funext n
  exact decide_eq_decide.mpr hm.eq_iff

theorem hasEdge_map (hs : site.Injective) (hm : method.Injective) (g : CallGraph σ μ) (a : σ)
    (b : μ) : (g.map site method).hasEdge (site a) (method b) = g.hasEdge a b := by
  unfold hasEdge map
  rw [Array.any_map]
  congr 1
  funext e
  exact decide_eq_decide.mpr (and_congr hs.eq_iff hm.eq_iff)

omit [DecidableEq σ] [DecidableEq σ'] in
theorem addReachable_map (hm : method.Injective) (g : CallGraph σ μ) (m : μ) :
    (g.map site method).addReachable (method m) = (g.addReachable m).map site method := by
  unfold addReachable
  rw [hasMethod_map hm]
  split
  · rfl
  · simp [map]

omit [DecidableEq σ] [DecidableEq σ'] in
theorem addEntry_map (hm : method.Injective) (g : CallGraph σ μ) (m : μ) :
    (g.map site method).addEntry (method m) = (g.addEntry m).map site method := by
  unfold addEntry
  rw [← addReachable_map hm]
  simp [map]

theorem addEdge_map (hs : site.Injective) (hm : method.Injective) (g : CallGraph σ μ)
    (e : CallEdge σ μ) :
    (g.map site method).addEdge ⟨e.kind, site e.site, method e.callee⟩
      = (g.addEdge e).map site method := by
  unfold addEdge
  rw [hasEdge_map hs hm]
  split
  · rfl
  · simp [map]

omit [DecidableEq σ] [DecidableEq μ] [DecidableEq σ'] [DecidableEq μ'] in
/-- Renaming twice is renaming once. -/
theorem rename_map {σ'' μ'' : Type} [DecidableEq σ''] [DecidableEq μ''] (g : CallGraph σ μ)
    (site' : σ' → σ'') (method' : μ' → μ'') :
    (g.map site method).rename site' method'
      = g.rename (fun a => site' (site a)) fun b => method' (method b) := by
  unfold rename map
  simp only [Array.foldl_map]

end CallGraph

/-! ## 3. The queue -/

def WorkItem.map {ε ε' : Type} (f : ε → ε') : WorkItem ε → WorkItem ε'
  | .points pointer objects => .points pointer objects
  | .call e => .call (f e)

namespace WorkQueue

variable {α β : Type} {f : α → β}

def map (f : α → β) (q : WorkQueue α) : WorkQueue β where
  order := q.order
  front := q.front.map f
  back := q.back.map f

theorem pop?_map (q : WorkQueue α) :
    (q.map f).pop? = q.pop?.map fun (a, rest) => (f a, rest.map f) := by
  obtain ⟨order, front, back⟩ := q
  cases order
  · cases front with
    | cons a front => rfl
    | nil =>
      simp only [pop?, map, List.map_nil, ← List.map_reverse]
      cases back.reverse <;> rfl
  · cases back with
    | cons a back => rfl
    | nil =>
      simp only [pop?, map, List.map_nil, ← List.map_reverse]
      cases front.reverse <;> rfl

end WorkQueue

end ObjectFlow
