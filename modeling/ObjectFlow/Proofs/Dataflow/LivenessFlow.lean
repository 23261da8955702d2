/-
  File:      ObjectFlow/Proofs/Dataflow/LivenessFlow.lean
  Subject:   LIVE VARIABLES AS A MONOTONE DATAFLOW PROBLEM over sets ordered by inclusion.

  * `mem_transferStmt`: the variables live before a statement;
  * `eq_of_analyzeWithin`: every order of visits gives the same live variables.
-/
import ObjectFlow.Dataflow.Liveness
import ObjectFlow.Proofs.ControlFlow.MethodGraph
import ObjectFlow.Proofs.Dataflow.LeastSolution

namespace ObjectFlow

/-! ## 1. Sets by inclusion -/

namespace IdSet

instance : SemilatticeSup IdSet where
  le s t := ∀ a, a ∈ s → a ∈ t
  le_refl _ _ h := h
  le_trans _ _ _ hst htu a h := htu a (hst a h)
  le_antisymm _ _ hst hts := IdSet.ext fun a => ⟨hst a, hts a⟩
  sup := union
  le_sup_left _ _ _ h := mem_union.mpr (.inl h)
  le_sup_right _ _ _ h := mem_union.mpr (.inr h)
  sup_le _ _ _ hsu htu a h := (mem_union.mp h).elim (hsu a) (htu a)

instance : OrderBot IdSet where
  bot := empty
  bot_le _ _ h := absurd h not_mem_empty

end IdSet

namespace Liveness

/-! ## 2. Statements -/

/-- **Live before a statement is what it reads, and what is live after it and not assigned.** -/
theorem mem_transferStmt {p : Program} {stmt : Stmt} {live : IdSet} {i : Nat} :
    i ∈ transferStmt p stmt live ↔
      (i ∈ live ∧ ∀ v, stmt.defined? = some v → i ≠ localIndex p v) ∨
        i ∈ stmt.uses.map (localIndex p) := by
  unfold transferStmt
  simp only
  rw [IdSet.mem_foldl_insert]
  cases stmt.defined? with
  | none => simp
  | some lhs => simp

/-- The transfer of a node. -/
def transferAt (p : Program) (flow : MethodFlow) (node : Nat) (live : IdSet) : IdSet :=
  match flow.stmtAt? node with
  | some stmt => transferStmt p stmt live
  | none => live

theorem transferAt_mono (p : Program) (flow : MethodFlow) (node : Nat) :
    Monotone (transferAt p flow node) := by
  intro a b hab i hi
  unfold transferAt at hi ⊢
  cases hstmt : flow.stmtAt? node with
  | none =>
    rw [hstmt] at hi
    exact hab i hi
  | some stmt =>
    rw [hstmt] at hi
    refine mem_transferStmt.mpr ((mem_transferStmt.mp hi).imp_left fun ⟨h, hother⟩ => ?_)
    exact ⟨hab i h, hother⟩

/-! ## 3. The problem -/

theorem admissible {p : Program} (h : p.JumpsInside) (m : MethodId) :
    (problem p (p.flowOf m)).Admissible (p.flowOf m).graph (transferAt p (p.flowOf m)) where
  stateless _ _ _ := rfl
  independent _ := rfl
  coherent := h.coherent m
  finish _ hn hfinish := h.next_eq_nil m .backward hn hfinish

theorem isMonotone (p : Program) (flow : MethodFlow) :
    (problem p flow).IsMonotone (transferAt p flow) where
  join _ _ := rfl
  initial := rfl
  edge _ := monotone_id
  node := transferAt_mono p flow

/-- **Every order of visits gives the same live variables.** -/
theorem eq_of_analyzeWithin {p : Program} (h : p.JumpsInside) {m : MethodId}
    {order order' : VisitOrder} {allowance allowance' : Nat} {r r' : MethodFacts IdSet}
    (hr : analyzeWithin p m order allowance = some r)
    (hr' : analyzeWithin p m order' allowance' = some r') : r = r' := by
  obtain ⟨⟨f, _⟩, hf, rfl⟩ := Option.map_eq_some_iff.mp hr
  obtain ⟨⟨f', _⟩, hf', rfl⟩ := Option.map_eq_some_iff.mp hr'
  have hleast := DataflowProblem.solvesLeast_of_solveWithin (admissible h m) (isMonotone p _) hf
  have hleast' := DataflowProblem.solvesLeast_of_solveWithin (admissible h m) (isMonotone p _) hf'
  rw [hleast.unique hleast']

end Liveness

end ObjectFlow
