/-
  File:      ObjectFlow/Dataflow/MethodFacts.lean
  Subject:   THE FACTS OF ONE METHOD, addressed by statement.
-/
import ObjectFlow.ControlFlow.Method
import ObjectFlow.Dataflow.Solver

namespace ObjectFlow

/-- The control flow of a method with facts at its nodes. -/
structure MethodFacts (φ : Type) where
  flow : MethodFlow
  facts : Facts φ

namespace MethodFacts

variable {φ : Type}

/-- The fact before a statement. -/
def in? (f : MethodFacts φ) (i : Nat) : Option φ := f.facts.in? (f.flow.nodeOf i)

/-- The fact after a statement. -/
def out? (f : MethodFacts φ) (i : Nat) : Option φ := f.facts.out? (f.flow.nodeOf i)

/-- The method with the fact after each statement as a comment. -/
def render (f : MethodFacts φ) (p : Program) (text : φ → String) : String :=
  p.methodText f.flow.method fun i => (f.out? i).map text

end MethodFacts

end ObjectFlow
