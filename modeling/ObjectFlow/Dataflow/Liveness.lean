/-
  File:      ObjectFlow/Dataflow/Liveness.lean
  Subject:   LIVE VARIABLES: those some path reads before writing them.

  A fact is the set of the local numbers of the live variables of the method.
-/
import ObjectFlow.Dataflow.MethodFacts
import ObjectFlow.Domain.Lattice

namespace ObjectFlow

namespace Liveness

def localIndex (p : Program) (v : VarId) : Nat := (p.varAt v).localIndex

/-- The variables live before a statement, given those live after it. -/
def transferStmt (p : Program) (stmt : Stmt) (live : IdSet) : IdSet :=
  let kept := match stmt.defined? with
    | some lhs => live.erase (localIndex p lhs)
    | none => live
  (stmt.uses.map (localIndex p)).foldl IdSet.insert kept

def problem (p : Program) (flow : MethodFlow) : DataflowProblem EdgeKind IdSet Unit where
  direction := .backward
  initial := .empty
  join := .union
  boundary _ := .empty
  transferNode node live _ :=
    (match flow.stmtAt? node with
      | some stmt => transferStmt p stmt live
      | none => live, ())

/-- The live variables of a method, visiting at most `allowance` nodes. -/
def analyzeWithin (p : Program) (m : MethodId) (order : VisitOrder) (allowance : Nat) :
    Option (MethodFacts IdSet) :=
  let flow := p.flowOf m
  ((problem p flow).solveWithin flow.graph order () allowance).map fun (facts, _) => ⟨flow, facts⟩

/-- The live variables of a method. -/
def analyze (p : Program) (m : MethodId) (order : VisitOrder) : Option (MethodFacts IdSet) :=
  analyzeWithin p m order stepAllowance

/-- The names of the live variables in the order of their declaration. -/
def render (p : Program) (m : MethodId) (live : IdSet) : String :=
  let vars := (p.methodAt m).vars
  ", ".intercalate (live.elems.map fun i => p.varName (vars.getD i 0))

end Liveness

end ObjectFlow
