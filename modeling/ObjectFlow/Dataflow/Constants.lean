/-
  File:      ObjectFlow/Dataflow/Constants.lean
  Subject:   CONSTANT PROPAGATION within a method.

  A fact binds the variables of integer-like types to what is known of their values. Parameters
  are unknown on entry; loads, calls, casts and allocations give unknown values.
-/
import ObjectFlow.Dataflow.MethodFacts
import ObjectFlow.Domain.FactMap

namespace ObjectFlow

/-- What is known of the integer variables; a variable without a binding is undefined. -/
abbrev ConstFact := FactMap VarId ConstValue

namespace ConstFact

/-- The bindings as text, in the order of the variables. -/
def render (p : Program) (fact : ConstFact) : String :=
  ", ".intercalate (fact.entries.map fun (v, value) => p.varName v ++ "=" ++ value.render)

end ConstFact

namespace Constants

/-! ## 1. Transfer -/

/-- The value of the right side of an assignment. -/
def evalExp (fact : ConstFact) : Exp → ConstValue
  | .var v => fact.get v
  | .int value => .const value
  | .binary op left right => op.eval (fact.get left) (fact.get right)
  | .cast _ _ => .nac

/-- The value a statement gives the variable it assigns. -/
def assigned (fact : ConstFact) : Stmt → ConstValue
  | .assign _ rhs => evalExp fact rhs
  | _ => .nac

/-- The fact after a statement: only the assigned variable, if it is integer-like, changes. -/
def transferStmt (p : Program) (stmt : Stmt) (fact : ConstFact) : ConstFact :=
  match stmt.defined? with
  | some lhs => if p.holdsInt lhs then fact.update lhs (assigned fact stmt) else fact
  | none => fact

/-- Integer-like variables bound to unknown values. -/
def unknown (p : Program) (vars : List VarId) : ConstFact :=
  (vars.filter p.holdsInt).foldl (fun fact v => fact.update v .nac) .empty

/-! ## 2. The analysis -/

def problem (p : Program) (flow : MethodFlow) : DataflowProblem EdgeKind ConstFact Unit where
  direction := .forward
  initial := .empty
  join := .join
  boundary _ := unknown p (p.methodAt flow.method).params
  transferNode node fact _ :=
    (match flow.stmtAt? node with
      | some stmt => transferStmt p stmt fact
      | none => fact, ())

/-- Constant propagation for a method, visiting at most `allowance` nodes. -/
def analyzeWithin (p : Program) (m : MethodId) (order : VisitOrder) (allowance : Nat) :
    Option (MethodFacts ConstFact) :=
  let flow := p.flowOf m
  ((problem p flow).solveWithin flow.graph order () allowance).map fun (facts, _) => ⟨flow, facts⟩

/-- Constant propagation for a method. -/
def analyze (p : Program) (m : MethodId) (order : VisitOrder) : Option (MethodFacts ConstFact) :=
  analyzeWithin p m order stepAllowance

end Constants

end ObjectFlow
