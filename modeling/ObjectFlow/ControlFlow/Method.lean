/-
  File:      ObjectFlow/ControlFlow/Method.lean
  Subject:   THE CONTROL FLOW GRAPH OF A METHOD, one node a statement.

  Node 0 is the entry, node `i + 1` is statement `i`, and the last node is the exit. A statement
  that does not jump flows on to the next node, the last one to the exit.
-/
import ObjectFlow.Graph.Order
import ObjectFlow.Program.Printer

namespace ObjectFlow

/-! ## 1. Edges -/

/-- Why control flows along an edge. -/
inductive EdgeKind where
  | entry
  | fallThrough
  | goto
  | ifTrue
  | ifFalse
  | switchCase (value : Int32)
  | switchDefault
  | ret
  deriving DecidableEq, Inhabited

def EdgeKind.render : EdgeKind → String
  | .entry => "Entry"
  | .fallThrough => "FallThrough"
  | .goto => "Goto"
  | .ifTrue => "IfTrue"
  | .ifFalse => "IfFalse"
  | .switchCase value => s!"SwitchCase({value.toInt})"
  | .switchDefault => "SwitchDefault"
  | .ret => "Return"

/-- The edges out of the node of a statement, in a graph whose last node is `exit`. -/
def stmtEdges (exit node : Nat) : Stmt → List (FlowEdge EdgeKind)
  | .jump target => [⟨node, target + 1, .goto⟩]
  | .branch _ _ _ target => [⟨node, target + 1, .ifTrue⟩, ⟨node, node + 1, .ifFalse⟩]
  | .switch _ cases otherwise =>
    cases.map (fun (value, target) => ⟨node, target + 1, .switchCase value⟩)
      ++ [⟨node, otherwise + 1, .switchDefault⟩]
  | .ret _ => [⟨node, exit, .ret⟩]
  | _ => [⟨node, node + 1, .fallThrough⟩]

/-- All edges of a body, node by node. -/
def bodyEdges (stmts : List Stmt) : List (FlowEdge EdgeKind) :=
  ⟨0, 1, .entry⟩ ::
    stmts.zipIdx.flatMap fun (stmt, i) => stmtEdges (stmts.length + 1) (i + 1) stmt

/-! ## 2. Graphs -/

/-- The control flow of one method. -/
structure MethodFlow where
  method : MethodId
  stmts : Array Stmt
  graph : FlowGraph EdgeKind

namespace MethodFlow

/-- The control flow of a list of statements. -/
def ofStmts (m : MethodId) (stmts : List Stmt) : MethodFlow where
  method := m
  stmts := stmts.toArray
  graph := .ofEdges (stmts.length + 2) (bodyEdges stmts) (· == 0) (· == stmts.length + 1)

def entry (_ : MethodFlow) : Nat := 0

def exit (f : MethodFlow) : Nat := f.stmts.size + 1

/-- The node of a statement. -/
def nodeOf (_ : MethodFlow) (i : Nat) : Nat := i + 1

/-- The statement index of a node; entry and exit have none. -/
def indexOf? (f : MethodFlow) (node : Nat) : Option Nat :=
  if node = f.entry ∨ node = f.exit then none else some (node - 1)

/-- The statement of a node. -/
def stmtAt? (f : MethodFlow) (node : Nat) : Option Stmt :=
  (f.indexOf? node).bind fun i => f.stmts[i]?

end MethodFlow

/-- The control flow of a method. -/
def Program.flowOf (p : Program) (m : MethodId) : MethodFlow := .ofStmts m (p.methodAt m).stmts

/-! ## 3. The graph as text -/

/-- The control flow graph in the dot language, named by the signature of the method. -/
def MethodFlow.toDot (f : MethodFlow) (p : Program) : String :=
  let label (node : Nat) := match f.indexOf? node with
    | some i => toString i ++ ": " ++ p.stmtText (f.stmts.getD i default)
    | none => if node = f.entry then "Entry" else "Exit"
  f.graph.toDot (some ("\"" ++ p.signature f.method ++ "\"")) label EdgeKind.render

end ObjectFlow
