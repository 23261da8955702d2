/-
  File:      ObjectFlow/ControlFlow/Supergraph.lean
  Subject:   THE CONTROL FLOW OF A WHOLE PROGRAM: the graphs of all reachable methods, joined by
             call and return edges.

  The nodes of the methods are laid out one method after the other, in the order the call graph
  lists them. Only entry and exit of the entry method bound the graph; those of other methods are
  reached over call and return edges.
-/
import ObjectFlow.Calls.Graph
import ObjectFlow.ControlFlow.Method

namespace ObjectFlow

/-! ## 1. Edges -/

inductive SuperEdge where
  /-- An edge within a method. -/
  | normal (kind : EdgeKind)
  /-- From a call to the place it returns to, past the called method. -/
  | callToReturn
  /-- From a call to the entry of a method it may reach. -/
  | call (site : Site) (callee : MethodId)
  /-- From the exit of a called method to a place the call returns to. -/
  | ret (site : Site) (callee : MethodId)
  deriving DecidableEq, Inhabited

def SuperEdge.render : SuperEdge → String
  | .normal kind => "Normal(" ++ kind.render ++ ")"
  | .callToReturn => "CallToReturn"
  | .call site callee =>
    "Call \x7b call_site: " ++ site.render ++ s!", callee: MethodId({callee}) \x7d"
  | .ret site callee =>
    "Return \x7b call_site: " ++ site.render ++ s!", callee: MethodId({callee}) \x7d"

/-! ## 2. Layout -/

/-- The place of a method in the graph: its nodes start at `base`. -/
structure MethodRange where
  base : Nat
  flow : MethodFlow

namespace MethodRange

def size (r : MethodRange) : Nat := r.flow.graph.nodeCount

def entry (r : MethodRange) : Nat := r.base + r.flow.entry

def exit (r : MethodRange) : Nat := r.base + r.flow.exit

end MethodRange

/-- Lays methods out one after the other from node `base` on. -/
def layOut (p : Program) (base : Nat) : List MethodId → List MethodRange
  | [] => []
  | m :: rest =>
    let flow := p.flowOf m
    ⟨base, flow⟩ :: layOut p (base + flow.graph.nodeCount) rest

/-- The place of a method. -/
def rangeOf? (ranges : List MethodRange) (m : MethodId) : Option MethodRange :=
  ranges.find? (·.flow.method = m)

/-- The edges out of one node of a method. -/
def nodeEdges (calls : CallGraph Site MethodId) (ranges : List MethodRange) (r : MethodRange)
    (node : Nat) : List (FlowEdge SuperEdge) :=
  let out := r.flow.graph.outEdges node
  let own (kind : EdgeKind → SuperEdge) := out.map fun e =>
    { source := r.base + e.source, target := r.base + e.target, kind := kind e.kind }
  match r.flow.indexOf? node, (r.flow.stmtAt? node).bind (·.invoke?) with
  | some i, some _ =>
    let site : Site := ⟨r.flow.method, i⟩
    let around := (calls.calleesOf site).flatMap fun callee =>
      match rangeOf? ranges callee with
      | none => []
      | some callee' =>
        { source := r.base + node, target := callee'.entry, kind := SuperEdge.call site callee } ::
          out.map fun e =>
            { source := callee'.exit, target := r.base + e.target
              kind := SuperEdge.ret site callee }
    own (fun _ => .callToReturn) ++ around
  | _, _ => own .normal

/-! ## 3. Graphs -/

structure Supergraph where
  entryMethod : MethodId
  ranges : List MethodRange
  graph : FlowGraph SuperEdge

namespace Supergraph

/-- What is said of an entry method that the call graph does not reach. -/
def missingEntry (m : MethodId) : String := s!"Entry method MethodId({m}) is not in the call graph."

/-- The control flow of the methods a call graph reaches, bounded by an entry method; `none` when
    the call graph does not reach the entry method. -/
def ofCalls? (p : Program) (calls : CallGraph Site MethodId) (entry : MethodId) :
    Option Supergraph :=
  if calls.hasMethod entry then
    let ranges := layOut p 0 calls.reachable.toList
    let count := ranges.foldl (fun n r => n + r.size) 0
    let edges := ranges.flatMap fun r =>
      (List.range r.size).flatMap (nodeEdges calls ranges r)
    let bound := rangeOf? ranges entry
    some
      { entryMethod := entry
        ranges := ranges
        graph := .ofEdges count edges (fun n => bound.map (·.entry) = some n)
          (fun n => bound.map (·.exit) = some n) }
  else none

/-- The methods in the order of their nodes. -/
def methods (s : Supergraph) : List MethodId := s.ranges.map (·.flow.method)

def methodEntry? (s : Supergraph) (m : MethodId) : Option Nat := (rangeOf? s.ranges m).map (·.entry)

def methodExit? (s : Supergraph) (m : MethodId) : Option Nat := (rangeOf? s.ranges m).map (·.exit)

/-- The node of a statement. -/
def nodeOf? (s : Supergraph) (site : Site) : Option Nat := do
  let r ← rangeOf? s.ranges site.method
  if site.index < r.flow.stmts.size then some (r.base + r.flow.nodeOf site.index) else none

/-- The method a node belongs to. -/
def rangeAt? (s : Supergraph) (node : Nat) : Option MethodRange :=
  s.ranges.find? fun r => r.base ≤ node && node < r.base + r.size

/-- The statement of a node; entry and exit nodes have none. -/
def siteOf? (s : Supergraph) (node : Nat) : Option Site := do
  let r ← s.rangeAt? node
  let i ← r.flow.indexOf? (node - r.base)
  return ⟨r.flow.method, i⟩

/-- The graph in the dot language. -/
def toDot (s : Supergraph) (p : Program) : String :=
  let label (node : Nat) :=
    match s.siteOf? node, s.rangeAt? node with
    | some site, _ => p.siteText site
    | none, some r =>
      (if node = r.entry then "Entry " else "Exit ") ++ p.signature r.flow.method
    | none, none => ""
  s.graph.toDot (some "ICFG") label SuperEdge.render

end Supergraph

end ObjectFlow
