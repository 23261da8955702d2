/-
  File:      ObjectFlow/Calls/ClassHierarchy.lean
  Subject:   CALL GRAPHS FROM THE CLASS HIERARCHY: a call may reach what any subtype of the named
             class would run.
-/
import ObjectFlow.Calls.Graph
import ObjectFlow.IdSet
import ObjectFlow.Program.Hierarchy
import ObjectFlow.Program.Printer

namespace ObjectFlow

/-- A call graph of the program as written, without contexts. -/
abbrev PlainCallGraph := CallGraph Site MethodId

namespace ClassHierarchy

/-- The methods a call may reach, in the order of their ids. -/
def targets (p : Program) (i : Invoke) : IdSet :=
  let owner := i.target.owner
  let subsig := i.target.subsig
  match i.kind with
  | .static => .ofList (p.lookup? owner subsig).toList
  | .special => .ofList (p.dispatch? owner subsig).toList
  | .virtual | .interface =>
    .ofList ((p.subtypes owner).filterMap fun c => p.dispatch? c subsig)
  | .dynamic => .empty

/-- The edges of the calls in a method, in statement order. -/
def edgesOf (p : Program) (m : MethodId) : List (CallEdge Site MethodId) :=
  (p.sitesOf m).flatMap fun (site, stmt) =>
    match stmt.invoke? with
    | some i => (targets p i).elems.map fun callee => ⟨i.kind, site, callee⟩
    | none => []

/-- Adds the edges of queued methods, first come first served, and queues the methods they reach
    for the first time. The first argument bounds the number of methods taken from the queue. -/
def explore (p : Program) : Nat → List MethodId → PlainCallGraph → PlainCallGraph
  | 0, _, g => g
  | _ + 1, [], g => g
  | bound + 1, m :: queue, g =>
    let edges := edgesOf p m
    let seen := g.reachable.toList
    let next := edges.foldl (fun g e => (g.addEdge e).addReachable e.callee) g
    explore p bound (queue ++ next.reachable.toList.drop seen.length) next

/-- The call graph of everything that can be reached from a method. -/
def callGraph (p : Program) (entry : MethodId) : PlainCallGraph :=
  explore p (p.methods.size + 1) [entry] (CallGraph.addEntry {} entry)

end ClassHierarchy

/-! ## The call graph as text -/

/-- The reachable methods in the order they were found, then the edges ordered by site and
    callee. -/
def PlainCallGraph.render (p : Program) (g : PlainCallGraph) : String :=
  let before (a b : CallEdge Site MethodId) : Bool :=
    ((compare a.site b.site).then (compare a.callee b.callee)).isLE
  let edgeLine (e : CallEdge Site MethodId) :=
    "  " ++ p.siteText e.site ++ " -> " ++ p.signature e.callee ++ "\n"
  "Reachable methods:\n"
    ++ String.join (g.reachable.toList.map fun m => "  " ++ p.signature m ++ "\n")
    ++ "Call edges:\n"
    ++ String.join ((g.edges.toList.mergeSort before).map edgeLine)

end ObjectFlow
