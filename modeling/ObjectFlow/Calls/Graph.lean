/-
  File:      ObjectFlow/Calls/Graph.lean
  Subject:   CALL GRAPHS over call sites `σ` and methods `μ`.

  Without contexts sites and methods are those of the program; with contexts they are paired with
  them. Reachable methods and edges are listed in the order they were found, each once.
-/
import ObjectFlow.Token

namespace ObjectFlow

structure CallEdge (σ μ : Type) where
  kind : CallKind
  site : σ
  callee : μ
  deriving DecidableEq

structure CallGraph (σ μ : Type) where
  entries : Array μ := #[]
  reachable : Array μ := #[]
  edges : Array (CallEdge σ μ) := #[]
  deriving Inhabited

namespace CallGraph

variable {σ μ : Type} [DecidableEq σ] [DecidableEq μ]

def hasMethod (g : CallGraph σ μ) (m : μ) : Bool := g.reachable.any (· = m)

/-- Whether the site calls the method, by a call of any kind. -/
def hasEdge (g : CallGraph σ μ) (site : σ) (callee : μ) : Bool :=
  g.edges.any fun e => e.site = site ∧ e.callee = callee

/-- Makes a method reachable. -/
def addReachable (g : CallGraph σ μ) (m : μ) : CallGraph σ μ :=
  if g.hasMethod m then g else { g with reachable := g.reachable.push m }

/-- Adds a method that calls start from; it is reachable too. -/
def addEntry (g : CallGraph σ μ) (m : μ) : CallGraph σ μ :=
  { g with entries := g.entries.push m }.addReachable m

/-- Adds an edge, unless the site is known to call the method already. -/
def addEdge (g : CallGraph σ μ) (e : CallEdge σ μ) : CallGraph σ μ :=
  if g.hasEdge e.site e.callee then g else { g with edges := g.edges.push e }

/-- The methods called at a site. -/
def calleesOf (g : CallGraph σ μ) (site : σ) : List μ :=
  (g.edges.toList.filter (·.site = site)).map (·.callee)

/-- The sites that call a method. -/
def callersOf (g : CallGraph σ μ) (m : μ) : List σ :=
  (g.edges.toList.filter (·.callee = m)).map (·.site)

def edgeCount (g : CallGraph σ μ) : Nat := g.edges.size

/-- The call graph with sites and methods renamed; what becomes equal is listed once. -/
def rename {σ' μ' : Type} [DecidableEq σ'] [DecidableEq μ'] (g : CallGraph σ μ)
    (site : σ → σ') (method : μ → μ') : CallGraph σ' μ' :=
  let entered := g.entries.foldl (fun h m => h.addEntry (method m)) {}
  let reached := g.reachable.foldl (fun h m => h.addReachable (method m)) entered
  g.edges.foldl (fun h e => h.addEdge ⟨e.kind, site e.site, method e.callee⟩) reached

end CallGraph

end ObjectFlow
