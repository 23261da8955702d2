/-
  File:      ObjectFlow/Dataflow/ProgramConstants.lean
  Subject:   CONSTANT PROPAGATION ACROSS METHODS, with field and array accesses resolved by a
             pointer analysis.

  Facts travel over the control flow of the whole program. Call edges bind parameters, return
  edges bind results. What a store writes is remembered at the store; a load joins what the
  stores it may read from remember, and is visited again when one of them changes.
-/
import ObjectFlow.ControlFlow.Supergraph
import ObjectFlow.Dataflow.Constants
import ObjectFlow.PointsTo.Analysis

namespace ObjectFlow

namespace ProgramConstants

/-! ## 1. Accesses to the heap -/

/-- What an access touches: a field, through a base variable unless it is static, or the elements
    of an array. -/
inductive Place where
  | field (base : Option VarId) (f : FieldId)
  | element (base : VarId)
  deriving DecidableEq

/-- Whether two accesses may touch the same memory. -/
def Place.mayAlias (points : PlainResult) : Place → Place → Bool
  | field none f, field none g => f = g
  | field (some x) f, field (some y) g => f = g && points.mayAlias x y
  | element x, element y => points.mayAlias x y
  | _, _ => false

/-- What a statement loads from, if it loads an integer. -/
def loaded? (p : Program) : Stmt → Option Place
  | .loadField lhs base f => if p.holdsInt lhs then some (.field base f) else none
  | .loadArray lhs base _ => if p.holdsInt lhs then some (.element base) else none
  | _ => none

/-- What a statement stores to, if it stores an integer. -/
def stored? (p : Program) : Stmt → Option Place
  | .storeField base f rhs => if p.holdsInt rhs then some (.field base f) else none
  | .storeArray base _ rhs => if p.holdsInt rhs then some (.element base) else none
  | _ => none

/-- The statement of a node. -/
def stmtAt? (p : Program) (graph : Supergraph) (node : Nat) : Option Stmt :=
  (graph.siteOf? node).bind p.stmt?

/-- The nodes at which a place is accessed, in order. -/
def accesses (p : Program) (graph : Supergraph) (place? : Stmt → Option Place) :
    List (Nat × Place) :=
  graph.graph.nodes.filterMap fun node =>
    ((stmtAt? p graph node).bind place?).map fun place => (node, place)

/-- The pairs of a load and a store it may read from. -/
structure Links where
  pairs : List (Nat × Nat)

/-- All loads with the stores they may read from, by load and then by store. -/
def links (p : Program) (graph : Supergraph) (points : PlainResult) : Links :=
  let stores := accesses p graph (stored? p)
  ⟨(accesses p graph (loaded? p)).flatMap fun (load, source) =>
    (stores.filter fun (_, target) => source.mayAlias points target).map
      fun (store, _) => (load, store)⟩

def Links.storesOf (l : Links) (load : Nat) : List Nat :=
  (l.pairs.filter (·.1 = load)).map (·.2)

def Links.loadsOf (l : Links) (store : Nat) : List Nat :=
  (l.pairs.filter (·.2 = store)).map (·.1)

/-- What stores wrote when they were last visited: the value, and for arrays the index. -/
abbrev Memory := List (Nat × ConstValue × ConstValue)

/-- Remembers what a store writes. -/
def Memory.set (memory : Memory) (store : Nat) (value index : ConstValue) : Memory :=
  (store, value, index) :: memory.filter (·.1 ≠ store)

/-! ## 2. Transfer -/

/-- The value of a variable; variables that hold no integer are unknown. -/
def valueOf (p : Program) (fact : ConstFact) (v : VarId) : ConstValue :=
  if p.holdsInt v then fact.get v else .nac

/-- Whether two indices may be equal: both are defined, and not two different constants. -/
def mayBeEqual : ConstValue → ConstValue → Bool
  | .undefined, _ => false
  | _, .undefined => false
  | .const a, .const b => a = b
  | _, _ => true

/-- The join of what the stores a load may read from wrote; for arrays only where the indices may
    be equal. -/
def loadedValue (l : Links) (memory : Memory) (load : Nat) (index : Option ConstValue) :
    ConstValue :=
  (l.storesOf load).foldl (fun value store =>
    match memory.lookup store with
    | none => value
    | some (written, writtenAt) =>
      match index with
      | none => value.join written
      | some i => if mayBeEqual i writtenAt then value.join written else value) .undefined

/-- The transfer of a node. The results of calls are bound by the edges behind them. -/
def transferNode (p : Program) (graph : Supergraph) (l : Links) (node : Nat) (fact : ConstFact)
    (memory : Memory) : ConstFact × Memory :=
  match stmtAt? p graph node with
  | none => (fact, memory)
  | some stmt =>
    match stmt with
    | .call _ => (fact, memory)
    | .loadField lhs _ _ =>
      if (l.storesOf node).isEmpty then (Constants.transferStmt p stmt fact, memory)
      else (fact.update lhs (loadedValue l memory node none), memory)
    | .loadArray lhs _ index =>
      if (l.storesOf node).isEmpty then (Constants.transferStmt p stmt fact, memory)
      else (fact.update lhs (loadedValue l memory node (some (valueOf p fact index))), memory)
    | .storeField _ _ rhs =>
      if (l.loadsOf node).isEmpty then (Constants.transferStmt p stmt fact, memory)
      else (fact, memory.set node (valueOf p fact rhs) .undefined)
    | .storeArray _ index rhs =>
      if (l.loadsOf node).isEmpty then (Constants.transferStmt p stmt fact, memory)
      else (fact, memory.set node (valueOf p fact rhs) (valueOf p fact index))
    | _ => (Constants.transferStmt p stmt fact, memory)

/-- Behind a call the result is bound by the return edges; a call that reaches no method gives an
    unknown value. -/
def aroundCall (p : Program) (graph : Supergraph) (node : Nat) (fact : ConstFact) : ConstFact :=
  match ((stmtAt? p graph node).bind (·.defined?)).filter p.holdsInt with
  | none => fact
  | some result =>
    let reachesMethod := (graph.graph.outEdges node).any fun e =>
      match e.kind with
      | .call _ _ => true
      | _ => false
    fact.update result (if reachesMethod then .undefined else .nac)

/-- Binds the integer-like parameters of a method to the arguments of a call. -/
def intoCall (p : Program) (site : Site) (callee : MethodId) (fact : ConstFact) : ConstFact :=
  match p.invoke? site with
  | none => .empty
  | some i =>
    (i.args.zip (p.methodAt callee).params).foldl (fun out (arg, param) =>
      if p.holdsInt param then out.update param (valueOf p fact arg) else out) .empty

/-- Binds the result of a call to what the method may return; a method without a body may return
    anything. -/
def outOfCall (p : Program) (site : Site) (callee : MethodId) (fact : ConstFact) : ConstFact :=
  match ((p.invoke? site).bind (·.result)).filter p.holdsInt with
  | none => .empty
  | some result =>
    let method := p.methodAt callee
    let value := method.returnVars.foldl (fun value v => value.join (valueOf p fact v))
      (if method.hasBody then .undefined else .nac)
    FactMap.empty.update result value

/-- What of a fact travels over an edge. -/
def transferEdge (p : Program) (graph : Supergraph) (e : FlowEdge SuperEdge) (fact : ConstFact) :
    ConstFact :=
  match e.kind with
  | .normal _ => fact
  | .callToReturn => aroundCall p graph e.source fact
  | .call site callee => intoCall p site callee fact
  | .ret site callee => outOfCall p site callee fact

/-! ## 3. The analysis -/

def problem (p : Program) (graph : Supergraph) (l : Links) :
    DataflowProblem SuperEdge ConstFact Memory where
  direction := .forward
  initial := .empty
  join := .join
  boundary _ := Constants.unknown p (p.methodAt graph.entryMethod).params
  transferNode := transferNode p graph l
  transferEdge := transferEdge p graph
  dependents := l.loadsOf

/-- The facts of the whole program. -/
structure Result where
  graph : Supergraph
  facts : Facts ConstFact

/-- Constant propagation from an entry method over what a pointer analysis reached, visiting at
    most `allowance` nodes. -/
def analyzeWithin (p : Program) (entry : MethodId) (points : PlainResult) (order : VisitOrder)
    (allowance : Nat) : Option Result := do
  let graph ← Supergraph.ofCalls? p points.calls entry
  let (facts, _) ←
    (problem p graph (links p graph points)).solveWithin graph.graph order [] allowance
  return ⟨graph, facts⟩

/-- Constant propagation from an entry method over what a pointer analysis reached. -/
def analyze (p : Program) (entry : MethodId) (points : PlainResult) (order : VisitOrder) :
    Option Result :=
  analyzeWithin p entry points order stepAllowance

namespace Result

/-- What is said of a statement of a method that was not reached. -/
def notAnalyzed (site : Site) : String := "Statement " ++ site.render ++ " was not analyzed."

/-- The fact before a statement. -/
def in? (r : Result) (site : Site) : Option ConstFact := (r.graph.nodeOf? site).bind r.facts.in?

/-- The fact after a statement. -/
def out? (r : Result) (site : Site) : Option ConstFact := (r.graph.nodeOf? site).bind r.facts.out?

/-- Every reached method with the fact after each statement as a comment. -/
def render (r : Result) (p : Program) : String :=
  String.join (r.graph.methods.map fun m =>
    p.methodText m fun i => (r.out? ⟨m, i⟩).map (ConstFact.render p))

end Result

end ProgramConstants

end ObjectFlow
