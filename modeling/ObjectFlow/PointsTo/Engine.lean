/-
  File:      ObjectFlow/PointsTo/Engine.lean
  Subject:   THE POINTER ANALYSIS: objects flow along the pointer graph while calls are resolved
             on the objects that reach their receivers.

  The engine is the same whether contexts are told apart or not. A `Sensitivity` says what
  contexts there are and how the heap objects of different contexts are named; the engine itself
  never merges what it keeps apart. Objects are numbers, and a plugin may watch and feed the
  analysis.
-/
import ObjectFlow.Calls.ClassHierarchy
import ObjectFlow.Iterate
import ObjectFlow.PointsTo.Context
import ObjectFlow.PointsTo.PointerGraph
import ObjectFlow.PointsTo.WorkQueue

namespace ObjectFlow

/-! ## 1. Pointers and state -/

/-- What can point to objects. Variables are told apart by context, static fields are shared. -/
inductive Pointer (κ : Type) where
  | var (context : κ) (v : VarId)
  | staticField (f : FieldId)
  | field (object : Nat) (f : FieldId)
  /-- All elements of an array. -/
  | element (object : Nat)
  deriving DecidableEq, Inhabited

/-- A call graph over sites and methods under contexts. -/
abbrev ContextCallGraph (κ : Type) := CallGraph (Qualified κ Site) (Qualified κ MethodId)

/-- A call edge between a site and a method under contexts. -/
abbrev ContextCallEdge (κ : Type) := CallEdge (Qualified κ Site) (Qualified κ MethodId)

/-- How contexts are chosen and objects named; `ν` is the state of the naming. -/
structure Sensitivity (κ ν : Type) where
  /-- The context of the method the analysis starts from. -/
  entryContext : κ
  /-- The object of a heap object allocated under a context. -/
  allocated : κ → ObjectId → ν → Nat × ν
  /-- The object of a heap object that is not allocated under a context. -/
  unallocated : ObjectId → ν → Nat × ν
  /-- The heap object an object stands for. -/
  heapObject : ν → Nat → ObjectId
  /-- The context of the method called at a site, on a receiver object if there is one. -/
  calleeContext : Program → Heap → Qualified κ Site → Option Nat → ν → κ × ν

/-- The state between two items of work. -/
structure EngineState (κ ν : Type) where
  heap : Heap
  names : ν
  graph : PointerGraph (Pointer κ) := {}
  queue : WorkQueue (WorkItem (ContextCallEdge κ))
  calls : ContextCallGraph κ := {}

namespace EngineState

variable {κ ν : Type} [DecidableEq κ]

/-! ## 2. What a plugin may do too -/

/-- The number of a pointer. -/
def pointer (s : EngineState κ ν) (a : Pointer κ) : PointerId × EngineState κ ν :=
  let (id, graph) := s.graph.intern a
  (id, { s with graph := graph })

/-- Objects are to flow into a pointer. -/
def send (s : EngineState κ ν) (id : PointerId) (objects : IdSet) : EngineState κ ν :=
  { s with queue := s.queue.push (.points id objects) }

def pointsTo (s : EngineState κ ν) (id : PointerId) : IdSet := s.graph.pointsTo id

/-- The object of tainted data of a type made by a call. -/
def taintObject (s : EngineState κ ν) (rules : Sensitivity κ ν) (source : Site) (ty : Ty) :
    Nat × EngineState κ ν :=
  let (o, heap) := s.heap.taint source ty
  let (object, names) := rules.unallocated o s.names
  (object, { s with heap := heap, names := names })

/-- The call that made the tainted data an object stands for. -/
def taintSource? (s : EngineState κ ν) (rules : Sensitivity κ ν) (object : Nat) : Option Site :=
  s.heap.taintSource? (rules.heapObject s.names object)

/-! ## 3. Edges and growth -/

/-- A call edge is to be connected. -/
def sendCall (s : EngineState κ ν) (e : ContextCallEdge κ) : EngineState κ ν :=
  { s with queue := s.queue.push (.call e) }

/-- Links two pointers; over a new edge, what the source points to already is sent on. -/
def link (s : EngineState κ ν) (source target : Pointer κ) : EngineState κ ν :=
  let (source, s) := s.pointer source
  let (target, s) := s.pointer target
  if s.graph.hasEdge source target then s
  else
    let s := { s with graph := s.graph.addEdge source target }
    let objects := s.pointsTo source
    if objects.isEmpty then s else s.send target objects

/-- Adds objects to a pointer and sends the new ones on; gives the new ones. -/
def grow (s : EngineState κ ν) (id : PointerId) (objects : IdSet) : IdSet × EngineState κ ν :=
  let delta := objects.diff (s.pointsTo id)
  let s := { s with graph := s.graph.addObjects id delta }
  if delta.isEmpty then (delta, s)
  else (delta, (s.graph.successors id).foldl (fun s t => s.send t delta) s)

/-! ## 4. Methods -/

/-- What one statement of a method means as soon as the method is reachable. -/
def enterStmt (p : Program) (rules : Sensitivity κ ν) (c : κ) (s : EngineState κ ν)
    (here : Site × Stmt) : EngineState κ ν :=
  match here.2 with
  | .alloc lhs ty _ =>
    let (o, heap) := s.heap.allocate here.1 ty
    let (object, names) := rules.allocated c o s.names
    let (id, s) := { s with heap := heap, names := names }.pointer (.var c lhs)
    s.send id (.singleton object)
  | .assign lhs (.var rhs) | .assign lhs (.cast _ rhs) => s.link (.var c rhs) (.var c lhs)
  | .loadField lhs none f => s.link (.staticField f) (.var c lhs)
  | .storeField none f rhs => s.link (.var c rhs) (.staticField f)
  | .call i =>
    if i.kind = .static then
      match p.callee? none i with
      | some callee =>
        let site : Qualified κ Site := ⟨c, here.1⟩
        let (calleeContext, names) := rules.calleeContext p s.heap site none s.names
        { s with names := names }.sendCall ⟨i.kind, site, ⟨calleeContext, callee⟩⟩
      | none => s
    else s
  | _ => s

/-- Makes a method reachable; the first time, its statements are entered. -/
def reach (p : Program) (rules : Sensitivity κ ν) (s : EngineState κ ν)
    (m : Qualified κ MethodId) : EngineState κ ν :=
  if s.calls.hasMethod m then s
  else
    let s := { s with calls := s.calls.addReachable m }
    (p.sitesOf m.item).foldl (enterStmt p rules m.context) s

/-! ## 5. New objects at a variable -/

/-- Links the field and array accesses through a variable to the fields and elements of an
    object. -/
def access (p : Program) (uses : Program.VarUses) (c : κ) (s : EngineState κ ν) (object : Nat) :
    EngineState κ ν :=
  let s := uses.loadFields.foldl (fun s site =>
    match p.stmt? site with
    | some (.loadField lhs _ f) => s.link (.field object f) (.var c lhs)
    | _ => s) s
  let s := uses.storeFields.foldl (fun s site =>
    match p.stmt? site with
    | some (.storeField _ f rhs) => s.link (.var c rhs) (.field object f)
    | _ => s) s
  let s := uses.loadArrays.foldl (fun s site =>
    match p.stmt? site with
    | some (.loadArray lhs _ _) => s.link (.element object) (.var c lhs)
    | _ => s) s
  uses.storeArrays.foldl (fun s site =>
    match p.stmt? site with
    | some (.storeArray _ _ rhs) => s.link (.var c rhs) (.element object)
    | _ => s) s

/-- Resolves one call on a receiver for an object. -/
def callOn (p : Program) (rules : Sensitivity κ ν) (c : κ) (object : Nat) (s : EngineState κ ν)
    (site : Site) : EngineState κ ν :=
  match p.invoke? site with
  | none => s
  | some i =>
    match p.callee? (some (s.heap.tyOf (rules.heapObject s.names object))) i with
    | none => s
    | some callee =>
      let here : Qualified κ Site := ⟨c, site⟩
      let (calleeContext, names) := rules.calleeContext p s.heap here (some object) s.names
      let s := { s with names := names }
      let s := match (p.methodAt callee).this with
        | some this =>
          let (id, s) := s.pointer (.var calleeContext this)
          s.send id (.singleton object)
        | none => s
      s.sendCall ⟨i.kind, here, ⟨calleeContext, callee⟩⟩

/-- What a new object at a variable means: its accesses, then the calls on it. -/
def newObject (p : Program) (rules : Sensitivity κ ν) (uses : Program.VarUses) (c : κ)
    (s : EngineState κ ν) (object : Nat) : EngineState κ ν :=
  uses.invokes.foldl (callOn p rules c object) (access p uses c s object)

/-! ## 6. Call edges -/

/-- Links arguments with parameters and returned variables with the result. -/
def connect (p : Program) (s : EngineState κ ν) (e : ContextCallEdge κ) (i : Invoke) :
    EngineState κ ν :=
  let callee := p.methodAt e.callee.item
  let s := (i.args.zip callee.params).foldl
    (fun s (arg, param) => s.link (.var e.site.context arg) (.var e.callee.context param)) s
  match i.result with
  | some result =>
    callee.returnVars.foldl
      (fun s v => s.link (.var e.callee.context v) (.var e.site.context result)) s
  | none => s

end EngineState

/-! ## 7. Plugins -/

/-- Watches an analysis and may feed it; `ρ` is what the plugin remembers. -/
structure Plugin (κ ν ρ : Type) where
  /-- Called when a pointer came to point to new objects. -/
  onObjects : Sensitivity κ ν → PointerId → IdSet → EngineState κ ν × ρ → EngineState κ ν × ρ :=
    fun _ _ _ s => s
  /-- Called when a call edge was connected. -/
  onCall : Sensitivity κ ν → ContextCallEdge κ → EngineState κ ν × ρ → EngineState κ ν × ρ :=
    fun _ _ s => s
  /-- Called once, when there is no work left. -/
  onFinish : Sensitivity κ ν → EngineState κ ν → ρ → ρ := fun _ _ r => r

namespace Plugin

variable {κ ν ρ ρ' : Type}

/-- The plugin that does nothing. -/
def none : Plugin κ ν Unit := {}

/-- Two plugins, called one after the other. -/
def both (a : Plugin κ ν ρ) (b : Plugin κ ν ρ') : Plugin κ ν (ρ × ρ') where
  onObjects rules id delta := fun (s, r, r') =>
    let (s, r) := a.onObjects rules id delta (s, r)
    let (s, r') := b.onObjects rules id delta (s, r')
    (s, r, r')
  onCall rules e := fun (s, r, r') =>
    let (s, r) := a.onCall rules e (s, r)
    let (s, r') := b.onCall rules e (s, r')
    (s, r, r')
  onFinish rules s := fun (r, r') => (a.onFinish rules s r, b.onFinish rules s r')

end Plugin

/-- What a plugin can be told. -/
inductive EngineEvent (κ : Type) where
  | objects (pointer : PointerId) (delta : IdSet)
  | call (edge : ContextCallEdge κ)
  | finish (heapSize : Nat)

/-- The plugin that writes down all it is told, the last first. -/
def Plugin.recorder {κ ν : Type} : Plugin κ ν (List (EngineEvent κ)) where
  onObjects _ id delta := fun (s, events) => (s, .objects id delta :: events)
  onCall _ e := fun (s, events) => (s, .call e :: events)
  onFinish _ s events := .finish s.heap.size :: events

/-! ## 8. Runs -/

namespace Engine

variable {κ ν ρ : Type} [DecidableEq κ]

/-- Connects a call edge, if it is new. -/
def doCall (p : Program) (rules : Sensitivity κ ν) (plugin : Plugin κ ν ρ) (e : ContextCallEdge κ)
    (run : EngineState κ ν × ρ) : EngineState κ ν × ρ :=
  let (s, r) := run
  if s.calls.hasEdge e.site e.callee then (s, r)
  else
    let s := { s with calls := s.calls.addEdge e }
    let s := s.reach p rules e.callee
    match p.invoke? e.site.item with
    | none => (s, r)
    | some i => plugin.onCall rules e (s.connect p e i, r)

/-- Lets objects flow into a pointer. New objects are told to the plugin; at a variable they are
    taken up one by one. -/
def doPoints (p : Program) (rules : Sensitivity κ ν) (plugin : Plugin κ ν ρ) (id : PointerId)
    (objects : IdSet) (run : EngineState κ ν × ρ) : EngineState κ ν × ρ :=
  let (s, r) := run
  let (delta, s) := s.grow id objects
  if delta.isEmpty then (s, r)
  else
    let (s, r) := plugin.onObjects rules id delta (s, r)
    match s.graph.pointer? id with
    | some (.var c v) =>
      let uses := p.usesOf v
      (delta.elems.foldl (EngineState.newObject p rules uses c) s, r)
    | _ => (s, r)

/-- Does the next item of work. -/
def step (p : Program) (rules : Sensitivity κ ν) (plugin : Plugin κ ν ρ)
    (run : EngineState κ ν × ρ) : Option (EngineState κ ν × ρ) :=
  run.1.queue.pop?.map fun (item, queue) =>
    let run := ({ run.1 with queue := queue }, run.2)
    match item with
    | .points id objects => doPoints p rules plugin id objects run
    | .call e => doCall p rules plugin e run

/-- The state before the first item of work: the entry method is reachable. -/
def start (p : Program) (rules : Sensitivity κ ν) (names : ν) (heap : HeapPolicy)
    (order : QueueOrder) (entry : MethodId) : EngineState κ ν :=
  let m : Qualified κ MethodId := ⟨rules.entryContext, entry⟩
  let s : EngineState κ ν :=
    { heap := { policy := heap }, names := names, queue := { order := order } }
  let s := s.reach p rules m
  { s with calls := s.calls.addEntry m }

/-- Runs the analysis until no work is left, for at most `allowance` items of work. -/
def runWithin (p : Program) (rules : Sensitivity κ ν) (plugin : Plugin κ ν ρ) (memory : ρ)
    (allowance : Nat) (s : EngineState κ ν) : Option (EngineState κ ν × ρ) :=
  (iterate (step p rules plugin) allowance (s, memory)).map fun (s, r) =>
    (s, plugin.onFinish rules s r)

end Engine

end ObjectFlow
