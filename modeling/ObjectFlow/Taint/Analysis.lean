/-
  File:      ObjectFlow/Taint/Analysis.lean
  Subject:   TAINT TRACKING on top of the pointer analysis.

  Tainted data is modelled by objects that a call of a source method makes; they flow like any
  other objects. A transfer re-tags the taint objects of one slot with the type of another. When
  the analysis is over, each taint object at an argument that is a sink is a flow.
-/
import ObjectFlow.PointsTo.Analysis
import ObjectFlow.Taint.Rules

namespace ObjectFlow

/-! ## 1. Flows -/

/-- Data made at `source` reaches argument `index` of the call at `sink`. -/
structure TaintFlow where
  source : Site
  sink : Site
  index : Nat
  deriving DecidableEq, Inhabited

namespace TaintFlow

/-- Flows are ordered by source, sink and argument. -/
instance : Ord TaintFlow where
  compare a b :=
    ((compare a.source b.source).then (compare a.sink b.sink)).then (compare a.index b.index)

def render (f : TaintFlow) (p : Program) : String :=
  "TaintFlow\x7b" ++ p.siteText f.source ++ " -> " ++ p.siteText f.sink ++ "/"
    ++ toString f.index ++ "\x7d"

/-- Puts a flow at its place in an ascending list, once. -/
def insert (f : TaintFlow) : List TaintFlow → List TaintFlow
  | [] => [f]
  | g :: rest =>
    match compare f g with
    | .lt => f :: g :: rest
    | .eq => g :: rest
    | .gt => g :: insert f rest

end TaintFlow

/-! ## 2. The plugin -/

/-- An edge along which taint objects are re-tagged. -/
structure TaintEdge where
  source : PointerId
  target : PointerId
  ty : Ty
  deriving DecidableEq

/-- An argument of a call that is a sink. -/
structure SinkSlot where
  site : Site
  pointer : PointerId
  index : Nat
  deriving DecidableEq

/-- What the plugin remembers. -/
structure TaintMemory where
  edges : List TaintEdge := []
  sinks : List SinkSlot := []
  /-- The flows found, in ascending order. -/
  flows : List TaintFlow := []
  deriving Inhabited

namespace Taint

variable {κ ν : Type} [DecidableEq κ]

/-- The taint objects among some objects, re-tagged with a type. -/
def retag (rules : Sensitivity κ ν) (ty : Ty) (s : EngineState κ ν) (objects : List Nat) :
    IdSet × EngineState κ ν :=
  objects.foldl (fun (tagged, s) object =>
    match s.taintSource? rules object with
    | some source =>
      let (o, s) := s.taintObject rules source ty
      (tagged.insert o, s)
    | none => (tagged, s)) (IdSet.empty, s)

/-- Sends the taint objects among some objects on to a pointer, re-tagged. -/
def pass (rules : Sensitivity κ ν) (s : EngineState κ ν) (objects : IdSet) (target : PointerId)
    (ty : Ty) : EngineState κ ν :=
  let (tagged, s) := retag rules ty s objects.elems
  if tagged.isEmpty then s else s.send target tagged

/-- The variable in a slot of a call. -/
def slotVar? (i : Invoke) : Slot → Option VarId
  | .base => i.base
  | .result => i.result
  | .arg k => i.args[k]?

/-- The pointer of a slot of a call. -/
def slotPointer (s : EngineState κ ν) (c : κ) (i : Invoke) (slot : Slot) :
    Option PointerId × EngineState κ ν :=
  match slotVar? i slot with
  | none => (none, s)
  | some v =>
    let (id, s) := s.pointer (.var c v)
    (some id, s)

/-- Tainted data a call makes goes to its result. -/
def addSource (rules : Sensitivity κ ν) (site : Site) (c : κ) (result : VarId)
    (s : EngineState κ ν) (ty : Ty) : EngineState κ ν :=
  let (o, s) := s.taintObject rules site ty
  let (id, s) := s.pointer (.var c result)
  s.send id (.singleton o)

/-- Adds the edge of a transfer, if both slots are there; over a new edge, the taint objects the
    source points to already are passed on. -/
def addTransfer (rules : Sensitivity κ ν) (c : κ) (i : Invoke)
    (run : EngineState κ ν × TaintMemory) (t : Transfer) : EngineState κ ν × TaintMemory :=
  let (s, memory) := run
  let (source, s) := slotPointer s c i t.source
  let (target, s) := slotPointer s c i t.target
  match source, target with
  | some source, some target =>
    let e : TaintEdge := ⟨source, target, t.ty⟩
    if e ∈ memory.edges then (s, memory)
    else
      (pass rules s (s.pointsTo source) target t.ty,
        { memory with edges := memory.edges ++ [e] })
  | _, _ => (s, memory)

/-- Remembers an argument that is a sink. -/
def addSink (site : Site) (c : κ) (i : Invoke) (run : EngineState κ ν × TaintMemory) (k : Nat) :
    EngineState κ ν × TaintMemory :=
  let (s, memory) := run
  match i.args[k]? with
  | none => (s, memory)
  | some v =>
    let (id, s) := s.pointer (.var c v)
    let slot : SinkSlot := ⟨site, id, k⟩
    if slot ∈ memory.sinks then (s, memory)
    else (s, { memory with sinks := memory.sinks ++ [slot] })

/-- Takes up a new call edge: sources, transfers, then sinks. -/
def onCall (p : Program) (taint : TaintRules) (rules : Sensitivity κ ν) (e : ContextCallEdge κ)
    (run : EngineState κ ν × TaintMemory) : EngineState κ ν × TaintMemory :=
  match p.invoke? e.site.item with
  | none => run
  | some i =>
    let (s, memory) := run
    let c := e.site.context
    let callee := e.callee.item
    let s := match i.result with
      | some result =>
        (taint.sourcesOf callee).foldl (addSource rules e.site.item c result) s
      | none => s
    let run := (taint.transfersOf callee).foldl (addTransfer rules c i) (s, memory)
    (taint.sinksOf callee).foldl (addSink e.site.item c i) run

/-- Passes new taint objects on along the edges out of their pointer. -/
def onObjects (rules : Sensitivity κ ν) (id : PointerId) (delta : IdSet)
    (run : EngineState κ ν × TaintMemory) : EngineState κ ν × TaintMemory :=
  let (s, memory) := run
  let out := memory.edges.filter (·.source = id)
  (out.foldl (fun s e => pass rules s delta e.target e.ty) s, memory)

/-- The flows into a sink. -/
def flowsInto (rules : Sensitivity κ ν) (s : EngineState κ ν) (sink : SinkSlot) : List TaintFlow :=
  (s.pointsTo sink.pointer).elems.filterMap fun object =>
    (s.taintSource? rules object).map fun source => ⟨source, sink.site, sink.index⟩

/-- The taint analysis as a plugin of the pointer analysis, with contexts or without. -/
def plugin (p : Program) (taint : TaintRules) : Plugin κ ν TaintMemory where
  onObjects := onObjects
  onCall := onCall p taint
  onFinish rules s memory :=
    let found := memory.sinks.flatMap (flowsInto rules s)
    { memory with flows := found.foldl (fun flows f => f.insert flows) memory.flows }

end Taint

/-- Runs the pointer analysis with taint tracking; gives its result and the flows in ascending
    order. -/
def analyzeTaint (p : Program) (options : PointsToOptions) (taint : TaintRules) (entry : MethodId) :
    Option (ContextResult × List TaintFlow) :=
  (ContextSensitive.analyzeWith p options (Taint.plugin p taint) {} entry).map fun (r, memory) =>
    (r, memory.flows)

end ObjectFlow
