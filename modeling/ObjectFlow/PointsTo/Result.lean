/-
  File:      ObjectFlow/PointsTo/Result.lean
  Subject:   RESULTS of the pointer analysis, with contexts and without.
-/
import ObjectFlow.PointsTo.Engine

namespace ObjectFlow

/-! ## 1. Results without contexts -/

/-- What is pointed to when contexts are not told apart. -/
structure PlainResult where
  heap : Heap
  calls : PlainCallGraph
  /-- Every pointer with the objects it points to, each pointer once. -/
  sets : List (Pointer Unit × IdSet)

namespace PlainResult

def pointsTo (r : PlainResult) (a : Pointer Unit) : IdSet := (r.sets.lookup a).getD .empty

/-- What a variable points to; nothing for variables of methods that are not reached. -/
def varPointsTo (r : PlainResult) (v : VarId) : IdSet := r.pointsTo (.var () v)

def staticPointsTo (r : PlainResult) (f : FieldId) : IdSet := r.pointsTo (.staticField f)

def fieldPointsTo (r : PlainResult) (o : ObjectId) (f : FieldId) : IdSet := r.pointsTo (.field o f)

def elementPointsTo (r : PlainResult) (o : ObjectId) : IdSet := r.pointsTo (.element o)

/-- Whether two variables may hold the same object. -/
def mayAlias (r : PlainResult) (a b : VarId) : Bool :=
  (r.varPointsTo a).intersects (r.varPointsTo b)

/-- One line for each variable that points to something, in the order of the variables. -/
def render (r : PlainResult) (p : Program) : String :=
  let line (v : VarId) :=
    let objects := r.varPointsTo v
    if objects.isEmpty then ""
    else
      p.signature (p.varAt v).method ++ "/" ++ p.varName v ++ " -> ["
        ++ ", ".intercalate (objects.elems.map (r.heap.render p)) ++ "]\n"
  String.join ((List.range p.vars.size).map line)

end PlainResult

/-! ## 2. Results with contexts -/

/-- The contexts in use and the objects, each a heap object under a heap context. -/
structure ContextNames where
  contexts : Contexts := {}
  objects : Interner (Qualified ContextId ObjectId) := {}
  deriving Inhabited

namespace ContextNames

def objectAt (ns : ContextNames) (object : Nat) : Qualified ContextId ObjectId :=
  (ns.objects.get? object).getD default

/-- The number of a heap object under a heap context. -/
def intern (ns : ContextNames) (object : Qualified ContextId ObjectId) : Nat × ContextNames :=
  let (id, objects) := ns.objects.intern object
  (id, { ns with objects := objects })

end ContextNames

/-- What is pointed to under each context. -/
structure ContextResult where
  heap : Heap
  names : ContextNames
  calls : ContextCallGraph ContextId
  /-- Every pointer with the objects it points to, each pointer once. -/
  sets : List (Pointer ContextId × IdSet)

namespace ContextResult

def pointsTo (r : ContextResult) (a : Pointer ContextId) : IdSet := (r.sets.lookup a).getD .empty

def heapObject (r : ContextResult) (object : Nat) : ObjectId := (r.names.objectAt object).item

/-- The contexts a variable was analysed under, in the order of their numbers. -/
def contextsOf (r : ContextResult) (v : VarId) : List ContextId :=
  (IdSet.ofList (r.sets.filterMap fun (a, _) =>
    match a with
    | .var c w => if w = v then some c else none
    | _ => none)).elems

/-- The heap objects a variable points to under a context. -/
def heapObjectsOf (r : ContextResult) (c : ContextId) (v : VarId) : IdSet :=
  (r.pointsTo (.var c v)).image r.heapObject

/-- A pointer without its contexts. -/
def plainPointer (r : ContextResult) : Pointer ContextId → Pointer Unit
  | .var _ v => .var () v
  | .staticField f => .staticField f
  | .field object f => .field (r.heapObject object) f
  | .element object => .element (r.heapObject object)

/-- Adds objects to a pointer of a list. -/
def addTo (a : Pointer Unit) (objects : IdSet) :
    List (Pointer Unit × IdSet) → List (Pointer Unit × IdSet)
  | [] => [(a, objects)]
  | (b, set) :: rest =>
    if b = a then (b, set.union objects) :: rest else (b, set) :: addTo a objects rest

/-- The result with all contexts forgotten: what is pointed to under any of them. -/
def forget (r : ContextResult) : PlainResult where
  heap := r.heap
  calls := r.calls.rename (·.item) (·.item)
  sets := r.sets.foldl
    (fun sets (a, objects) => addTo (r.plainPointer a) (objects.image r.heapObject) sets) []

/-- One line for each variable and context that point to something. -/
def render (r : ContextResult) (p : Program) : String :=
  let context (c : ContextId) := r.names.contexts.render p r.heap c
  let object (id : Nat) :=
    let o := r.names.objectAt id
    context o.context ++ ":" ++ r.heap.render p o.item
  let line (v : VarId) (c : ContextId) :=
    let objects := r.pointsTo (.var c v)
    if objects.isEmpty then ""
    else
      context c ++ ":" ++ p.signature (p.varAt v).method ++ "/" ++ p.varName v ++ " -> ["
        ++ ", ".intercalate (objects.elems.map object) ++ "]\n"
  String.join ((List.range p.vars.size).map fun v => String.join ((r.contextsOf v).map (line v)))

end ContextResult

end ObjectFlow
