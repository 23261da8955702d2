/-
  File:      ObjectFlow/PointsTo/Heap.lean
  Subject:   ABSTRACT HEAP OBJECTS, numbered in the order they are first needed.
-/
import ObjectFlow.Interner
import ObjectFlow.Program.Printer

namespace ObjectFlow

abbrev ObjectId := Nat

/-- How allocations become objects. -/
inductive HeapPolicy where
  /-- One object for each allocation statement. -/
  | allocationSite
  /-- One object for each allocated type. -/
  | type
  deriving DecidableEq, Inhabited

def HeapPolicy.name : HeapPolicy → String
  | .allocationSite => "allocation-site"
  | .type => "type"

/-- The policy with a given name. -/
def HeapPolicy.ofName? (s : String) : Option HeapPolicy :=
  [.allocationSite, .type].find? (·.name = s)

/-- What an object stands for. -/
inductive ObjectKind where
  /-- What one statement allocates. -/
  | alloc (site : Site)
  /-- All that is allocated of one type. -/
  | merged
  /-- Tainted data made by the call at `source`. -/
  | taint (source : Site)
  deriving DecidableEq, Inhabited

structure HeapObject where
  kind : ObjectKind
  ty : Ty
  deriving DecidableEq, Inhabited

/-- The objects in use. -/
structure Heap where
  policy : HeapPolicy := .allocationSite
  objects : Interner HeapObject := {}
  deriving Inhabited

namespace Heap

/-- The object a policy gives an allocation. -/
def objectFor (policy : HeapPolicy) (site : Site) (ty : Ty) : HeapObject :=
  match policy with
  | .allocationSite => ⟨.alloc site, ty⟩
  | .type => ⟨.merged, ty⟩

/-- The number of an object. -/
def intern (h : Heap) (o : HeapObject) : ObjectId × Heap :=
  let (id, objects) := h.objects.intern o
  (id, { h with objects := objects })

/-- The object of an allocation of type `ty` at a site. -/
def allocate (h : Heap) (site : Site) (ty : Ty) : ObjectId × Heap :=
  h.intern (objectFor h.policy site ty)

/-- The object of the allocation at a site; `none` when the statement allocates nothing. -/
def allocateAt? (h : Heap) (p : Program) (site : Site) : Option (ObjectId × Heap) :=
  match p.stmt? site with
  | some (.alloc _ ty _) => some (h.allocate site ty)
  | _ => none

/-- What is said of a statement that allocates nothing. -/
def notAllocation (site : Site) : String := "Statement " ++ site.render ++ " is not an allocation."

/-- The object of tainted data of type `ty` made by the call at `source`. -/
def taint (h : Heap) (source : Site) (ty : Ty) : ObjectId × Heap := h.intern ⟨.taint source, ty⟩

def objectAt (h : Heap) (o : ObjectId) : HeapObject := (h.objects.get? o).getD default

def tyOf (h : Heap) (o : ObjectId) : Ty := (h.objectAt o).ty

def size (h : Heap) : Nat := h.objects.size

/-- The call that made tainted data. -/
def taintSource? (h : Heap) (o : ObjectId) : Option Site :=
  match (h.objectAt o).kind with
  | .taint source => some source
  | _ => none

/-- An object as text. -/
def render (h : Heap) (p : Program) (o : ObjectId) : String :=
  let object := h.objectAt o
  match object.kind with
  | .alloc site => "NewObj\x7b" ++ p.siteText site ++ "\x7d"
  | .merged => "MergedObj\x7b" ++ p.tyName object.ty ++ "\x7d"
  | .taint source => "TaintObj\x7b" ++ p.tyName object.ty ++ ", " ++ p.siteText source ++ "\x7d"

end Heap

end ObjectFlow
