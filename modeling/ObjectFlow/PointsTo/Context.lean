/-
  File:      ObjectFlow/PointsTo/Context.lean
  Subject:   CONTEXTS: bounded sequences of call sites, objects or classes, and the selectors
             that choose them.
-/
import ObjectFlow.PointsTo.Heap
import ObjectFlow.Text.Decimal

namespace ObjectFlow

/-! ## 1. Contexts -/

abbrev ContextId := Nat

inductive ContextElem where
  | site (s : Site)
  | object (o : ObjectId)
  | type (c : ClassId)
  deriving DecidableEq, Inhabited

/-- The contexts in use. A context is a sequence of elements, the oldest first; the empty one has
    number 0. -/
structure Contexts where
  table : Interner (List ContextElem) := ⟨#[[]]⟩

namespace Contexts

instance : Inhabited Contexts := ⟨{}⟩

/-- The number of the empty context. -/
def empty : ContextId := 0

def size (cs : Contexts) : Nat := cs.table.size

def elems (cs : Contexts) (c : ContextId) : List ContextElem := (cs.table.get? c).getD []

def intern (cs : Contexts) (elems : List ContextElem) : ContextId × Contexts :=
  let (c, table) := cs.table.intern elems
  (c, ⟨table⟩)

/-- The `limit` newest elements. -/
def newest (limit : Nat) (elems : List ContextElem) : List ContextElem :=
  elems.drop (elems.length - limit)

/-- A context with one more element, cut to the `limit` newest. -/
def append (cs : Contexts) (c : ContextId) (e : ContextElem) (limit : Nat) : ContextId × Contexts :=
  cs.intern (newest limit (cs.elems c ++ [e]))

/-- A context cut to the `limit` newest elements. -/
def suffix (cs : Contexts) (c : ContextId) (limit : Nat) : ContextId × Contexts :=
  cs.intern (newest limit (cs.elems c))

def elemText (p : Program) (h : Heap) : ContextElem → String
  | .site s => p.siteText s
  | .object o => h.render p o
  | .type c => (p.classAt c).name

/-- A context as text. -/
def render (cs : Contexts) (p : Program) (h : Heap) (c : ContextId) : String :=
  "[" ++ ", ".intercalate ((cs.elems c).map (elemText p h)) ++ "]"

end Contexts

/-- Something under a context. -/
structure Qualified (κ α : Type) where
  context : κ
  item : α
  deriving DecidableEq, Inhabited

/-! ## 2. Selectors -/

/-- How contexts are chosen; the number is the depth of the contexts. -/
inductive Selector where
  | insensitive
  | callSite (k : Nat)
  | object (k : Nat)
  | type (k : Nat)
  deriving DecidableEq, Inhabited

namespace Selector

/-- The class whose method allocated an object. A merged object has no single allocation and
    falls back to its own class. -/
def allocationClass? (p : Program) (h : Heap) (o : ObjectId) : Option ClassId :=
  let object := h.objectAt o
  match object.kind with
  | .alloc site => some (p.methodAt site.method).owner
  | .taint source => some (p.methodAt source.method).owner
  | .merged => object.ty.class?

/-- The context of a called method. Call-site contexts grow by the call. Object and type contexts
    extend the heap context of the receiver; without a receiver, and without a class to extend
    by, the caller's context is kept. -/
def calleeContext (s : Selector) (p : Program) (h : Heap) (cs : Contexts)
    (site : Qualified ContextId Site) (receiver : Option (Qualified ContextId ObjectId)) :
    ContextId × Contexts :=
  match s, receiver with
  | insensitive, _ => (Contexts.empty, cs)
  | callSite k, _ => cs.append site.context (.site site.item) k
  | object k, some r => cs.append r.context (.object r.item) k
  | object _, none => (site.context, cs)
  | type k, some r =>
    match allocationClass? p h r.item with
    | some c => cs.append r.context (.type c) k
    | none => (site.context, cs)
  | type _, none => (site.context, cs)

/-- The heap context of an object allocated under a context: one element shallower. -/
def heapContext (s : Selector) (cs : Contexts) (context : ContextId) : ContextId × Contexts :=
  match s with
  | insensitive => (Contexts.empty, cs)
  | callSite k | object k | type k => cs.suffix context (k - 1)

/-! ## 3. Selectors by name -/

/-- Why a text names no selector. -/
inductive Error where
  | unknown (text : String)
  | zeroDepth (text : String)
  deriving DecidableEq

def Error.message : Error → String
  | unknown text => "unknown context sensitivity '" ++ text
      ++ "', expected 'ci', 'k-call', 'k-obj', or 'k-type'"
  | zeroDepth text => "context depth must be at least 1 in '" ++ text ++ "'"

/-- The selector of a kind and a depth. -/
def ofKind? (kind : String) (k : Nat) : Option Selector :=
  match kind with
  | "call" => some (callSite k)
  | "obj" => some (object k)
  | "type" => some (type k)
  | _ => none

/-- The kind and the depth written in a name such as `2-obj`. -/
def cutName? (name : List Char) : Option (Selector × Nat) := do
  let (depth, kind) ← Text.cutAt '-' name
  let k ← Text.readWord64? depth
  let s ← ofKind? (String.ofList kind) k
  return (s, k)

/-- The selector a text names; blanks around the name do not matter, and a depth is at least 1. -/
def ofName (text : String) : Except Error Selector :=
  let name := Text.trim text.toList
  if name = "ci".toList ∨ name = "insensitive".toList then .ok insensitive
  else
    match cutName? name with
    | none => .error (.unknown text)
    | some (s, k) => if k = 0 then .error (.zeroDepth text) else .ok s

def name : Selector → String
  | insensitive => "ci"
  | callSite k => toString k ++ "-call"
  | object k => toString k ++ "-obj"
  | type k => toString k ++ "-type"

end Selector

end ObjectFlow
