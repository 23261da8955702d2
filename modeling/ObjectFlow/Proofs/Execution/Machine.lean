/-
  File:      ObjectFlow/Proofs/Execution/Machine.lean
  Subject:   HOW PROGRAMS RUN: a machine of frames, static fields and a heap of objects, one
             statement at a step.

  Variables, fields and elements hold null, an integer or a reference. An object keeps the
  statement that allocated it and its type, and calls are resolved on that type. What a run may
  do otherwise is left as open as possible: operators mean anything that gives integers, storage
  starts with any values that are no references, and a call that reaches no body gives back any
  such value. A statement that fails (a null base, a failed cast, an index out of bounds) takes
  no step; as a run may end anywhere, it is not said which do.

  * `Step`: one statement of the innermost frame;
  * `Run`: finite runs, with the calls performed on the way.
-/
import ObjectFlow.Program.Hierarchy

namespace ObjectFlow

namespace Execution

/-! ## 1. Values and storage -/

inductive Value where
  | null
  | int (n : Int)
  | ref (address : Nat)

/-- Null and the integers. -/
def Value.IsPlain : Value → Prop
  | null | int _ => True
  | ref _ => False

/-- What a cast that goes through makes of a value: integers may be narrowed, references and null
    stay what they are. -/
def Value.CastsTo : Value → Value → Prop
  | int _, w => ∃ n, w = int n
  | v, w => w = v

/-- An object, with the statement that allocated it. -/
structure Obj where
  site : Site
  ty : Ty
  fields : FieldId → Value
  elements : Int → Value

namespace Obj

/-- The object as it is allocated holds no references. -/
def IsNew (o : Obj) : Prop := (∀ f, (o.fields f).IsPlain) ∧ ∀ n, (o.elements n).IsPlain

def setField (o : Obj) (f : FieldId) (w : Value) : Obj :=
  { o with fields := fun g => if g = f then w else o.fields g }

def setElement (o : Obj) (n : Int) (w : Value) : Obj :=
  { o with elements := fun k => if k = n then w else o.elements k }

end Obj

/-- The objects by address. -/
abbrev Memory := Nat → Option Obj

def Memory.write (heap : Memory) (a : Nat) (o : Obj) : Memory :=
  fun b => if b = a then some o else heap b

/-! ## 2. Frames and machines -/

/-- A method being executed: the next statement and the values of its variables. -/
structure Frame where
  method : MethodId
  index : Nat
  locals : VarId → Value

namespace Frame

def site (f : Frame) : Site := ⟨f.method, f.index⟩

def goto (f : Frame) (index : Nat) : Frame := { f with index := index }

def next (f : Frame) : Frame := f.goto (f.index + 1)

def assign (f : Frame) (x : VarId) (w : Value) : Frame :=
  { f with locals := fun v => if v = x then w else f.locals v }

/-- Takes what a call gives back, if the call asks for it. -/
def receive (f : Frame) (result : Option VarId) (w : Value) : Frame :=
  match result with
  | some x => f.assign x w
  | none => f

end Frame

/-- The frames, innermost first; all but the innermost wait at the call they performed. -/
structure Machine where
  frames : List Frame
  statics : FieldId → Value
  heap : Memory

/-- What binary operators give, if anything. -/
abbrev Operators := BinaryOp → Value → Value → Int → Prop

/-- A call of a method at a site. -/
structure Call where
  site : Site
  callee : MethodId

/-! ## 3. Statements that only assign or only jump -/

/-- The value a statement gives the variable it assigns, where it changes nothing else. -/
inductive Yields (meaning : Operators) (statics : FieldId → Value) (heap : Memory)
    (env : VarId → Value) : Stmt → VarId → Value → Prop where
  | copy {x y} : Yields meaning statics heap env (.assign x (.var y)) x (env y)
  | int {x n} : Yields meaning statics heap env (.assign x (.int n)) x (.int n.toInt)
  | binary {x op l r n} : meaning op (env l) (env r) n →
      Yields meaning statics heap env (.assign x (.binary op l r)) x (.int n)
  | cast {x ty y w} : (env y).CastsTo w →
      Yields meaning statics heap env (.assign x (.cast ty y)) x w
  | loadStatic {x f} : Yields meaning statics heap env (.loadField x none f) x (statics f)
  | loadField {x b f a o} : env b = .ref a → heap a = some o →
      Yields meaning statics heap env (.loadField x (some b) f) x (o.fields f)
  | loadArray {x b k a o n} : env b = .ref a → heap a = some o → env k = .int n →
      Yields meaning statics heap env (.loadArray x b k) x (o.elements n)

/-- Where a statement that only directs control goes on. -/
inductive Goes (meaning : Operators) (env : VarId → Value) (index : Nat) : Stmt → Nat → Prop where
  | nop : Goes meaning env index .nop (index + 1)
  | jump {target} : Goes meaning env index (.jump target) target
  | taken {l op r target n} : meaning op (env l) (env r) n → n ≠ 0 →
      Goes meaning env index (.branch l op r target) target
  | passed {l op r target} : meaning op (env l) (env r) 0 →
      Goes meaning env index (.branch l op r target) (index + 1)
  | switch {on cases otherwise n} : env on = .int n →
      Goes meaning env index (.switch on cases otherwise)
        (((cases.find? fun c => c.1.toInt = n).map (·.2)).getD otherwise)

/-! ## 4. Calls -/

/-- The object a call is performed on, and the method it reaches: static and dynamic calls are
    performed on none, all others on the object their base holds. -/
inductive Resolves (p : Program) (heap : Memory) (env : VarId → Value) (i : Invoke) :
    Option Nat → Option MethodId → Prop where
  | free : i.kind = .static ∨ i.kind = .dynamic →
      Resolves p heap env i none (p.callee? none i)
  | on {b a o} : i.kind ≠ .static → i.kind ≠ .dynamic → i.base = some b → env b = .ref a →
      heap a = some o → Resolves p heap env i (some a) (p.callee? (some o.ty) i)

/-- The variables of a method when it is entered: the receiver and the arguments, and what
    `others` says for all else. -/
def entryLocals (m : MethodDecl) (receiver : Option Nat) (args : List Value)
    (others : VarId → Value) (v : VarId) : Value :=
  if m.this = some v then (receiver.map .ref).getD (others v)
  else ((m.params.zip args).lookup v).getD (others v)

/-- A frame that is about to return, with the value it gives back. A body also returns at its
    end; without a variable to return any plain value is given. -/
inductive Returns (p : Program) (f : Frame) : Value → Prop where
  | var {v} : p.stmt? f.site = some (.ret (some v)) → Returns p f (f.locals v)
  | void {w} : p.stmt? f.site = some (.ret none) → w.IsPlain → Returns p f w
  | atEnd {w} : p.stmt? f.site = none → w.IsPlain → Returns p f w

/-! ## 5. Steps and runs -/

/-- **One statement of the innermost frame**, with the call it performs. -/
inductive Step (p : Program) (meaning : Operators) : Machine → Option Call → Machine → Prop where
  | assign {f rest statics heap stmt x w} : p.stmt? f.site = some stmt →
      Yields meaning statics heap f.locals stmt x w →
      Step p meaning ⟨f :: rest, statics, heap⟩ none ⟨(f.assign x w).next :: rest, statics, heap⟩
  | go {f rest statics heap stmt index} : p.stmt? f.site = some stmt →
      Goes meaning f.locals f.index stmt index →
      Step p meaning ⟨f :: rest, statics, heap⟩ none ⟨f.goto index :: rest, statics, heap⟩
  | alloc {f rest statics heap x ty length a o} : p.stmt? f.site = some (.alloc x ty length) →
      heap a = none → o.site = f.site → o.ty = ty → o.IsNew →
      Step p meaning ⟨f :: rest, statics, heap⟩ none
        ⟨(f.assign x (.ref a)).next :: rest, statics, heap.write a o⟩
  | storeStatic {f rest statics heap field y} : p.stmt? f.site = some (.storeField none field y) →
      Step p meaning ⟨f :: rest, statics, heap⟩ none
        ⟨f.next :: rest, fun g => if g = field then f.locals y else statics g, heap⟩
  | storeField {f rest statics heap b field y a o} :
      p.stmt? f.site = some (.storeField (some b) field y) →
      f.locals b = .ref a → heap a = some o →
      Step p meaning ⟨f :: rest, statics, heap⟩ none
        ⟨f.next :: rest, statics, heap.write a (o.setField field (f.locals y))⟩
  | storeArray {f rest statics heap b k y a o n} : p.stmt? f.site = some (.storeArray b k y) →
      f.locals b = .ref a → heap a = some o → f.locals k = .int n →
      Step p meaning ⟨f :: rest, statics, heap⟩ none
        ⟨f.next :: rest, statics, heap.write a (o.setElement n (f.locals y))⟩
  | enter {f rest statics heap i receiver callee others} : p.stmt? f.site = some (.call i) →
      Resolves p heap f.locals i receiver (some callee) → (p.methodAt callee).hasBody = true →
      (∀ v, (others v).IsPlain) →
      Step p meaning ⟨f :: rest, statics, heap⟩ (some ⟨f.site, callee⟩)
        ⟨⟨callee, 0, entryLocals (p.methodAt callee) receiver (i.args.map f.locals) others⟩ ::
          f :: rest, statics, heap⟩
  | pass {f rest statics heap i receiver callee? w} : p.stmt? f.site = some (.call i) →
      Resolves p heap f.locals i receiver callee? →
      (∀ callee, callee? = some callee → (p.methodAt callee).hasBody = false) → w.IsPlain →
      Step p meaning ⟨f :: rest, statics, heap⟩ (callee?.map fun callee => ⟨f.site, callee⟩)
        ⟨(f.receive i.result w).next :: rest, statics, heap⟩
  | leave {f g rest statics heap i w} : Returns p f w → p.stmt? g.site = some (.call i) →
      Step p meaning ⟨f :: g :: rest, statics, heap⟩ none
        ⟨(g.receive i.result w).next :: rest, statics, heap⟩
  | exit {f statics heap w} : Returns p f w →
      Step p meaning ⟨[f], statics, heap⟩ none ⟨[], statics, heap⟩

/-- A machine about to enter a method, with plain values everywhere and nothing allocated. -/
structure Starts (entry : MethodId) (m : Machine) : Prop where
  frames : ∃ env : VarId → Value, (∀ v, (env v).IsPlain) ∧ m.frames = [⟨entry, 0, env⟩]
  statics : ∀ f, (m.statics f).IsPlain
  heap : ∀ a, m.heap a = none

/-- **Finite runs**, with the calls performed from the first to the last. -/
inductive Run (p : Program) (meaning : Operators) (s : Machine) : List Call → Machine → Prop where
  | start : Run p meaning s [] s
  | step {calls t call u} : Run p meaning s calls t → Step p meaning t call u →
      Run p meaning s (calls ++ call.toList) u

end Execution

end ObjectFlow
