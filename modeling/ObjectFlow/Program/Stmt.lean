/-
  File:      ObjectFlow/Program/Stmt.lean
  Subject:   THREE-ADDRESS STATEMENTS: what they define, what they use and where they jump.

  Classes, fields, methods, variables and subsignatures are referred to by dense ids. Statements
  are generic in their jump targets: while a body is being read targets are labels, in a finished
  program they are statement indices of the same body.
-/
import ObjectFlow.Token

namespace ObjectFlow

/-! ## 1. Ids, sites and types -/

abbrev ClassId := Nat
abbrev FieldId := Nat
abbrev MethodId := Nat
abbrev VarId := Nat
/-- The number of a subsignature such as `int foo(int,A)`. -/
abbrev SubsigId := Nat

/-- A statement, given by its method and its index in the body. -/
structure Site where
  method : MethodId
  index : Nat
  deriving DecidableEq, Inhabited

namespace Site

/-- Sites are ordered by method, then by index. -/
instance : Ord Site where
  compare a b := (compare a.method b.method).then (compare a.index b.index)

/-- The site in the spelling of diagnostics. -/
def render (s : Site) : String :=
  s!"StmtRef \x7b method: MethodId({s.method}), index: {s.index} \x7d"

end Site

/-- Types of variables, fields and objects. -/
inductive Ty where
  | prim (p : Prim)
  | object (c : ClassId)
  | array (elem : Ty)
  deriving DecidableEq, Inhabited

namespace Ty

/-- Types whose values fit a 32-bit integer. -/
def holdsInt : Ty → Bool
  | prim p => p.holdsInt
  | _ => false

def isReference : Ty → Bool
  | prim _ => false
  | _ => true

/-- The class of an object type. -/
def class? : Ty → Option ClassId
  | object c => some c
  | _ => none

end Ty

/-! ## 2. Statements -/

/-- A method as a call names it; the class hierarchy resolves it to a declaration. -/
structure MethodRef where
  owner : ClassId
  subsig : SubsigId
  deriving DecidableEq, Inhabited

structure Invoke where
  kind : CallKind
  target : MethodRef
  /-- The variable holding the receiver; static and dynamic calls have none. -/
  base : Option VarId
  args : List VarId
  result : Option VarId
  deriving DecidableEq, Inhabited

/-- The right side of a plain assignment. -/
inductive Exp where
  | var (v : VarId)
  | int (value : Int32)
  | binary (op : BinaryOp) (left right : VarId)
  | cast (ty : Ty) (v : VarId)
  deriving DecidableEq, Inhabited

/-- A statement whose jumps go to targets in `τ`. -/
inductive StmtOf (τ : Type) where
  /-- Allocates an object of type `ty`; with a length, an array. -/
  | alloc (lhs : VarId) (ty : Ty) (length : Option VarId)
  | assign (lhs : VarId) (rhs : Exp)
  /-- Without a base the field is static. -/
  | loadField (lhs : VarId) (base : Option VarId) (field : FieldId)
  | storeField (base : Option VarId) (field : FieldId) (rhs : VarId)
  | loadArray (lhs base index : VarId)
  | storeArray (base index rhs : VarId)
  | call (invoke : Invoke)
  | branch (left : VarId) (op : BinaryOp) (right : VarId) (target : τ)
  | jump (target : τ)
  | switch (on : VarId) (cases : List (Int32 × τ)) (otherwise : τ)
  | ret (value : Option VarId)
  | nop
  deriving DecidableEq, Inhabited

/-- A statement of a finished program: targets are statement indices. -/
abbrev Stmt := StmtOf Nat

namespace StmtOf

variable {τ : Type}

/-- The variable the statement assigns. -/
def defined? : StmtOf τ → Option VarId
  | alloc lhs _ _ | assign lhs _ | loadField lhs _ _ | loadArray lhs _ _ => some lhs
  | call invoke => invoke.result
  | _ => none

/-- The variables the statement reads. -/
def uses : StmtOf τ → List VarId
  | alloc _ _ length => length.toList
  | assign _ (.var v) | assign _ (.cast _ v) => [v]
  | assign _ (.int _) => []
  | assign _ (.binary _ left right) => [left, right]
  | loadField _ base _ => base.toList
  | storeField base _ rhs => base.toList ++ [rhs]
  | loadArray _ base index => [base, index]
  | storeArray base index rhs => [base, index, rhs]
  | call invoke => invoke.base.toList ++ invoke.args
  | branch left _ right _ => [left, right]
  | switch on _ _ => [on]
  | ret value => value.toList
  | jump _ | nop => []

def invoke? : StmtOf τ → Option Invoke
  | call invoke => some invoke
  | _ => none

/-- The variable a return statement gives back. -/
def returned? : StmtOf τ → Option VarId
  | ret value => value
  | _ => none

/-- The jump targets in the order they are written. -/
def targets : StmtOf τ → List τ
  | branch _ _ _ target | jump target => [target]
  | switch _ cases otherwise => cases.map (·.2) ++ [otherwise]
  | _ => []

/-- Resolves the targets of the cases of a switch, in order. -/
def resolveCases {ε τ' : Type} (f : τ → Except ε τ') :
    List (Int32 × τ) → Except ε (List (Int32 × τ'))
  | [] => .ok []
  | (value, target) :: rest => do
    let target ← f target
    let rest ← resolveCases f rest
    return (value, target) :: rest

/-- Resolves every jump target, in the order they are written. -/
def resolve {ε τ' : Type} (f : τ → Except ε τ') : StmtOf τ → Except ε (StmtOf τ')
  | alloc lhs ty length => .ok (.alloc lhs ty length)
  | assign lhs rhs => .ok (.assign lhs rhs)
  | loadField lhs base field => .ok (.loadField lhs base field)
  | storeField base field rhs => .ok (.storeField base field rhs)
  | loadArray lhs base index => .ok (.loadArray lhs base index)
  | storeArray base index rhs => .ok (.storeArray base index rhs)
  | call invoke => .ok (.call invoke)
  | branch left op right target => do return .branch left op right (← f target)
  | jump target => do return .jump (← f target)
  | switch on cases otherwise => do
    let cases ← resolveCases f cases
    return .switch on cases (← f otherwise)
  | ret value => .ok (.ret value)
  | nop => .ok .nop

end StmtOf

end ObjectFlow
