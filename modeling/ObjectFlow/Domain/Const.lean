/-
  File:      ObjectFlow/Domain/Const.lean
  Subject:   THE FLAT LATTICE OF 32-BIT CONSTANTS and its arithmetic.

                     NAC
             / ... /  |  \ ... \
            ...   -1  0   1   ...
             \ ... \  |  / ... /
                    UNDEF

  Two constants are folded by the operation of the language: two's complement wrapping
  arithmetic, shift distances taken modulo 32, comparisons that give 1 or 0. A divisor known to
  be zero gives no value at all, whatever the dividend.
-/
import ObjectFlow.Domain.Lattice

namespace ObjectFlow

/-! ## 1. Values -/

/-- What is known of an integer variable. -/
inductive ConstValue where
  /-- Nothing yet: no path assigned the variable. -/
  | undefined
  | const (value : Int32)
  /-- Not a constant: different values may arrive. -/
  | nac
  deriving DecidableEq, Inhabited

namespace ConstValue

def isConst : ConstValue → Bool
  | const _ => true
  | _ => false

/-- The constant, when there is one. -/
def value? : ConstValue → Option Int32
  | const v => some v
  | _ => none

def render : ConstValue → String
  | undefined => "UNDEF"
  | const v => toString v.toInt
  | nac => "NAC"

/-! ## 2. The lattice -/

def join : ConstValue → ConstValue → ConstValue
  | nac, _ => nac
  | _, nac => nac
  | undefined, v => v
  | v, undefined => v
  | const a, const b => if a = b then const a else nac

def meet : ConstValue → ConstValue → ConstValue
  | undefined, _ => undefined
  | _, undefined => undefined
  | nac, v => v
  | v, nac => v
  | const a, const b => if a = b then const a else undefined

def compare? (a b : ConstValue) : Option Ordering :=
  if a = b then some .eq
  else
    match a, b with
    | undefined, _ => some .lt
    | _, nac => some .lt
    | nac, _ => some .gt
    | _, undefined => some .gt
    | _, _ => none

instance : JoinOps ConstValue where
  bottom := undefined
  join := join
  compare? := compare?

instance : MeetOps ConstValue where
  top := nac
  meet := meet

/-! ## 3. Arithmetic -/

/-- Applies an operation of the language: two constants are folded, an unknown operand makes
    the result unknown, and otherwise nothing is known yet. -/
def lift (op : Int32 → Int32 → Int32) : ConstValue → ConstValue → ConstValue
  | const a, const b => const (op a b)
  | nac, _ => nac
  | _, nac => nac
  | _, _ => undefined

/-- Comparisons give 1 for true and 0 for false. -/
def test (op : Int32 → Int32 → Bool) : ConstValue → ConstValue → ConstValue :=
  lift fun a b => if op a b then 1 else 0

/-- Division and remainder: a divisor known to be zero gives no value. -/
def divide (op : Int32 → Int32 → Int32) (a b : ConstValue) : ConstValue :=
  if b = const 0 then undefined else lift op a b

end ConstValue

/-! ## 4. Operators -/

/-- The binary operators of the language. -/
inductive BinaryOp where
  | add | sub | mul | div | rem | and | or | xor | shl | shr | ushr
  | eq | ne | lt | gt | le | ge
  deriving DecidableEq, Inhabited

namespace BinaryOp

def isComparison : BinaryOp → Bool
  | eq | ne | lt | gt | le | ge => true
  | _ => false

def symbol : BinaryOp → String
  | add => "+"
  | sub => "-"
  | mul => "*"
  | div => "/"
  | rem => "%"
  | and => "&"
  | or => "|"
  | xor => "^"
  | shl => "<<"
  | shr => ">>"
  | ushr => ">>>"
  | eq => "=="
  | ne => "!="
  | lt => "<"
  | gt => ">"
  | le => "<="
  | ge => ">="

/-- Every operator. -/
def all : List BinaryOp :=
  [add, sub, mul, div, rem, and, or, xor, shl, shr, ushr, eq, ne, lt, gt, le, ge]

/-- The value of the operator on what is known of its operands. -/
def eval : BinaryOp → ConstValue → ConstValue → ConstValue
  | add => .lift (· + ·)
  | sub => .lift (· - ·)
  | mul => .lift (· * ·)
  | div => .divide (· / ·)
  | rem => .divide (· % ·)
  | and => .lift (· &&& ·)
  | or => .lift (· ||| ·)
  | xor => .lift (· ^^^ ·)
  | shl => .lift (· <<< ·)
  | shr => .lift (· >>> ·)
  | ushr => .lift fun a b => (a.toUInt32 >>> b.toUInt32).toInt32
  | eq => .test (· == ·)
  | ne => .test (· != ·)
  | lt => .test fun a b => decide (a < b)
  | gt => .test fun a b => decide (b < a)
  | le => .test fun a b => decide (a ≤ b)
  | ge => .test fun a b => decide (b ≤ a)

end BinaryOp

end ObjectFlow
