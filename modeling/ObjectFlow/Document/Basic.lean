/-
  File:      ObjectFlow/Document/Basic.lean
  Subject:   DOCUMENTS: the data a settings file holds, and the ways to look at it.

  A document is a scalar, a list or a mapping. A scalar is plain or quoted: only a plain one can
  stand for a number, a truth value or for nothing.
-/
import ObjectFlow.Document.Number

namespace ObjectFlow

inductive Document where
  | scalar (quoted : Bool) (text : String)
  | list (items : List Document)
  /-- Entries stand in the order they were written. -/
  | mapping (entries : List (String × Document))

namespace Document

/-- What stands for a value that was left out. -/
def nothing : Document := .scalar false ""

/-! ## 1. What a plain scalar stands for -/

/-- The texts that stand for nothing. -/
def nullWords : List String := ["", "~", "null", "Null", "NULL"]

/-- The texts that stand for a truth value. -/
def truthWords : List String := ["true", "True", "TRUE", "false", "False", "FALSE"]

/-! ## 2. Looking at a document -/

/-- The text of a scalar. -/
def text? : Document → Option String
  | scalar _ text => some text
  | _ => none

/-- The text of a scalar that stands for nothing but its text. -/
def word? : Document → Option String
  | scalar true text => some text
  | scalar false text =>
    if nullWords.contains text || truthWords.contains text || isNumber text.toList then none
    else some text
  | _ => none

/-- The natural number below 2^64 that a plain scalar stands for; zero may have a minus sign. -/
def natural? : Document → Option Nat
  | scalar false text =>
    match readInteger? text.toList with
    | some (.ofNat n) => if n < Text.word64Count then some n else none
    | _ => none
  | _ => none

/-- The natural number below 2^64 that a plain scalar without a minus sign stands for. -/
def index? (d : Document) : Option Nat :=
  match d with
  | scalar _ text => if text.toList.head? = some '-' then none else d.natural?
  | _ => none

/-- The items of a list; what was left out is an empty list. -/
def items? : Document → Option (List Document)
  | list items => some items
  | scalar false "" => some []
  | _ => none

/-- The entries of a mapping whose keys are distinct and all `allowed`; what was left out is an
    empty mapping. -/
def fields? (allowed : List String) : Document → Option (List (String × Document))
  | mapping entries =>
    let keys := entries.map (·.1)
    if keys.all allowed.contains ∧ keys.Nodup then some entries else none
  | scalar false "" => some []
  | _ => none

end Document

end ObjectFlow
