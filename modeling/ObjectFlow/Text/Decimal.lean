/-
  File:      ObjectFlow/Text/Decimal.lean
  Subject:   READING DECIMAL NUMBERS with the bounds of machine words.
-/
namespace ObjectFlow.Text

/-- The value of a string of decimal digits, most significant first. -/
def digitsValue (cs : List Char) : Nat :=
  cs.foldl (fun n c => 10 * n + (c.toNat - 48)) 0

/-- Reads a non-empty string of decimal digits. -/
def readDigits? (cs : List Char) : Option Nat :=
  if !cs.isEmpty && cs.all Char.isDigit then some (digitsValue cs) else none

/-- The number of unsigned 64-bit numbers. -/
def word64Count : Nat := 18446744073709551616

/-- Reads an unsigned 64-bit number: digits, with at most one plus sign in front. -/
def readWord64? (cs : List Char) : Option Nat :=
  let digits := match cs with
    | '+' :: rest => rest
    | _ => cs
  (readDigits? digits).filter (· < word64Count)

/-- Reads a signed 32-bit number: digits, with at most one minus sign in front. -/
def readInt32? (cs : List Char) : Option Int32 :=
  let value : Option Int := match cs with
    | '-' :: rest => (readDigits? rest).map fun n => -(n : Int)
    | _ => (readDigits? cs).map fun n => (n : Int)
  (value.filter fun v => -2147483648 ≤ v && v ≤ 2147483647).map Int32.ofInt

end ObjectFlow.Text
