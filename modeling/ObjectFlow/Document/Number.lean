/-
  File:      ObjectFlow/Document/Number.lean
  Subject:   NUMBERS IN SETTINGS: which plain texts read as a number.

  An integer has a sign at most, and is written in base sixteen, eight, two or ten. It reads as a
  number as long as 128 bits can hold it. A decimal fraction reads as a number as long as it does
  not round to infinity. Every other text is a word.
-/
import ObjectFlow.Text.Decimal

namespace ObjectFlow.Document

/-! ## 1. Integers -/

/-- The value of a digit in bases up to sixteen. -/
def digitValue? (base : Nat) (c : Char) : Option Nat :=
  let value :=
    if c.isDigit then some (c.toNat - 48)
    else if 'a' ≤ c ∧ c ≤ 'f' then some (c.toNat - 87)
    else if 'A' ≤ c ∧ c ≤ 'F' then some (c.toNat - 55)
    else none
  value.filter (· < base)

/-- The value of a non-empty string of digits. -/
def readBase? (base : Nat) (cs : List Char) : Option Nat :=
  if cs.isEmpty then none
  else cs.foldlM (fun n c => (digitValue? base c).map (base * n + ·)) 0

/-- A natural number without a sign. Further digits never follow a leading zero. -/
def readNatural? : List Char → Option Nat
  | '0' :: 'x' :: digits => readBase? 16 digits
  | '0' :: 'o' :: digits => readBase? 8 digits
  | '0' :: 'b' :: digits => readBase? 2 digits
  | '0' :: _ :: _ => none
  | digits => Text.readDigits? digits

/-- An integer: a natural number behind at most one sign. -/
def readInteger? : List Char → Option Int
  | '+' :: digits => (readNatural? digits).map Int.ofNat
  | '-' :: digits => (readNatural? digits).map fun n => -Int.ofNat n
  | digits => (readNatural? digits).map Int.ofNat

/-- The number of unsigned 128-bit numbers. -/
def word128Count : Nat := 340282366920938463463374607431768211456

/-- Whether a signed or an unsigned 128-bit number has this value. -/
def fitsWord128 : Int → Bool
  | .ofNat n => n < word128Count
  | .negSucc n => n < word128Count / 2

/-! ## 2. Fractions -/

/-- Drops a sign. -/
def unsigned : List Char → List Char
  | '+' :: rest => rest
  | '-' :: rest => rest
  | cs => cs

/-- The value of an exponent: a mark, at most one sign, and digits; none at all is zero. -/
def readExponent? : List Char → Option Int
  | [] => some 0
  | mark :: rest =>
    if mark = 'e' ∨ mark = 'E' then
      (Text.readDigits? (unsigned rest)).map fun n =>
        if rest.head? = some '-' then -Int.ofNat n else Int.ofNat n
    else none

/-- A decimal fraction without its sign: the number its digits make, times ten to a power. -/
structure Fraction where
  digits : List Char
  power : Int

/-- Reads digits with at most one point among them, then perhaps an exponent. -/
def readFraction? (cs : List Char) : Option Fraction :=
  let whole := cs.takeWhile Char.isDigit
  let (places, rest) := match cs.dropWhile Char.isDigit with
    | '.' :: rest => (rest.takeWhile Char.isDigit, rest.dropWhile Char.isDigit)
    | rest => ([], rest)
  let digits := whole ++ places
  if digits.isEmpty then none
  else (readExponent? rest).map fun power => ⟨digits, power - Int.ofNat places.length⟩

/-- The least number that rounds to infinity: it lies half way between the largest number of
    double precision and the next power of two. -/
def roundsToInfinity : Nat := Nat.pow 2 1024 - Nat.pow 2 970

/-- Whether a fraction does not round to infinity. A number of `n` digits is below ten to the
    power `n`, and ten to the power 400 is too large; so no huge power is ever computed. -/
def Fraction.isFinite (f : Fraction) : Bool :=
  let number := Text.digitsValue f.digits
  match f.power with
  | .ofNat p => number = 0 || (p ≤ 400 && number * Nat.pow 10 p < roundsToInfinity)
  | .negSucc p =>
    f.digits.length ≤ p + 1 || number < roundsToInfinity * Nat.pow 10 (p + 1)

/-! ## 3. Numbers -/

/-- The texts that stand for a number without digits. -/
def specialNumbers : List String :=
  [".inf", ".Inf", ".INF", "+.inf", "+.Inf", "+.INF", "-.inf", "-.Inf", "-.INF",
    ".nan", ".NaN", ".NAN"]

/-- Whether a text has digits only, the first of several being a zero. -/
def isPadded (cs : List Char) : Bool :=
  cs.length > 1 && cs.head? == some '0' && cs.all Char.isDigit

/-- Whether a text is a number: an integer, a fraction or one of the special ones. Digits behind a
    leading zero make a word. -/
def isNumber (cs : List Char) : Bool :=
  let body := unsigned cs
  (readInteger? cs).any fitsWord128
    || (!isPadded body && (readFraction? body).any Fraction.isFinite)
    || specialNumbers.contains (String.ofList cs)

end ObjectFlow.Document
