/-
  File:      ObjectFlow/Text/Blank.lean
  Subject:   WHITE SPACE in texts: which characters are blank, and how texts are trimmed and
             cut at them.
-/
namespace ObjectFlow.Text

/-! ## 1. Blank characters -/

/-- The characters with the Unicode property `White_Space`. -/
def isBlank (c : Char) : Bool :=
  let n := c.toNat
  (9 ≤ n && n ≤ 13) || n == 0x20 || n == 0x85 || n == 0xA0 || n == 0x1680
    || (0x2000 ≤ n && n ≤ 0x200A) || n == 0x2028 || n == 0x2029 || n == 0x202F
    || n == 0x205F || n == 0x3000

/-! ## 2. Trimming -/

def trimStart (cs : List Char) : List Char := cs.dropWhile isBlank

/-- Drops the longest end of the text on which `p` holds throughout. -/
def dropEndWhile (p : Char → Bool) (cs : List Char) : List Char :=
  (cs.reverse.dropWhile p).reverse

def trimEnd (cs : List Char) : List Char := dropEndWhile isBlank cs

def trim (cs : List Char) : List Char := trimEnd (trimStart cs)

/-- The text without the blanks at its two ends. -/
def trimmed (s : String) : String := String.ofList (trim s.toList)

/-! ## 3. Cutting -/

/-- Cuts at the first `sep`, which belongs to neither part. -/
def cutAt (sep : Char) : List Char → Option (List Char × List Char)
  | [] => none
  | c :: rest =>
    if c = sep then some ([], rest)
    else (cutAt sep rest).map fun (before, after) => (c :: before, after)

/-- The pieces between the occurrences of `sep`; there is always one more piece than there are
    occurrences. -/
def splitAll (sep : Char) : List Char → List (List Char)
  | [] => [[]]
  | c :: rest =>
    if c = sep then [] :: splitAll sep rest
    else
      match splitAll sep rest with
      | [] => [[c]]
      | piece :: pieces => (c :: piece) :: pieces

/-- Maximal blank-free pieces; `word` holds the piece being read. -/
def wordsFrom (word : List Char) : List Char → List (List Char)
  | [] => if word.isEmpty then [] else [word]
  | c :: rest =>
    if isBlank c then
      if word.isEmpty then wordsFrom [] rest else word :: wordsFrom [] rest
    else wordsFrom (word ++ [c]) rest

/-- The maximal blank-free pieces of a text. -/
def words (cs : List Char) : List (List Char) := wordsFrom [] cs

/-- Joins pieces with a separator between neighbours. -/
def joinWith (sep : List Char) : List (List Char) → List Char
  | [] => []
  | [piece] => piece
  | piece :: rest => piece ++ sep ++ joinWith sep rest

/-- The text without `front` at its start; `none` when it starts otherwise. -/
def dropFront? : (front cs : List Char) → Option (List Char)
  | [], cs => some cs
  | _ :: _, [] => none
  | f :: front, c :: cs => if f = c then dropFront? front cs else none

/-- The text without `back` at its end; `none` when it ends otherwise. -/
def dropBack? (back cs : List Char) : Option (List Char) :=
  (dropFront? back.reverse cs.reverse).map List.reverse

end ObjectFlow.Text
