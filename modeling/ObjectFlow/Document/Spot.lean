/-
  File:      ObjectFlow/Document/Spot.lean
  Subject:   SPOTS: the characters of a settings file with their places.

  Where a character stands decides what it means: a key belongs to the mapping of its column, and
  a key and its colon share a line.
-/
namespace ObjectFlow.Document

/-! ## 1. Characters -/

/-- Blanks within a line. -/
def isSpace (c : Char) : Bool := c = ' ' || c = '\t'

/-- Line breaks, once all others are newlines. -/
def isBreak (c : Char) : Bool := c = '\n' || c = '\u2028' || c = '\u2029'

/-- The byte order mark, which may start a line. -/
def byteOrderMark : Char := '\ufeff'

/-- Whether a character may stand in a settings file. -/
def isPrintable (c : Char) : Bool :=
  let n := c.toNat
  n = 9 || n = 10 || (0x20 ≤ n && n ≤ 0x7E) || (0xA0 ≤ n && n ≤ 0xFFFD) || 0x10000 ≤ n

/-- The text with every line break as a newline, but for the separators of lines and of
    paragraphs, which stay what they are. -/
def unifyBreaks : List Char → List Char
  | [] => []
  | '\r' :: '\n' :: rest => '\n' :: unifyBreaks rest
  | c :: rest => (if c = '\r' ∨ c = '\x85' then '\n' else c) :: unifyBreaks rest

/-! ## 2. Places -/

/-- A character with its place; lines and columns are counted from zero. -/
structure Spot where
  char : Char
  /-- The number of characters before it. -/
  index : Nat
  line : Nat
  column : Nat

/-- The spots of a text that starts at a place. -/
def spotsFrom (index line column : Nat) : List Char → List Spot
  | [] => []
  | c :: rest =>
    ⟨c, index, line, column⟩ ::
      if isBreak c then spotsFrom (index + 1) (line + 1) 0 rest
      else spotsFrom (index + 1) line (column + 1) rest

/-- The spots of a text. -/
def spots (cs : List Char) : List Spot := spotsFrom 0 0 0 cs

namespace Spot

def isSpace (s : Spot) : Bool := Document.isSpace s.char

def isBreak (s : Spot) : Bool := Document.isBreak s.char

/-- Whether a blank or a line break stands here. -/
def isGap (s : Spot) : Bool := s.isSpace || s.isBreak

end Spot

/-! ## 3. What a text starts with -/

/-- Whether a text ends here or goes on with a blank or a line break. -/
def startsGap : List Spot → Bool
  | [] => true
  | s :: _ => s.isGap

/-- Whether a line starts here with three times `c` and a gap. -/
def startsWithThree (c : Char) : List Spot → Bool
  | s :: t :: u :: rest =>
    s.column = 0 && s.char = c && t.char = c && u.char = c && startsGap rest
  | _ => false

/-- Whether a line starts here with the mark before or behind a document. -/
def startsBoundary (spots : List Spot) : Bool :=
  startsWithThree '-' spots || startsWithThree '.' spots

end ObjectFlow.Document
