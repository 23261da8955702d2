/-
  File:      ObjectFlow/Document/Layout.lean
  Subject:   LAYOUT: from the characters of a settings file to its pieces.

  A piece is a scalar or a mark. Collections are written between brackets, where columns do not
  matter, or by indentation; for the latter the layout makes pieces of its own: one where a
  collection starts, and one where a line starts further to the left.

  Only its colon shows that something is a key. Whatever could be a key is therefore kept as a
  candidate, and when a colon follows it on its line, a mark is put in before it. A candidate at
  the column of a mapping can be nothing else than a key: it is required, and a text in which it
  finds no colon is refused.
-/
import ObjectFlow.Document.Scalar

namespace ObjectFlow.Document

inductive Piece where
  | scalar (quoted : Bool) (text : String)
  | openList
  | closeList
  | openMapping
  | closeMapping
  | comma
  /-- Before an item of a list by indentation. -/
  | item
  /-- Before a key. -/
  | key
  /-- Before the value of a key. -/
  | value
  /-- Where a list by indentation starts, if it is further to the right than what holds it. -/
  | listStart
  /-- Where a mapping by indentation starts. -/
  | mappingStart
  /-- Where a list or a mapping by indentation ends. -/
  | blockEnd
  | documentStart
  | documentEnd
  deriving DecidableEq

/-- What could be a key. -/
structure Candidate where
  spot : Spot
  /-- The number of pieces before it. -/
  position : Nat
  required : Bool

/-- How far behind its start a key may have its colon. -/
def keyReach : Nat := 1024

/-- Whether a colon at a spot comes too late for a candidate. -/
def Candidate.isPast (s : Spot) (c : Candidate) : Bool :=
  c.spot.line < s.line || c.spot.index + keyReach < s.index

/-- The pieces of a text so far, and what the next one depends on. -/
structure Layout where
  pieces : Array Piece := #[]
  /-- The columns of the open collections by indentation, the innermost first. -/
  columns : List Nat := []
  /-- The candidate at this level of brackets. -/
  candidate : Option Candidate := none
  /-- The candidates of the levels around this one, the innermost first. -/
  outer : List (Option Candidate) := []
  /-- Whether a key could start here. -/
  keyAllowed : Bool := true

namespace Layout

/-! ## 1. The state -/

def inBrackets (l : Layout) : Bool := !l.outer.isEmpty

/-- The first column that is inside the innermost collection by indentation. -/
def floor (l : Layout) : Nat :=
  match l.columns with
  | [] => 0
  | column :: _ => column + 1

def push (l : Layout) (piece : Piece) : Layout := { l with pieces := l.pieces.push piece }

/-- Puts a piece in at a position. -/
def insert (l : Layout) (position : Nat) (piece : Piece) : Layout :=
  { l with pieces := l.pieces.insertIdxIfInBounds position piece }

/-- Outside brackets, ends the innermost collections by indentation whose columns satisfy `p`. -/
def closeWhile (p : Nat → Bool) (l : Layout) : Layout :=
  if l.inBrackets then l
  else
    { l with
      columns := l.columns.dropWhile p
      pieces := l.pieces ++ (l.columns.takeWhile p).map fun _ => Piece.blockEnd }

/-- Outside brackets, puts in the start of a collection at a column, unless the column belongs to
    an open one. -/
def enter (column position : Nat) (start : Piece) (l : Layout) : Layout :=
  if l.inBrackets || column < l.floor then l
  else { l.insert position start with columns := column :: l.columns }

/-- Gives the candidate up, which must not be required. -/
def dropCandidate? (l : Layout) : Option Layout :=
  if l.candidate.any (·.required) then none else some { l with candidate := none }

/-- Gives up all candidates for which it is too late at a spot. -/
def expire? (s : Spot) (l : Layout) : Option Layout :=
  let past := (l.candidate :: l.outer).map fun c => c.filter (Candidate.isPast s)
  if past.any fun c => c.any (·.required) then none
  else
    let keep (c : Option Candidate) : Option Candidate := c.filter fun c => !c.isPast s
    some { l with candidate := keep l.candidate, outer := l.outer.map keep }

/-- Takes what starts at a spot for a candidate, where a key could start. -/
def offer? (s : Spot) (l : Layout) : Option Layout :=
  if l.keyAllowed then
    l.dropCandidate?.map fun l =>
      let required := !l.inBrackets && l.columns.head? == some s.column
      { l with candidate := some ⟨s, l.pieces.size, required⟩ }
  else some l

/-! ## 2. Marks -/

/-- The mark before or behind a document. It ends all collections by indentation. -/
def boundary? (piece : Piece) (l : Layout) : Option Layout :=
  (l.closeWhile fun _ => true).dropCandidate?.map fun l =>
    { l.push piece with keyAllowed := false }

def openBracket? (s : Spot) (piece : Piece) (l : Layout) : Option Layout :=
  (l.offer? s).map fun l =>
    { l.push piece with candidate := none, outer := l.candidate :: l.outer, keyAllowed := true }

def closeBracket? (piece : Piece) (l : Layout) : Option Layout :=
  l.dropCandidate?.map fun l =>
    let l := { l.push piece with keyAllowed := false }
    match l.outer with
    | [] => l
    | candidate :: outer => { l with candidate := candidate, outer := outer }

def comma? (l : Layout) : Option Layout :=
  l.dropCandidate?.map fun l => { l.push .comma with keyAllowed := true }

/-- The mark before an item, or before a key that is marked as one. Outside brackets it may start
    a collection. -/
def entry? (s : Spot) (start piece : Piece) (keyAllowed : Bool) (l : Layout) : Option Layout :=
  if l.inBrackets || l.keyAllowed then
    (l.enter s.column l.pieces.size start).dropCandidate?.map fun l =>
      { l.push piece with keyAllowed := keyAllowed }
  else none

/-- The colon before a value. Its candidate becomes a key, which may start a mapping. -/
def colon? (s : Spot) (l : Layout) : Option Layout :=
  match l.candidate with
  | some c =>
    let l := (l.insert c.position .key).enter c.spot.column c.position .mappingStart
    some { l.push .value with candidate := none, keyAllowed := false }
  | none =>
    if l.inBrackets || l.keyAllowed then
      let l := l.enter s.column l.pieces.size .mappingStart
      some { l.push .value with keyAllowed := !l.inBrackets }
    else none

/-! ## 3. Scalars

A scalar is read with as much fuel as there are characters, or more. -/

def quoted? (fuel : Nat) (s : Spot) (rest : List Spot) (l : Layout) :
    Option (Layout × List Spot) := do
  let l ← l.offer? s
  let (text, rest) ← readQuoted? s.char fuel rest
  return ({ l.push (.scalar true (String.ofList text)) with keyAllowed := false }, rest)

def plain? (fuel : Nat) (s : Spot) (rest : List Spot) (l : Layout) :
    Option (Layout × List Spot) := do
  let l ← l.offer? s
  let scalar ← readPlain? l.inBrackets l.floor fuel [] (s :: rest)
  return ({ l.push (.scalar false (String.ofList scalar.text)) with keyAllowed := scalar.crossed },
    scalar.rest)

/-! ## 4. Whole texts -/

/-- Skips blanks, line breaks and comments. A tab is skipped where no key could start; a line
    break outside brackets lets a key start. Gives whether one could start here. -/
def skipGap (brackets keyAllowed inComment : Bool) : List Spot → Bool × List Spot
  | [] => (keyAllowed, [])
  | s :: rest =>
    if s.isBreak then skipGap brackets (keyAllowed || !brackets) false rest
    else if inComment || s.char = '#' then skipGap brackets keyAllowed true rest
    else if s.char = ' ' || (s.char = '\t' && (brackets || !keyAllowed))
        || (s.char = byteOrderMark && s.column = 0) then
      skipGap brackets keyAllowed false rest
    else (keyAllowed, s :: rest)

/-- Reads the piece that starts at a spot; gives the text behind it. -/
def readPiece? (fuel : Nat) (s : Spot) (rest : List Spot) (l : Layout) :
    Option (Layout × List Spot) :=
  let brackets := l.inBrackets
  let marked := brackets || startsGap rest
  let here := s :: rest
  if startsWithThree '-' here then (l.boundary? .documentStart).map (·, rest.drop 2)
  else if startsWithThree '.' here then (l.boundary? .documentEnd).map (·, rest.drop 2)
  else if s.char = '[' then (l.openBracket? s .openList).map (·, rest)
  else if s.char = '{' then (l.openBracket? s .openMapping).map (·, rest)
  else if s.char = ']' then (l.closeBracket? .closeList).map (·, rest)
  else if s.char = '}' then (l.closeBracket? .closeMapping).map (·, rest)
  else if s.char = ',' then l.comma?.map (·, rest)
  else if s.char = '-' && startsGap rest then (l.entry? s .listStart .item true).map (·, rest)
  else if s.char = '?' && marked then (l.entry? s .mappingStart .key !brackets).map (·, rest)
  else if s.char = ':' && marked then (l.colon? s).map (·, rest)
  else if s.char = '\'' || s.char = '"' then l.quoted? fuel s rest
  else if startsPlain brackets here then l.plain? fuel s rest
  else none

/-- Reads all pieces. One unit of fuel more than there are characters is enough: each piece has one
    character at least. -/
def read? : Nat → Layout → List Spot → Option Layout
  | 0, _, _ => none
  | fuel + 1, l, spots =>
    match skipGap l.inBrackets l.keyAllowed false spots with
    | (_, []) => (l.closeWhile fun _ => true).dropCandidate?
    | (keyAllowed, s :: rest) => do
      let l ← { l with keyAllowed := keyAllowed }.expire? s
      let (l, rest) ← (l.closeWhile (s.column < ·)).readPiece? fuel s rest
      read? fuel l rest

end Layout

/-- The pieces of a text. -/
def pieces? (text : String) : Option (List Piece) :=
  let cs := unifyBreaks text.toList
  if cs.all isPrintable then
    (Layout.read? (cs.length + 1) {} (spots cs)).map (·.pieces.toList)
  else none

end ObjectFlow.Document
