/-
  File:      ObjectFlow/Document/Reader.lean
  Subject:   READING DOCUMENTS from the pieces of a settings file.

  The readers call one another with one unit of fuel less. Between two calls that read a piece there
  are at most two others, so three units for each piece are enough.
-/
import ObjectFlow.Document.Basic
import ObjectFlow.Document.Layout

namespace ObjectFlow.Document

/-! ## 1. Pieces and entries -/

/-- Whether one of `stops` comes next. -/
def startsWithAny (stops ps : List Piece) : Bool := ps.head?.any stops.contains

/-- An entry of a mapping; only a scalar is a key. -/
def entry? (key value : Document) : Option (String × Document) :=
  key.text?.map (·, value)

/-! ## 2. Collections -/

mutual

/-- Reads a document. A list that starts at the column of the key that holds it has no piece
    where it starts: `loose` says whether it may stand here. A collection by indentation may stand
    outside brackets only. -/
def readNode? (block loose : Bool) : Nat → List Piece → Option (Document × List Piece)
  | 0, _ => none
  | fuel + 1, ps =>
    match ps with
    | .scalar quoted text :: rest => some (.scalar quoted text, rest)
    | .openList :: rest => (readListed? fuel rest).map fun (items, rest) => (.list items, rest)
    | .openMapping :: rest =>
      (readMapped? fuel rest).map fun (entries, rest) => (.mapping entries, rest)
    | .listStart :: rest =>
      if block then (readItems? fuel rest).map fun (items, rest) => (.list items, rest) else none
    | .mappingStart :: rest =>
      if block then (readEntries? fuel rest).map fun (entries, rest) => (.mapping entries, rest)
      else none
    | .item :: _ =>
      if loose then (readLooseItems? fuel ps).map fun (items, rest) => (.list items, rest)
      else none
    | _ => none

/-- Reads a document, which is left out before any of the pieces `stops`. -/
def readUnless? (block loose : Bool) (stops : List Piece) :
    Nat → List Piece → Option (Document × List Piece)
  | 0, _ => none
  | fuel + 1, ps =>
    if startsWithAny stops ps then some (nothing, ps) else readNode? block loose fuel ps

/-- Reads the items of a list between brackets. -/
def readListed? : Nat → List Piece → Option (List Document × List Piece)
  | 0, _ => none
  | fuel + 1, ps =>
    match ps with
    | .closeList :: rest => some ([], rest)
    | _ => do
      let (item, rest) ← readNode? false false fuel ps
      match rest with
      | .closeList :: rest => some ([item], rest)
      | .comma :: rest =>
        let (items, rest) ← readListed? fuel rest
        some (item :: items, rest)
      | _ => none

/-- Reads the entries of a mapping between brackets. The value may be left out, with its colon or
    without it. -/
def readMapped? : Nat → List Piece → Option (List (String × Document) × List Piece)
  | 0, _ => none
  | fuel + 1, ps =>
    match ps with
    | .closeMapping :: rest => some ([], rest)
    | _ => do
      let (key, rest) ← match ps with
        | .key :: rest => readUnless? false false [.value, .comma, .closeMapping] fuel rest
        | _ => readNode? false false fuel ps
      let (value, rest) ← match ps, rest with
        | .key :: _, .value :: rest =>
          readUnless? false false [.comma, .closeMapping] fuel rest
        | _, _ => some (nothing, rest)
      let entry ← entry? key value
      match rest with
      | .closeMapping :: rest => some ([entry], rest)
      | .comma :: rest =>
        let (entries, rest) ← readMapped? fuel rest
        some (entry :: entries, rest)
      | _ => none

/-- Reads the items of a list by indentation. -/
def readItems? : Nat → List Piece → Option (List Document × List Piece)
  | 0, _ => none
  | fuel + 1, ps =>
    match ps with
    | .blockEnd :: rest => some ([], rest)
    | .item :: rest => do
      let (item, rest) ← readUnless? true false [.item, .blockEnd] fuel rest
      let (items, rest) ← readItems? fuel rest
      some (item :: items, rest)
    | _ => none

/-- Reads the items of a list at the column of the key that holds it. -/
def readLooseItems? : Nat → List Piece → Option (List Document × List Piece)
  | 0, _ => none
  | fuel + 1, ps =>
    match ps with
    | .item :: rest => do
      let (item, rest) ← readUnless? true false [.item, .key, .value, .blockEnd] fuel rest
      let (items, rest) ← readLooseItems? fuel rest
      some (item :: items, rest)
    | _ => some ([], ps)

/-- Reads the entries of a mapping by indentation. -/
def readEntries? : Nat → List Piece → Option (List (String × Document) × List Piece)
  | 0, _ => none
  | fuel + 1, ps =>
    match ps with
    | .blockEnd :: rest => some ([], rest)
    | .key :: rest => do
      let (key, rest) ← readUnless? true true [.key, .value, .blockEnd] fuel rest
      let (value, rest) ← match rest with
        | .value :: rest => readUnless? true true [.key, .value, .blockEnd] fuel rest
        | _ => some (nothing, rest)
      let entry ← entry? key value
      let (entries, rest) ← readEntries? fuel rest
      some (entry :: entries, rest)
    | _ => none

end

/-! ## 3. Whole texts -/

/-- The fuel that is enough for a text. -/
def enoughFuel (ps : List Piece) : Nat := 3 * ps.length + 3

/-- Reads the document of a text. It may stand between marks, and is left out if nothing stands
    there. -/
def ofPieces? : List Piece → Option Document
  | [] => some nothing
  | .documentStart :: ps => do
    let (d, rest) ←
      if ps.isEmpty || startsWithAny [.documentStart, .documentEnd] ps then some (nothing, ps)
      else readNode? true false (enoughFuel ps) ps
    if rest.all (· = .documentEnd) then some d else none
  | ps => do
    let (d, rest) ← readNode? true false (enoughFuel ps) ps
    if rest.all (· = .documentEnd) then some d else none

/-- Reads a text. -/
def parse? (text : String) : Option Document := (pieces? text).bind ofPieces?

end ObjectFlow.Document
