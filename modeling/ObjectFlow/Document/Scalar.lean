/-
  File:      ObjectFlow/Document/Scalar.lean
  Subject:   SCALARS AS WRITTEN: plain and quoted texts.

  A text over several lines is folded: one line break becomes a blank, and of several the first
  one is dropped. As much fuel as there are characters is enough for each reader.
-/
import ObjectFlow.Document.Number
import ObjectFlow.Document.Spot

namespace ObjectFlow.Document

/-! ## 1. Runs -/

/-- Splits the blanks and line breaks off. -/
def cutRun (spots : List Spot) : List Spot × List Spot :=
  (spots.takeWhile Spot.isGap, spots.dropWhile Spot.isGap)

/-- The line breaks of a run. -/
def breaksOf (run : List Spot) : List Char := (run.filter Spot.isBreak).map (·.char)

/-- What a run inside a scalar becomes. The first break counts for nothing if it is a newline, and
    stays otherwise. -/
def foldRun (run : List Spot) : List Char :=
  match breaksOf run with
  | [] => run.map (·.char)
  | ['\n'] => [' ']
  | '\n' :: more => more
  | breaks => breaks

/-- Whether a tab stands in the indentation of a run's further lines, before column `floor`. -/
def indentsByTab (floor : Nat) (run : List Spot) : Bool :=
  (run.dropWhile Spot.isSpace).any fun s => s.char = '\t' && s.column < floor

/-! ## 2. Plain scalars -/

/-- The marks a plain scalar cannot start with. -/
def indicators : List Char :=
  [',', '[', ']', '{', '}', '#', '&', '*', '!', '|', '>', '\'', '"', '%', '@', '\x60']

/-- Whether a plain scalar can start here. -/
def startsPlain (brackets : Bool) : List Spot → Bool
  | [] => false
  | s :: rest =>
    if s.char = '-' then !startsGap rest
    else if s.char = '?' ∨ s.char = ':' then !brackets && !startsGap rest
    else !s.isGap && !indicators.contains s.char

/-- Splits a word of a plain scalar off. It ends at a gap, at a colon before a gap and, between
    brackets, at a mark of the brackets, which must not stand behind a colon. -/
def readWord? (brackets : Bool) : List Spot → Option (List Char × List Spot)
  | [] => some ([], [])
  | s :: rest =>
    if s.isGap || (s.char = ':' && startsGap rest)
        || (brackets && [',', '[', ']', '{', '}'].contains s.char) then
      some ([], s :: rest)
    else if brackets && s.char = ':' &&
        rest.head?.any fun t => [',', '?', '[', ']', '{', '}'].contains t.char then
      none
    else (readWord? brackets rest).map fun (word, rest) => (s.char :: word, rest)

/-- A plain scalar that was read. -/
structure PlainScalar where
  text : List Char
  /-- Whether it ends at another line than its last word. -/
  crossed : Bool
  rest : List Spot

/-- Reads a plain scalar on from a word, given the run before the word. Outside brackets the words
    of the further lines start at column `floor` or later. The run behind the last word is read
    too. -/
def readPlain? (brackets : Bool) (floor : Nat) :
    Nat → (before : List Spot) → List Spot → Option PlainScalar
  | 0, _, _ => none
  | fuel + 1, before, spots => do
    let stop : PlainScalar := ⟨[], before.any Spot.isBreak, spots⟩
    if startsBoundary spots || spots.head?.any fun s => s.char = '#' then return stop
    let (word, rest) ← readWord? brackets spots
    if word.isEmpty then return stop
    let text := foldRun before ++ word
    let (run, behind) := cutRun rest
    if indentsByTab floor run then none
    else if run.isEmpty then some ⟨text, false, rest⟩
    else if !brackets && behind.head?.any fun s => s.column < floor then
      some ⟨text, run.any Spot.isBreak, behind⟩
    else
      let scalar ← readPlain? brackets floor fuel run behind
      some { scalar with text := text ++ scalar.text }

/-! ## 3. Quoted scalars -/

/-- The characters that stand for themselves or for another one behind a backslash. -/
def escapes : List (Char × Char) :=
  [('0', '\x00'), ('a', '\x07'), ('b', '\x08'), ('t', '\t'), ('\t', '\t'), ('n', '\n'),
    ('v', '\x0b'), ('f', '\x0c'), ('r', '\r'), ('e', '\x1b'), (' ', ' '), ('"', '"'), ('/', '/'),
    ('\\', '\\'), ('N', '\x85'), ('_', '\xa0'), ('L', '\u2028'), ('P', '\u2029')]

/-- The number of digits of a character written by its number. -/
def escapeDigits : List (Char × Nat) := [('x', 2), ('u', 4), ('U', 8)]

/-- The character written by its number. -/
def readCode? (digits : List Char) : Option Char :=
  (readBase? 16 digits).bind fun n => if n.isValidChar then some (Char.ofNat n) else none

/-- What stands behind a backslash, and the rest. A line break leaves only the breaks behind it,
    so that lines are joined without a blank. -/
def readEscape? : List Spot → Option (List Char × List Spot)
  | [] => none
  | s :: rest =>
    if s.isBreak then
      let (run, rest) := cutRun rest
      some (breaksOf run, rest)
    else
      match escapes.lookup s.char, escapeDigits.lookup s.char with
      | some value, _ => some ([value], rest)
      | none, some count =>
        if rest.length < count then none
        else (readCode? ((rest.take count).map (·.char))).map fun value =>
          ([value], rest.drop count)
      | none, none => none

/-- Reads a quoted scalar on from behind its first quote. Between single quotes a quote is written
    twice; between double quotes a backslash gives a character another meaning. A mark between
    documents cannot stand inside. -/
def readQuoted? (quote : Char) : Nat → List Spot → Option (List Char × List Spot)
  | 0, _ => none
  | _, [] => none
  | fuel + 1, s :: rest =>
    if startsBoundary (s :: rest) then none
    else if s.isGap then
      let (run, rest) := cutRun (s :: rest)
      (readQuoted? quote fuel rest).map fun (text, rest) => (foldRun run ++ text, rest)
    else if quote = '"' && s.char = '\\' then do
      let (part, rest) ← readEscape? rest
      let (text, rest) ← readQuoted? quote fuel rest
      return (part ++ text, rest)
    else if s.char ≠ quote then
      (readQuoted? quote fuel rest).map fun (text, rest) => (s.char :: text, rest)
    else if quote = '\'' && rest.head?.any fun t => t.char = '\'' then
      (readQuoted? quote fuel (rest.drop 1)).map fun (text, rest) => (quote :: text, rest)
    else some ([], rest)

end ObjectFlow.Document
