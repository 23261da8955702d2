/-
  File:      ObjectFlow/Program/Reader/Cursor.lean
  Subject:   READING TOKENS: the tokens still to come, the program read so far, what has been
             reported, and the ways a program text can be wrong.

  A list of tokens ends with its only `endOfFile`, which is never read past. A reader that finds
  something wrong reports it and gives up, and so does every reader it is part of.
-/
import ObjectFlow.Diagnostics
import ObjectFlow.Program.Names

namespace ObjectFlow

/-! ## 1. Errors -/

/-- What is wrong with a program text. -/
inductive ReadCause where
  | expected (token : Token)
  | classExpected
  | identifierExpected
  | classDeclared (name : String)
  | memberExpected
  | fieldDeclared (name : String)
  | methodDeclared (subsig : String)
  | abstractBody
  | bodyExpected
  | openBody
  | typeExpected
  | variableDeclared (name : String)
  | labelDeclared
  | labelAtEnd
  | labelUndefined
  | labelExpected
  | comparisonExpected
  | integerExpected
  | caseExpected
  | returnValueExpected
  | statementExpected
  | expressionExpected
  | fieldOfNonClass
  | baseUndeclared (name : String)
  | fieldUnknown (field owner : String)
  | fieldKind
  | signatureExpected
  | signatureMalformed
  | argumentCount (wanted found : Nat)
  | variableUndeclared
  deriving DecidableEq

def ReadCause.message : ReadCause → String
  | expected token => "'" ++ token.text ++ "' expected."
  | classExpected => "'class' or 'interface' expected."
  | identifierExpected => "Identifier expected."
  | classDeclared name => "Class '" ++ name ++ "' is already declared."
  | memberExpected => "'field' or 'method' expected."
  | fieldDeclared name => "Field '" ++ name ++ "' is already declared."
  | methodDeclared subsig => "Method '" ++ subsig ++ "' is already declared."
  | abstractBody => "Abstract method cannot have a body."
  | bodyExpected => "';' or method body expected."
  | openBody => "Unterminated method body."
  | typeExpected => "Type expected."
  | variableDeclared name => "Variable '" ++ name ++ "' is already declared."
  | labelDeclared => "Duplicate label."
  | labelAtEnd => "Label must precede a statement."
  | labelUndefined => "Undefined label."
  | labelExpected => "Label expected."
  | comparisonExpected => "Comparison operator expected."
  | integerExpected => "Integer expected."
  | caseExpected => "'case' or 'default' expected."
  | returnValueExpected => "Return value expected."
  | statementExpected => "Statement expected."
  | expressionExpected => "Expression expected."
  | fieldOfNonClass => "Field access on a non-class type."
  | baseUndeclared name => "Undeclared variable or class '" ++ name ++ "'."
  | fieldUnknown field owner => "Unknown field '" ++ field ++ "' in class '" ++ owner ++ "'."
  | fieldKind =>
    "Static fields are accessed through the class, instance fields through a variable."
  | signatureExpected => "Method signature expected."
  | signatureMalformed => "Malformed method signature."
  | argumentCount wanted found =>
    "Expected " ++ toString wanted ++ " arguments, found " ++ toString found ++ "."
  | variableUndeclared => "Undeclared variable."

/-- A cause and the token it was noticed at. -/
structure ReadError where
  found : LineToken
  cause : ReadCause
  deriving DecidableEq

/-- The token of an error, in words. -/
def ReadError.place (e : ReadError) : String :=
  if e.found.token = .endOfFile then "at end" else "at '" ++ e.found.token.text ++ "'"

def ReadError.report (e : ReadError) (d : Diagnostics) : Diagnostics :=
  d.report e.found.line e.place e.cause.message

/-! ## 2. Readers -/

/-- The tokens still to come, the program read so far, and what has been reported. -/
structure ReaderState where
  tokens : List LineToken
  program : Program
  diagnostics : Diagnostics

/-- A reader of part of a program. Of the state of a reader that gives up, only what has been
    reported is left. -/
abbrev Reader := StateT ReaderState (Except Diagnostics)

namespace Reader

def report (e : ReadError) : Reader Unit :=
  modify fun s => { s with diagnostics := e.report s.diagnostics }

def giveUp {α : Type} : Reader α := fun s => .error s.diagnostics

/-- Reports what is wrong and gives up. -/
def fail {α : Type} (found : LineToken) (cause : ReadCause) : Reader α := do
  report ⟨found, cause⟩
  giveUp

/-- The first of some tokens; past the end there is only the end. -/
def firstToken : List LineToken → LineToken
  | [] => ⟨.endOfFile, 0⟩
  | t :: _ => t

/-- The tokens after the first one; the end stays. -/
def dropToken : List LineToken → List LineToken
  | [] => []
  | t :: rest => if t.token = .endOfFile then t :: rest else rest

/-- The next token, which is not read. -/
def peek : Reader LineToken := do return firstToken (← get).tokens

/-- Reads the next token. -/
def advance : Reader LineToken := do
  let s ← get
  set { s with tokens := dropToken s.tokens }
  return firstToken s.tokens

/-- Whether the next token is `t`. -/
def check (t : Token) : Reader Bool := do return (← peek).token = t

/-- Whether the token after the next one is `t`. -/
def checkSecond (t : Token) : Reader Bool := do
  return ((← get).tokens.drop 1).head?.any (·.token = t)

def atEnd : Reader Bool := check .endOfFile

/-- Reads the token `t` if it is next. -/
def accept (t : Token) : Reader Bool := do
  let found ← check t
  if found then discard advance
  return found

/-- Reads the token `t`, which must be next. -/
def expectOr (t : Token) (cause : ReadCause) : Reader LineToken := do
  if ← check t then advance else fail (← peek) cause

/-- Reads the token `t`, which must be next. -/
def expect (t : Token) : Reader LineToken := expectOr t (.expected t)

/-- Reads a name. -/
def identifier : Reader (LineToken × String) := do
  let found ← peek
  match found.token with
  | .ident name => return (← advance, name)
  | _ => fail found .identifierExpected

/-- The number of tokens still to come: a bound for every loop that reads at least one. -/
def remaining : Reader Nat := do return (← get).tokens.length

/-- Reads items separated by commas, at least one and at most `bound`. -/
def commaList {α : Type} (item : Reader α) : (bound : Nat) → Reader (List α)
  | 0 => return []
  | bound + 1 => do
    let first ← item
    if ← accept (.mark .comma) then
      return first :: (← commaList item bound)
    else
      return [first]

/-- Reads items separated by commas, at least one. -/
def commas {α : Type} (item : Reader α) : Reader (List α) := do commaList item (← remaining)

/-! ## 3. The program being read -/

def program : Reader Program := do return (← get).program

/-- Changes the program, giving what the change gives. -/
def update {α : Type} (f : Program → α × Program) : Reader α := do
  let s ← get
  let (a, p) := f s.program
  set { s with program := p }
  return a

/-- Changes the program. -/
def modifyProgram (f : Program → Program) : Reader Unit := update fun p => ((), f p)

def internClass (name : String) : Reader ClassId := update (·.internClass name)

/-! ## 4. Types -/

/-- The number of bracket pairs at the start of some tokens, and the tokens after them. -/
def bracketPairs : List LineToken → Nat × List LineToken
  | ⟨.mark .leftBracket, _⟩ :: ⟨.mark .rightBracket, _⟩ :: rest =>
    let (n, rest) := bracketPairs rest
    (n + 1, rest)
  | tokens => (0, tokens)

/-- Wraps a type into `n` array types. -/
def arrayOf (ty : Ty) : Nat → Ty
  | 0 => ty
  | n + 1 => .array (arrayOf ty n)

/-- Reads the bracket pairs behind a type. -/
def readBrackets (ty : Ty) : Reader Ty := do
  let s ← get
  let (n, rest) := bracketPairs s.tokens
  set { s with tokens := rest }
  return arrayOf ty n

/-- Reads a type: a built-in type or a class, then any number of bracket pairs. -/
def readType : Reader Ty := do
  let found ← advance
  let ty ← match found.token with
    | .keyword (.prim t) => pure (Ty.prim t)
    | .ident name => Ty.object <$> internClass name
    | _ => fail found .typeExpected
  readBrackets ty

end Reader

end ObjectFlow
