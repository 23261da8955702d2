/-
  File:      ObjectFlow/Program/Reader.lean
  Subject:   FROM TOKENS, AND FROM SOURCE TEXT, TO A PROGRAM.

  All declarations are read before any body, so that a body may mention what is declared after
  it. A run first lexes its text and then parses the tokens; each of the two phases reports the
  error that stops it.
-/
import ObjectFlow.Program.Reader.Body
import ObjectFlow.Token.Lexer

namespace ObjectFlow

namespace Reader

/-- Reads a whole program. -/
def readProgram : Reader Unit := do
  let bodies ← readClasses (← remaining)
  readBodies bodies

end Reader

/-- The program written as a list of tokens; none when they have an error, which is reported. -/
def Diagnostics.parsing (d : Diagnostics) (tokens : List LineToken) :
    Option Program × Diagnostics :=
  match Reader.readProgram ⟨tokens, {}, d⟩ with
  | .ok (_, s) => (some s.program, s.diagnostics)
  | .error d => (none, d)

/-- Which phase a source text is refused in, with what was reported. -/
inductive SourceError where
  | lexical (said : Diagnostics)
  | grammar (said : Diagnostics)
  deriving DecidableEq

/-- Passes on what was reported. -/
def SourceError.report (d : Diagnostics) : SourceError → Diagnostics
  | lexical said | grammar said => d.pass said

namespace Program

/-- The program written as a list of tokens, or what is reported on them. -/
def ofTokens (tokens : List LineToken) : Except Diagnostics Program :=
  match ({} : Diagnostics).parsing tokens with
  | (some p, _) => .ok p
  | (none, said) => .error said

/-- The program written as a source text. -/
def ofSource (source : String) : Except SourceError Program :=
  match lex source with
  | .error said => .error (.lexical said)
  | .ok tokens =>
    match ofTokens tokens with
    | .error said => .error (.grammar said)
    | .ok p => .ok p

end Program

end ObjectFlow
