/-
  File:      ObjectFlow/Token/Lexer.lean
  Subject:   FROM SOURCE TEXT TO TOKENS.

  At the next character of a text, `lexemeAt` says what starts there: how many further characters
  belong to it and, if it is passed over, how many line ends. The lexer keeps the line it stands on
  and counts line ends where it passes over them; no token has one. The first error is reported,
  and then there are no tokens at all.
-/
import ObjectFlow.Diagnostics
import ObjectFlow.Token
import ObjectFlow.Text.Blank
import ObjectFlow.Text.Decimal

namespace ObjectFlow

/-! ## 1. Errors -/

/-- Why a text has no tokens. -/
inductive LexCause where
  | notAscii
  | unexpected (c : Char)
  | integerRange
  | openComment
  deriving DecidableEq

def LexCause.message : LexCause → String
  | .notAscii => "Only ASCII input is supported."
  | .unexpected c => "Unexpected token: '" ++ c.toString ++ "'."
  | .integerRange => "Integer literal out of range."
  | .openComment => "Multiline comment not closed."

/-! ## 2. What starts at a character -/

/-- What starts at a character, with the number of further characters that belong to it. -/
inductive Lexeme where
  | token (t : Token) (more : Nat)
  /-- White space or a comment, with the number of line ends that are passed. -/
  | gap (more lines : Nat)
  /-- What is wrong is noticed this number of line ends later. -/
  | wrong (cause : LexCause) (lines : Nat)
  deriving DecidableEq

def isWordStart (c : Char) : Bool := c.isAlpha || c == '_'

def isWordChar (c : Char) : Bool := c.isAlphanum || c == '_' || c == '$'

/-- The tokens that are one character long and the start of no longer token. -/
def singleToken? : Char → Option Token
  | '(' => some (.mark .leftParen)
  | ')' => some (.mark .rightParen)
  | '{' => some (.mark .leftBrace)
  | '}' => some (.mark .rightBrace)
  | '[' => some (.mark .leftBracket)
  | ']' => some (.mark .rightBracket)
  | ':' => some (.mark .colon)
  | ';' => some (.mark .semicolon)
  | ',' => some (.mark .comma)
  | '.' => some (.mark .dot)
  | '+' => some (.operator .add)
  | '*' => some (.operator .mul)
  | '%' => some (.operator .rem)
  | '&' => some (.operator .and)
  | '|' => some (.operator .or)
  | '^' => some (.operator .xor)
  | _ => none

/-- The number of characters up to and including the end of a block comment. -/
def commentLength? : List Char → Option Nat
  | '*' :: '/' :: _ => some 2
  | _ :: rest => (commentLength? rest).map (· + 1)
  | [] => none

/-- The number of characters up to and including the bracket that closes the `depth` open ones,
    provided a colon is seen before it. Signatures stay within one statement. -/
def signatureLength? (depth : Nat) (colon : Bool) : List Char → Option Nat
  | [] => none
  | c :: rest =>
    if c = '<' then (signatureLength? (depth + 1) colon rest).map (· + 1)
    else if c = '>' then
      if depth ≤ 1 then (if colon then some 1 else none)
      else (signatureLength? (depth - 1) colon rest).map (· + 1)
    else if c = ':' then (signatureLength? depth true rest).map (· + 1)
    else if c = ';' || c = '\n' || c = '{' || c = '}' || c = '=' then none
    else (signatureLength? depth colon rest).map (· + 1)

/-- The initializers have names in angle brackets. -/
def initializerNames : List String := ["<init>", "<clinit>"]

/-- What a `<` followed by `rest` starts: an initializer name, a method signature, or an
    operator. -/
def angleLexeme (rest : List Char) : Lexeme :=
  let text := '<' :: rest
  match initializerNames.find? fun name => (Text.dropFront? name.toList text).isSome with
  | some name => .token (.ident name) (name.length - 1)
  | none =>
    let length? :=
      if (rest.head?.map Char.isAlpha).getD false then signatureLength? 1 false rest else none
    match length? with
    | some n =>
      .token (.signature (String.ofList (Text.trim (rest.take (n - 1))))) n
    | none =>
      match rest with
      | '=' :: _ => .token (.operator .le) 1
      | '<' :: _ => .token (.operator .shl) 1
      | _ => .token (.operator .lt) 0

/-- What a `>` followed by `rest` starts. -/
def closeLexeme : List Char → Lexeme
  | '=' :: _ => .token (.operator .ge) 1
  | '>' :: '>' :: _ => .token (.operator .ushr) 2
  | '>' :: _ => .token (.operator .shr) 1
  | _ => .token (.operator .gt) 0

/-- What a `/` followed by `rest` starts. -/
def slashLexeme : List Char → Lexeme
  | '/' :: rest => .gap (rest.takeWhile (· ≠ '\n')).length.succ 0
  | '*' :: rest =>
    match commentLength? rest with
    | some n => .gap (n + 1) ((rest.take n).count '\n')
    | none => .wrong .openComment (rest.count '\n')
  | _ => .token (.operator .div) 0

/-- A number that starts with `first`: a digit, or a minus sign in front of one. -/
def numberLexeme (first : Char) (rest : List Char) : Lexeme :=
  let digits := rest.takeWhile Char.isDigit
  match Text.readInt32? (first :: digits) with
  | some value => .token (.integer value) digits.length
  | none => .wrong .integerRange 0

/-- A word that starts with `first`: a reserved word or a name. -/
def wordLexeme (first : Char) (rest : List Char) : Lexeme :=
  let more := rest.takeWhile isWordChar
  let word := String.ofList (first :: more)
  match Keyword.ofWord? word with
  | some k => .token (.keyword k) more.length
  | none => .token (.ident word) more.length

/-- What starts at the character `c` when `rest` follows it. -/
def lexemeAt (c : Char) (rest : List Char) : Lexeme :=
  match singleToken? c with
  | some t => .token t 0
  | none =>
    if c = '=' then
      (if rest.head? = some '=' then .token (.operator .eq) 1 else .token (.mark .assign) 0)
    else if c = '!' then
      (if rest.head? = some '=' then .token (.operator .ne) 1 else .wrong (.unexpected c) 0)
    else if c = '>' then closeLexeme rest
    else if c = '<' then angleLexeme rest
    else if c = '\n' then .gap 0 1
    else if c = ' ' || c = '\t' || c = '\r' then .gap 0 0
    else if c = '#' then .gap (rest.takeWhile (· ≠ '\n')).length 0
    else if c = '/' then slashLexeme rest
    else if c = '-' then
      (if (rest.head?.map Char.isDigit).getD false then numberLexeme c rest
       else .token (.operator .sub) 0)
    else if c.isDigit then numberLexeme c rest
    else if isWordStart c then wordLexeme c rest
    else .wrong (.unexpected c) 0

/-! ## 3. The lexer -/

/-- The text still to come, the line it starts on, whether an error has been met, and what has been
    reported. -/
structure LexerState where
  rest : List Char
  line : Nat
  hasError : Bool
  diagnostics : Diagnostics

namespace LexerState

/-- Reports an error on the line the lexer stands on, in the place of a token. -/
def refuse (s : LexerState) (cause : LexCause) : Option LineToken × LexerState :=
  (none, { s with hasError := true, diagnostics := s.diagnostics.error s.line cause.message })

/-- What is left behind a character is shorter. -/
theorem length_drop_lt (c : Char) (rest : List Char) (more : Nat) :
    (rest.drop more).length < (c :: rest).length := by
  rw [List.length_drop, List.length_cons]
  exact Nat.lt_succ_of_le (Nat.sub_le _ _)

/-- The next token, once what stands in front of it has been passed over. There is none at the end
    of the text, and none where an error is reported. -/
def next (s : LexerState) : Option LineToken × LexerState :=
  match hrest : s.rest with
  | [] => (none, s)
  | c :: rest =>
    match lexemeAt c rest with
    | .token t more => (some ⟨t, s.line⟩, { s with rest := rest.drop more })
    | .gap more lines =>
      have : (rest.drop more).length < s.rest.length := hrest ▸ length_drop_lt c rest more
      next { s with rest := rest.drop more, line := s.line + lines }
    | .wrong cause lines => refuse { s with rest := rest, line := s.line + lines } cause
termination_by s.rest.length
decreasing_by exact this

/-- A character is passed at least. -/
theorem length_next_lt (s : LexerState) (h : s.rest ≠ []) :
    s.next.2.rest.length < s.rest.length := by
  fun_induction next s with
  | case1 s hrest => exact absurd hrest h
  | case2 s c rest hrest t more => exact hrest ▸ length_drop_lt c rest more
  | case3 s c rest hrest more lines _ hless ih =>
    by_cases hend : rest.drop more = []
    · have hstop : ∀ u : LexerState, u.rest = [] → u.next = (none, u) := fun u hu => by
        rw [next.eq_def]
        split
        · rfl
        · rename_i hcons
          cases hu.symm.trans hcons
      rw [hstop _ hend]
      exact hless
    · exact Nat.lt_trans (ih hend) hless
  | case4 s c rest hrest => exact hrest ▸ Nat.lt_succ_self _

/-- The tokens `seen` and those still to come. There are none at all once an error has been
    reported. -/
def tokens (s : LexerState) (seen : Array LineToken) : List LineToken × Diagnostics :=
  if hend : s.rest = [] then ((seen.push ⟨.endOfFile, s.line⟩).toList, s.diagnostics)
  else
    match hnext : s.next with
    | (some t, later) =>
      have : later.rest.length < s.rest.length := by simpa only [hnext] using s.length_next_lt hend
      tokens later (seen.push t)
    | (none, later) =>
      have : later.rest.length < s.rest.length := by simpa only [hnext] using s.length_next_lt hend
      if later.hasError then ([], later.diagnostics) else tokens later seen
termination_by s.rest.length

end LexerState

/-- The tokens of a source text; none at all when it has an error, which is reported. -/
def Diagnostics.lexing (d : Diagnostics) (source : String) : List LineToken × Diagnostics :=
  let chars := source.toList
  if chars.all (·.toNat < 128) then LexerState.tokens ⟨chars, 1, false, d⟩ #[]
  else ([], d.error 1 LexCause.notAscii.message)

/-- The tokens of a source text, or what is reported on it. -/
def lex (source : String) : Except Diagnostics (List LineToken) :=
  match ({} : Diagnostics).lexing source with
  | ([], said) => .error said
  | (tokens, _) => .ok tokens

end ObjectFlow
