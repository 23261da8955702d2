/-
  File:      ObjectFlow/Proofs/Token/Scanning.lean
  Subject:   WHAT THE LEXER GIVES AND REPORTS, by recursion on the text.

  The lexer goes from token to token, and what it has to say is part of its state. `scan` goes from
  character to character and gives the tokens of a text or the first error in it.

  * `LexerState.Meets`: what one call of the lexer does, and `meets_next`: each call does it;
  * `LexerState.tokens_eq`: so the loop over the calls gives what `scan` gives, and reports an error
    once if there is one;
  * `lexing_eq`, `lex_eq`: whole texts.
-/
import ObjectFlow.Token.Lexer

namespace ObjectFlow

/-! ## 1. Texts -/

/-- A cause and the line it is noticed on. -/
structure LexError where
  line : Nat
  cause : LexCause
  deriving DecidableEq

def LexError.report (e : LexError) (d : Diagnostics) : Diagnostics := d.error e.line e.cause.message

/-- Reads the text from a position on `line` where the next `skip` characters belong to what was
    read before. -/
def scan : (line skip : Nat) → List Char → Except LexError (List LineToken)
  | line, _, [] => .ok [⟨.endOfFile, line⟩]
  | line, skip + 1, _ :: rest => scan line skip rest
  | line, 0, c :: rest =>
    match lexemeAt c rest with
    | .token t more => (scan line more rest).map (⟨t, line⟩ :: ·)
    | .gap more lines => scan (line + lines) more rest
    | .wrong cause lines => .error ⟨line + lines, cause⟩

/-- The tokens of a text or the first error in it. -/
def scanText (chars : List Char) : Except LexError (List LineToken) :=
  if chars.all (·.toNat < 128) then scan 1 0 chars else .error ⟨1, .notAscii⟩

theorem map_eq_ok {ε α β : Type} {x : Except ε α} {f : α → β} {b : β} (h : x.map f = .ok b) :
    ∃ a, x = .ok a ∧ f a = b := by
  cases x with
  | error e => cases h
  | ok a =>
    cases h
    exact ⟨a, rfl, rfl⟩

/-- What belongs to what was read before might as well not be there. -/
theorem scan_drop (line skip : Nat) (cs : List Char) :
    scan line skip cs = scan line 0 (cs.drop skip) := by
  induction cs generalizing skip with
  | nil => rw [List.drop_nil, scan, scan]
  | cons c rest ih =>
    cases skip with
    | zero => rfl
    | succ skip => exact ih skip

theorem scan_ne_nil {line skip : Nat} {cs : List Char} : scan line skip cs ≠ .ok [] := by
  induction cs generalizing line skip with
  | nil =>
    intro h
    cases h
  | cons c rest ih =>
    cases skip with
    | succ skip => exact ih
    | zero =>
      rw [scan]
      split
      · intro h
        obtain ⟨later, -, hcons⟩ := map_eq_ok h
        cases hcons
      · exact ih
      · nofun

/-! ## 2. Calls -/

namespace LexerState

/-- **What one call of the lexer does**: it gives a token and leaves the text behind it; or it comes
    to the end of the text; or it meets an error, which it reports. It reports nothing else. -/
inductive Meets (s : LexerState) : Option LineToken × LexerState → Prop
  | token {t : LineToken} {later : LexerState}
      (hscan : scan s.line 0 s.rest = (scan later.line 0 later.rest).map (t :: ·))
      (hsame : later.hasError = s.hasError) (hsaid : later.diagnostics = s.diagnostics) :
      Meets s (some t, later)
  | ended {later : LexerState} (hrest : later.rest = [])
      (hscan : scan s.line 0 s.rest = scan later.line 0 [])
      (hsame : later.hasError = s.hasError) (hsaid : later.diagnostics = s.diagnostics) :
      Meets s (none, later)
  | refused {later : LexerState} {e : LexError} (hscan : scan s.line 0 s.rest = .error e)
      (herror : later.hasError = true) (hsaid : later.diagnostics = e.report s.diagnostics) :
      Meets s (none, later)

/-- What is passed over changes neither what follows nor what has been said. -/
theorem Meets.over {s u : LexerState} {x : Option LineToken × LexerState} (h : u.Meets x)
    (hscan : scan s.line 0 s.rest = scan u.line 0 u.rest) (hsame : u.hasError = s.hasError)
    (hsaid : u.diagnostics = s.diagnostics) : s.Meets x := by
  cases h with
  | token hlater hkept hquiet =>
    exact .token (hscan.trans hlater) (hkept.trans hsame) (hquiet.trans hsaid)
  | ended hend hlater hkept hquiet =>
    exact .ended hend (hscan.trans hlater) (hkept.trans hsame) (hquiet.trans hsaid)
  | refused hlater herror hreport =>
    exact .refused (hscan.trans hlater) herror (hsaid ▸ hreport)

theorem meets_next (s : LexerState) : s.Meets s.next := by
  fun_induction next s with
  | case1 s hrest => exact .ended hrest (by rw [hrest]) rfl rfl
  | case2 s c rest hrest t more hlexeme =>
    refine .token ?_ rfl rfl
    rw [hrest, scan, hlexeme]
    exact congrArg (Except.map _) (scan_drop s.line more rest)
  | case3 s c rest hrest more lines hlexeme _ ih =>
    refine ih.over ?_ rfl rfl
    rw [hrest, scan, hlexeme]
    exact scan_drop (s.line + lines) more rest
  | case4 s c rest hrest cause lines hlexeme =>
    refine .refused (e := ⟨s.line + lines, cause⟩) ?_ rfl rfl
    rw [hrest, scan, hlexeme]

/-- **The loop over the calls** gives the tokens of the text and reports nothing, or it gives none
    and reports the first error, once. -/
theorem tokens_eq {s : LexerState} (h : s.hasError = false) (seen : Array LineToken) :
    s.tokens seen =
      match scan s.line 0 s.rest with
      | .ok tokens => (seen.toList ++ tokens, s.diagnostics)
      | .error e => ([], e.report s.diagnostics) := by
  fun_induction tokens s seen with
  | case1 s seen hend =>
    rw [hend, scan]
    exact congrArg (·, s.diagnostics) Array.toList_push
  | case2 s seen hend t later hnext _ ih =>
    have hmeets := s.meets_next
    rw [hnext] at hmeets
    cases hmeets with
    | token hscan hsame hsaid =>
      rw [ih (hsame.trans h), hscan, hsaid]
      cases scan later.line 0 later.rest with
      | ok tokens => simp [Except.map]
      | error e => rfl
  | case3 s seen hend later hnext _ herror =>
    have hmeets := s.meets_next
    rw [hnext] at hmeets
    cases hmeets with
    | ended _ _ hsame _ => cases herror.symm.trans (hsame.trans h)
    | refused hscan _ hsaid => rw [hscan, hsaid]
  | case4 s seen hend later hnext _ hgoes ih =>
    have hmeets := s.meets_next
    rw [hnext] at hmeets
    cases hmeets with
    | ended hrest hscan hsame hsaid => rw [ih (hsame.trans h), hrest, hscan, hsaid]
    | refused _ herror _ => exact absurd herror hgoes

end LexerState

/-! ## 3. Whole texts -/

theorem lexing_eq (d : Diagnostics) (source : String) :
    d.lexing source =
      match scanText source.toList with
      | .ok tokens => (tokens, d)
      | .error e => ([], e.report d) := by
  unfold Diagnostics.lexing scanText
  dsimp only
  split
  · rw [LexerState.tokens_eq rfl]
    rfl
  · rfl

theorem lex_eq {source : String} {chars : List Char} (h : source.toList = chars) :
    lex source = (scanText chars).mapError fun e => e.report {} := by
  rw [lex, lexing_eq, h]
  cases hscan : scanText chars with
  | error e => rfl
  | ok tokens =>
    cases tokens with
    | cons t rest => rfl
    | nil =>
      unfold scanText at hscan
      split at hscan
      · exact absurd hscan scan_ne_nil
      · cases hscan

end ObjectFlow
