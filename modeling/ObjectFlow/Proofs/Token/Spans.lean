/-
  File:      ObjectFlow/Proofs/Token/Spans.lean
  Subject:   WHERE THE TOKENS STAND IN A TEXT, and what stands between them.

  A text that has tokens falls into pieces: what fills the room in front of a token, and the
  characters of the token. These give the token also by themselves; the rest is blanks, line ends
  and comments; and the line of a token counts the line ends in front of its characters.

  * `lexemeAt_alone`: a token is decided by its own characters;
  * `filler_cases`: what is passed over is a blank, a line end or a comment;
  * `Layout`: a text in pieces, and the tokens it has for them;
  * `lex_lays_out`: every text with tokens has such a layout.
-/
import Mathlib.Data.List.TakeWhile
import ObjectFlow.Proofs.Token.Cutting
import ObjectFlow.Proofs.Token.Writing

namespace ObjectFlow

/-! ## 1. Tokens by themselves -/

/-- The next `more` characters hold no line end, and the token, which is not the end of the text, is
    read also when nothing follows them. -/
def StandsAlone (read : List Char → Lexeme) (rest : List Char) (t : Token) (more : Nat) : Prop :=
  t ≠ .endOfFile ∧
    ∃ own later, rest = own ++ later ∧ own.length = more ∧ '\n' ∉ own ∧ read own = .token t more

namespace StandsAlone

variable {read : List Char → Lexeme} {rest : List Char} {t : Token}

theorem nil (ht : t ≠ .endOfFile) (h : read [] = .token t 0) : StandsAlone read rest t 0 :=
  ⟨ht, [], rest, rfl, rfl, List.not_mem_nil, h⟩

theorem append (ht : t ≠ .endOfFile) (own : List Char) (hline : '\n' ∉ own)
    (h : read own = .token t own.length) : StandsAlone read (own ++ rest) t own.length :=
  ⟨ht, own, rest, rfl, rfl, hline, h⟩

theorem takeWhile (ht : t ≠ .endOfFile) {p : Char → Bool} (hp : p '\n' = false)
    (h : read (rest.takeWhile p) = .token t (rest.takeWhile p).length) :
    StandsAlone read rest t (rest.takeWhile p).length := by
  refine ⟨ht, _, rest.dropWhile p, List.takeWhile_append_dropWhile.symm, rfl, fun hmem => ?_, h⟩
  rw [List.mem_takeWhile_imp hmem] at hp
  cases hp

end StandsAlone

section Alone

variable {c : Char} {rest : List Char} {t : Token} {more : Nat}

theorem closeLexeme_alone (h : closeLexeme rest = .token t more) :
    StandsAlone closeLexeme rest t more := by
  unfold closeLexeme at h
  split at h <;> cases h
  · exact .append (by nofun) ['='] (by decide) rfl
  · exact .append (by nofun) ['>', '>'] (by decide) rfl
  · exact .append (by nofun) ['>'] (by decide) rfl
  · exact .nil (by nofun) rfl

theorem numberLexeme_alone (h : numberLexeme c rest = .token t more) :
    StandsAlone (numberLexeme c) rest t more := by
  unfold numberLexeme at h
  dsimp only at h
  split at h <;> cases h
  rename_i value hvalue
  refine .takeWhile (by nofun) rfl ?_
  rw [numberLexeme, List.takeWhile_idem, hvalue]

theorem wordLexeme_alone (h : wordLexeme c rest = .token t more) :
    StandsAlone (wordLexeme c) rest t more := by
  unfold wordLexeme at h
  dsimp only at h
  split at h <;> cases h <;> rename_i hword <;> refine .takeWhile (by nofun) rfl ?_ <;>
    rw [wordLexeme, List.takeWhile_idem, hword]

/-- A text that starts with no initializer name has no part that does. -/
theorem find?_initializer_append (text later : List Char)
    (h : (initializerNames.find? fun name =>
      (Text.dropFront? name.toList (text ++ later)).isSome) = none) :
    (initializerNames.find? fun name => (Text.dropFront? name.toList text).isSome) = none := by
  refine List.find?_eq_none.mpr fun name hname hfront => List.find?_eq_none.mp h name hname ?_
  obtain ⟨behind, hbehind⟩ := Option.isSome_iff_exists.mp hfront
  rw [Text.dropFront?_eq_some_iff.mp hbehind, List.append_assoc]
  exact Option.isSome_iff_exists.mpr ⟨_, Text.dropFront?_eq_some_iff.mpr rfl⟩

theorem angleLexeme_alone (h : angleLexeme rest = .token t more) :
    StandsAlone angleLexeme rest t more := by
  unfold angleLexeme at h
  dsimp only at h
  split at h
  · rename_i name hname
    have hfront : (Text.dropFront? name.toList ('<' :: rest)).isSome = true := by
      simpa using List.find?_some hname
    obtain ⟨later, hlater⟩ := Option.isSome_iff_exists.mp hfront
    have htext := Text.dropFront?_eq_some_iff.mp hlater
    cases h
    rcases List.mem_cons.mp (List.mem_of_find?_eq_some hname) with rfl | hname
    · obtain ⟨-, rfl⟩ := List.cons.inj (htext : _ = '<' :: (['i', 'n', 'i', 't', '>'] ++ later))
      exact .append (by nofun) _ (by decide) rfl
    · obtain rfl := List.mem_singleton.mp hname
      obtain ⟨-, rfl⟩ :=
        List.cons.inj (htext : _ = '<' :: (['c', 'l', 'i', 'n', 'i', 't', '>'] ++ later))
      exact .append (by nofun) _ (by decide) rfl
  · rename_i hnone
    split at h
    · rename_i n hn
      cases h
      split at hn
      · rename_i hhead
        obtain ⟨inner, later, rfl, rfl, hend⟩ := signatureLength?_eq_some_iff.mp hn
        have hown : inner ++ '>' :: later = (inner ++ ['>']) ++ later := by simp
        have hlength : (inner ++ ['>']).length = inner.length + 1 := List.length_append
        refine ⟨nofun, inner ++ ['>'], later, hown, hlength, fun hmem => ?_, ?_⟩
        · rcases List.mem_append.mp hmem with hmem | hmem
          · exact (of_bracketsEnd hend _ hmem).2.1 rfl
          · exact absurd hmem (by decide)
        · have hstart : ((inner ++ ['>']).head?.map Char.isAlpha).getD false = true := by
            cases inner with
            | nil => cases hhead
            | cons d inner => exact hhead
          have hfree := find?_initializer_append ('<' :: (inner ++ ['>'])) later
            (by rw [List.cons_append, ← hown]; exact hnone)
          have hends := signatureLength?_eq_some_iff.mpr ⟨inner, [], rfl, rfl, hend⟩
          unfold angleLexeme
          dsimp only
          rw [hfree, if_pos hstart, hends]
          dsimp only
          rw [Nat.add_sub_cancel, List.take_left, List.take_left]
      · cases hn
    · split at h <;> cases h
      · exact .append (by nofun) ['='] (by decide) rfl
      · exact .append (by nofun) ['<'] (by decide) rfl
      · exact .nil (by nofun) rfl

theorem ne_endOfFile_of_single (h : singleToken? c = some t) : t ≠ .endOfFile := by
  rintro rfl
  unfold singleToken? at h
  split at h <;> cases h

/-- **A token is decided by its own characters**, and they all stand on one line. -/
theorem lexemeAt_alone (h : lexemeAt c rest = .token t more) :
    StandsAlone (lexemeAt c) rest t more := by
  cases begins_of_lexemeAt h with
  | single hsingle =>
    refine .nil (ne_endOfFile_of_single hsingle) ?_
    rw [lexemeAt, hsingle]
  | equal => exact .append (by nofun) ['='] (by decide) rfl
  | assign => exact .nil (by nofun) rfl
  | unequal => exact .append (by nofun) ['='] (by decide) rfl
  | close hclose => exact closeLexeme_alone hclose
  | angle hangle => exact angleLexeme_alone hangle
  | divide => exact .nil (by nofun) rfl
  | negative hdigit hnumber =>
    obtain ⟨ht, own, later, rfl, hmore, hline, hread⟩ := numberLexeme_alone hnumber
    refine ⟨ht, own, later, rfl, hmore, hline, ?_⟩
    -- a minus sign alone is no number
    cases own with
    | nil => cases hread
    | cons d own => exact (if_pos hdigit).trans hread
  | minus => exact .nil (by nofun) rfl
  | number hdigit hnumber =>
    rw [funext (lexemeAt_of_isDigit hdigit)]
    exact numberLexeme_alone hnumber
  | word hstart hword =>
    rw [funext (lexemeAt_of_isWordStart hstart)]
    exact wordLexeme_alone hword

end Alone

/-! ## 2. What stands between tokens -/

/-- What starts a comment that ends with its line. -/
def lineMarks : List (List Char) := [['#'], ['/', '/']]

/-- A comment up to the end of its line. -/
def IsLineComment (text : List Char) : Prop :=
  ∃ mark ∈ lineMarks, ∃ words, text = mark ++ words ∧ '\n' ∉ words

theorem IsLineComment.count_eq_zero {text : List Char} (h : IsLineComment text) :
    text.count '\n' = 0 := by
  obtain ⟨mark, hmark, words, rfl, hwords⟩ := h
  have hmarks : ∀ mark ∈ lineMarks, '\n' ∉ mark := by decide
  exact List.count_eq_zero.mpr fun hmem =>
    (List.mem_append.mp hmem).elim (hmarks mark hmark) hwords

/-- What separates tokens: a blank, a line end, a comment with the end of its line, or a comment
    that is closed where it can first be closed. -/
inductive IsFiller : List Char → Prop
  | blank {c : Char} (h : c ∈ ['\n', ' ', '\t', '\r']) : IsFiller [c]
  | line {text : List Char} (h : IsLineComment text) : IsFiller (text ++ ['\n'])
  | block {words : List Char} (h : ¬ ['*', '/'] <:+: words) :
      IsFiller ('/' :: '*' :: (words ++ ['*', '/']))

/-- What stands in front of a token. -/
inductive IsGap : List Char → Prop
  | nil : IsGap []
  | cons {filler rest : List Char} (hfiller : IsFiller filler) (hrest : IsGap rest) :
      IsGap (filler ++ rest)

/-- What stands behind the last token; no line end need follow its last comment. -/
def IsTail (tail : List Char) : Prop :=
  ∃ gap last, tail = gap ++ last ∧ IsGap gap ∧ (last = [] ∨ IsLineComment last)

/-- The end of a comment is the first one. -/
theorem commentLength?_eq_some {cs : List Char} {n : Nat} (h : commentLength? cs = some n) :
    ∃ words later, cs = words ++ '*' :: '/' :: later ∧ n = words.length + 2 ∧
      ¬ ['*', '/'] <:+: words := by
  induction cs generalizing n with
  | nil => cases h
  | cons c cs ih =>
    rw [commentLength?_cons] at h
    split at h
    · rename_i hend
      obtain ⟨rfl, hslash⟩ := hend
      obtain ⟨later, rfl⟩ := List.head?_eq_some_iff.mp hslash
      cases h
      exact ⟨[], later, rfl, rfl, fun hinfix => by simp at hinfix⟩
    · rename_i hgoes
      obtain ⟨k, hk, rfl⟩ := Option.map_eq_some_iff.mp h
      obtain ⟨words, later, rfl, rfl, hfree⟩ := ih hk
      refine ⟨c :: words, later, rfl, rfl, fun hinfix => ?_⟩
      rcases List.infix_cons_iff.mp hinfix with ⟨behind, hfront⟩ | hinfix
      · obtain ⟨rfl, hwords⟩ := List.cons.inj hfront
        refine hgoes ⟨rfl, ?_⟩
        rw [← hwords]
        rfl
      · exact hfree hinfix

section Gaps

variable {c : Char} {rest : List Char} {more lines : Nat}

theorem angleLexeme_ne_gap (rest : List Char) (more lines : Nat) :
    angleLexeme rest ≠ .gap more lines := by
  intro h
  unfold angleLexeme at h
  dsimp only at h
  split at h
  · cases h
  · split at h
    · cases h
    · split at h <;> cases h

theorem numberLexeme_ne_gap (c : Char) (rest : List Char) (more lines : Nat) :
    numberLexeme c rest ≠ .gap more lines := by
  intro h
  unfold numberLexeme at h
  dsimp only at h
  split at h <;> cases h

/-- What is passed over, by its first characters, and how many lines are counted for it. -/
theorem lexemeAt_eq_gap (h : lexemeAt c rest = .gap more lines) :
    (c ∈ ['\n', ' ', '\t', '\r'] ∧ more = 0 ∧ lines = [c].count '\n') ∨
    (∃ mark ∈ lineMarks, ∃ chars, c :: rest = mark ++ chars ∧
      more + 1 = (mark ++ chars.takeWhile (· ≠ '\n')).length ∧ lines = 0) ∨
    ∃ chars n, c :: rest = '/' :: '*' :: chars ∧ commentLength? chars = some n ∧ more = n + 1 ∧
      lines = (chars.take n).count '\n' := by
  cases begins_of_lexemeAt h with
  | newline => exact .inl ⟨List.mem_cons_self, rfl, rfl⟩
  | blank hblank =>
    have hnone : '\n' ∉ [c] := fun hmem => by
      rw [← List.mem_singleton.mp hmem] at hblank
      exact absurd hblank (by decide)
    exact .inl ⟨List.mem_cons_of_mem _ hblank, rfl, (List.count_eq_zero.mpr hnone).symm⟩
  | hash => exact .inr (.inl ⟨['#'], by decide, rest, rfl, rfl, rfl⟩)
  | line => exact .inr (.inl ⟨['/', '/'], by decide, _, rfl, by simp, rfl⟩)
  | block hlength => exact .inr (.inr ⟨_, _, rfl, hlength, rfl, rfl⟩)
  | close hclose =>
    unfold closeLexeme at hclose
    split at hclose <;> cases hclose
  | angle hangle => exact absurd hangle (angleLexeme_ne_gap rest more lines)
  | negative _ hnumber => exact absurd hnumber (numberLexeme_ne_gap '-' rest more lines)
  | number _ hnumber => exact absurd hnumber (numberLexeme_ne_gap c rest more lines)
  | word _ hword =>
    unfold wordLexeme at hword
    dsimp only at hword
    split at hword <;> cases hword

/-- What is passed over is left behind, on the line that its line ends lead to. -/
theorem scan_gap {text later : List Char} (hrest : c :: rest = text ++ later)
    (hmore : more + 1 = text.length) (hlines : lines = text.count '\n')
    (h : lexemeAt c rest = .gap more lines) (line : Nat) :
    scan line 0 (c :: rest) = scan (line + text.count '\n') 0 later := by
  cases text with
  | nil => cases hmore
  | cons d text =>
    obtain ⟨rfl, rfl⟩ := List.cons.inj hrest
    obtain rfl : more = text.length := Nat.succ.inj hmore
    rw [scan, h, hlines]
    exact Emits.scan_skip _ text later

/-- **What is passed over is a filler, or a comment with which the text ends.** -/
theorem filler_cases (h : lexemeAt c rest = .gap more lines) :
    (∃ filler later, IsFiller filler ∧ c :: rest = filler ++ later ∧
      ∀ line, scan line 0 (c :: rest) = scan (line + filler.count '\n') 0 later) ∨
    IsLineComment (c :: rest) ∧ ∀ line, scan line 0 (c :: rest) = .ok [⟨.endOfFile, line⟩] := by
  rcases lexemeAt_eq_gap h with ⟨hblank, rfl, hlines⟩ | ⟨mark, hmark, chars, hrest, hmore, rfl⟩ |
    ⟨chars, n, hrest, hlength, rfl, rfl⟩
  · exact .inl ⟨[c], rest, .blank hblank, rfl, scan_gap rfl rfl hlines h⟩
  · -- the comment goes up to a line end or up to the end of the text
    have hwords : '\n' ∉ chars.takeWhile (· ≠ '\n') := fun hmem => by
      simpa using List.mem_takeWhile_imp hmem
    have hcomment : IsLineComment (mark ++ chars.takeWhile (· ≠ '\n')) :=
      ⟨mark, hmark, _, rfl, hwords⟩
    have hcount := hcomment.count_eq_zero
    have hsplit : c :: rest =
        mark ++ chars.takeWhile (· ≠ '\n') ++ chars.dropWhile (· ≠ '\n') := by
      rw [List.append_assoc, List.takeWhile_append_dropWhile, hrest]
    have hscan := scan_gap hsplit hmore hcount.symm h
    rw [hcount] at hscan
    cases hbehind : chars.dropWhile (· ≠ '\n') with
    | nil =>
      rw [hbehind] at hsplit hscan
      rw [List.append_nil] at hsplit
      exact .inr ⟨hsplit ▸ hcomment, hscan⟩
    | cons d later =>
      obtain rfl : d = '\n' := by
        have hd := List.head?_dropWhile_not (· ≠ '\n') chars
        rw [hbehind] at hd
        simpa using hd
      rw [hbehind] at hsplit hscan
      refine .inl ⟨_, later, .line hcomment, ?_, fun line => ?_⟩
      · rw [hsplit, List.append_assoc, List.append_assoc]
        simp
      · rw [hscan, List.count_append, hcount]
        rfl
  · obtain ⟨words, later, rfl, rfl, hfree⟩ := commentLength?_eq_some hlength
    have hsplit : c :: rest = '/' :: '*' :: (words ++ ['*', '/']) ++ later := by
      rw [hrest]
      simp
    have htake : (words ++ '*' :: '/' :: later).take (words.length + 2) = words ++ ['*', '/'] := by
      have happend : words ++ '*' :: '/' :: later = (words ++ ['*', '/']) ++ later := by simp
      rw [happend]
      exact List.take_left' (by simp)
    -- the marks of a comment hold no line end
    have hlines : ((words ++ '*' :: '/' :: later).take (words.length + 2)).count '\n' =
        ('/' :: '*' :: (words ++ ['*', '/'])).count '\n' := by
      rw [htake]
      rfl
    exact .inl ⟨_, later, .block hfree, hsplit, scan_gap hsplit (by simp) hlines h⟩

end Gaps

/-! ## 3. Layouts -/

/-- A token in a text: what fills the room in front of it, and its own characters, which give the
    token by themselves. -/
structure Piece where
  gap : List Char
  span : List Char
  token : Token
  filled : IsGap gap
  inside : token ≠ .endOfFile
  alone : lex (String.ofList span) = .ok [⟨token, 1⟩, ⟨.endOfFile, 1⟩]

def Piece.text (p : Piece) : List Char := p.gap ++ p.span

/-- A text in pieces, one for each token, and what stands behind them. -/
structure Layout (cs : List Char) where
  pieces : List Piece
  tail : List Char
  filled : IsTail tail
  covers : cs = pieces.flatMap Piece.text ++ tail

namespace Layout

variable {cs : List Char}

/-- The tokens of a text that starts on `line`: each stands on the line that is reached with the
    line ends in front of its characters. -/
def tokens (layout : Layout cs) (line : Nat) : List LineToken :=
  layout.pieces.mapIdx (fun i p =>
    ⟨p.token, line + ((layout.pieces.take i).flatMap Piece.text ++ p.gap).count '\n'⟩) ++
  [⟨.endOfFile, line + cs.count '\n'⟩]

/-- The layout of a text without tokens. -/
def blank (h : IsTail cs) : Layout cs := ⟨[], cs, h, rfl⟩

/-- A piece in front of a text. -/
def cons (p : Piece) (layout : Layout cs) : Layout (p.text ++ cs) where
  pieces := p :: layout.pieces
  tail := layout.tail
  filled := layout.filled
  covers := by
    conv_lhs => rw [layout.covers]
    rw [List.flatMap_cons, List.append_assoc]

theorem tokens_cons (p : Piece) (layout : Layout cs) (line : Nat) :
    (cons p layout).tokens line =
      ⟨p.token, line + p.gap.count '\n'⟩ :: layout.tokens (line + p.text.count '\n') := by
  simp [tokens, cons, List.mapIdx_cons, List.count_append, Nat.add_assoc]

/-- A filler in front of a text: it belongs to the first piece, or to the tail if there is none. -/
theorem exists_fill {filler : List Char} (hfiller : IsFiller filler) (layout : Layout cs) :
    ∃ layout' : Layout (filler ++ cs),
      ∀ line, layout'.tokens line = layout.tokens (line + filler.count '\n') := by
  obtain ⟨pieces, tail, filled, rfl⟩ := layout
  cases pieces with
  | nil =>
    obtain ⟨gap, last, rfl, hgap, hlast⟩ := filled
    have htail : IsTail (filler ++ (gap ++ last)) :=
      ⟨filler ++ gap, last, (List.append_assoc filler gap last).symm, .cons hfiller hgap, hlast⟩
    refine ⟨blank htail, fun line => ?_⟩
    simp [tokens, blank, Nat.add_assoc]
  | cons p pieces =>
    let p' : Piece :=
      ⟨filler ++ p.gap, p.span, p.token, .cons hfiller p.filled, p.inside, p.alone⟩
    refine ⟨⟨p' :: pieces, tail, filled, ?_⟩, fun line => ?_⟩
    · simp [p', Piece.text]
    · simp [tokens, p', Piece.text, List.mapIdx_cons, Nat.add_assoc]

end Layout

/-- A token by itself, as a whole text. -/
theorem lex_alone {c : Char} {own : List Char} {t : Token} (hascii : IsAscii (c :: own))
    (h : lexemeAt c own = .token t own.length) :
    lex (String.ofList (c :: own)) = .ok [⟨t, 1⟩, ⟨.endOfFile, 1⟩] := by
  refine lex_eq_ok.mpr ⟨by rwa [String.toList_ofList], ?_⟩
  rw [String.toList_ofList, scan, h]
  dsimp only
  rw [scan_drop, List.drop_length]
  rfl

/-- No line end starts a token. -/
theorem ne_newline_of_token {c : Char} {rest : List Char} {t : Token} {more : Nat}
    (h : lexemeAt c rest = .token t more) : c ≠ '\n' := by
  rintro rfl
  cases h

/-- **The tokens of every text are those of a layout.** The induction is on the length of the text;
    a step takes a token, or what is passed over. -/
theorem scan_lays_out {line : Nat} {cs : List Char} {tokens : List LineToken} (hascii : IsAscii cs)
    (h : scan line 0 cs = .ok tokens) : ∃ layout : Layout cs, tokens = layout.tokens line := by
  induction hn : cs.length using Nat.strong_induction_on generalizing line cs tokens with
  | _ n ih =>
    subst hn
    cases cs with
    | nil =>
      cases h
      exact ⟨.blank ⟨[], [], rfl, .nil, .inl rfl⟩, rfl⟩
    | cons c rest =>
      cases hlexeme : lexemeAt c rest with
      | token t more =>
        obtain ⟨ht, own, later, rfl, rfl, hline, halone⟩ := lexemeAt_alone hlexeme
        have hspan : '\n' ∉ c :: own := fun hmem =>
          (List.mem_cons.mp hmem).elim (ne_newline_of_token hlexeme ·.symm) hline
        have hown : IsAscii (c :: own) := fun d hd => hascii d (List.mem_append_left later hd)
        rw [scan, hlexeme] at h
        dsimp only at h
        obtain ⟨behind, hbehind, rfl⟩ := map_eq_ok h
        rw [Emits.scan_skip] at hbehind
        have hshorter : later.length < (c :: (own ++ later)).length := by
          rw [List.length_cons, List.length_append]
          omega
        obtain ⟨layout, rfl⟩ := ih later.length hshorter
          (fun d hd => hascii d (List.mem_append_right (c :: own) hd)) hbehind rfl
        let p : Piece := ⟨[], c :: own, t, .nil, ht, lex_alone hown halone⟩
        -- no line is counted for a token, and none ends in its span
        have hnone : p.text.count '\n' = 0 := List.count_eq_zero.mpr hspan
        have htokens := Layout.tokens_cons p layout line
        rw [hnone] at htokens
        exact ⟨.cons p layout, htokens.symm⟩
      | gap more lines =>
        rcases filler_cases hlexeme with ⟨filler, later, hfiller, hrest, hscan⟩ | ⟨hlast, hscan⟩
        · rw [hscan] at h
          rw [hrest] at hascii ⊢
          have hlength : later.length < (c :: rest).length := by
            rw [hrest]
            cases hfiller <;> simp <;> omega
          obtain ⟨layout, rfl⟩ := ih later.length hlength
            (fun d hd => hascii d (List.mem_append_right filler hd)) h rfl
          obtain ⟨layout', hlayout'⟩ := layout.exists_fill hfiller
          exact ⟨layout', (hlayout' line).symm⟩
        · rw [hscan] at h
          cases h
          refine ⟨.blank ⟨[], _, rfl, .nil, .inr hlast⟩, ?_⟩
          rw [Layout.tokens, hlast.count_eq_zero]
          rfl
      | wrong cause lines =>
        rw [scan, hlexeme] at h
        cases h

/-- The tokens end with the only one that stands for the end of a text. -/
def EndsOnce (tokens : List LineToken) : Prop :=
  ∃ front line, tokens = front ++ [⟨.endOfFile, line⟩] ∧ ∀ t ∈ front, t.token ≠ .endOfFile

theorem endsOnce_of_lex {source : String} {tokens : List LineToken} (h : lex source = .ok tokens) :
    EndsOnce tokens := by
  obtain ⟨hascii, hscan⟩ := lex_eq_ok.mp h
  obtain ⟨layout, rfl⟩ := scan_lays_out hascii hscan
  refine ⟨_, _, rfl, fun t ht => ?_⟩
  obtain ⟨i, hi, rfl⟩ := List.mem_mapIdx.mp ht
  exact layout.pieces[i].inside

/-- **The lexer accounts for every character and every line.** Every text that has tokens falls into
    pieces, one for each token but the last: what stands in front of the token, which is nothing
    but blanks, line ends and comments, and the characters of the token, which give just this
    token also by themselves. The line of a token is one more than the number of line ends in front
    of its characters; the end of the text stands behind all of them. -/
theorem lex_lays_out {source : String} {tokens : List LineToken} (h : lex source = .ok tokens) :
    ∃ layout : Layout source.toList, tokens = layout.tokens 1 := by
  obtain ⟨hascii, hscan⟩ := lex_eq_ok.mp h
  exact scan_lays_out hascii hscan

/-- A text with all three kinds of comment, the last of them without a line end. -/
def commented : String :=
  "int # no token\n/* two\n** lines */x\r\n= <A: void m( )> // the end"

theorem lex_lays_out_commented :
    ∃ layout : Layout commented.toList, layout.tokens 1 =
      [⟨.keyword (.prim .int), 1⟩, ⟨.ident "x", 3⟩, ⟨.mark .assign, 4⟩,
        ⟨.signature "A: void m( )", 4⟩, ⟨.endOfFile, 4⟩] := by
  have htext : commented.toList = _ := String.toList_ofList
  have hlex : lex commented = .ok
      [⟨.keyword (.prim .int), 1⟩, ⟨.ident "x", 3⟩, ⟨.mark .assign, 4⟩,
        ⟨.signature "A: void m( )", 4⟩, ⟨.endOfFile, 4⟩] := by
    rw [lex_eq htext]
    decide +kernel
  obtain ⟨layout, h⟩ := lex_lays_out hlex
  exact ⟨layout, h.symm⟩

end ObjectFlow
