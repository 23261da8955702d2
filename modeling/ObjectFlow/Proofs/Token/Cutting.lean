/-
  File:      ObjectFlow/Proofs/Token/Cutting.lean
  Subject:   A TEXT CAN BE CUT AT A BRACE: what stands behind a brace does not change the tokens
             in front of it.

  No lexeme that ends before a brace depends on what follows the brace: names and numbers end
  there, signatures do not go past it, and a comment that has ended has ended.

  * `lexemeAt_before_brace`: one lexeme;
  * `places`: where the tokens of a text stand;
  * `scan_cut`: every brace among the tokens of a text is a place where the text can be cut;
  * `scan_line`: the line a text starts on changes nothing but lines.
-/
import Mathlib.Data.List.Find
import ObjectFlow.Proofs.Token.Spelling

namespace ObjectFlow

/-! ## 1. Lexemes before a brace -/

/-- Braces as tokens. -/
def brace? : Token → Option Char
  | .mark .leftBrace => some '{'
  | .mark .rightBrace => some '}'
  | _ => none

/-- Braces belong to no longer token. -/
structure IsBrace (b : Char) : Prop where
  mem : b = '{' ∨ b = '}'

namespace IsBrace

variable {b : Char}

theorem isWordChar (h : IsBrace b) : isWordChar b = false := by
  rcases h.mem with rfl | rfl <;> rfl

theorem isDigit (h : IsBrace b) : b.isDigit = false := by
  rcases h.mem with rfl | rfl <;> rfl

theorem ne (h : IsBrace b) {c : Char} (hc : c ≠ '{' ∧ c ≠ '}') : b ≠ c := by
  rintro rfl
  rcases h.mem with h | h
  · exact hc.1 h
  · exact hc.2 h

end IsBrace

/-- The lexeme takes at most `n` further characters. -/
def Lexeme.Within (n : Nat) : Lexeme → Prop
  | .token _ more | .gap more _ => more ≤ n
  | .wrong _ _ => False

section BeforeBrace

variable {b : Char} {u v v' : List Char}

theorem head?_before_brace (u v v' : List Char) (b : Char) :
    (u ++ b :: v).head? = (u ++ b :: v').head? := by
  cases u <;> rfl

/-- What ends at a brace at the latest is the same whatever follows the brace. -/
theorem takeWhile_before_brace {p : Char → Bool} (hp : p b = false) (u v v' : List Char) :
    (u ++ b :: v).takeWhile p = (u ++ b :: v').takeWhile p := by
  induction u with
  | nil => simp [hp]
  | cons c u ih =>
    rw [List.cons_append, List.cons_append, List.takeWhile_cons, List.takeWhile_cons, ih]

/-- A line that ends before a brace is the same whatever follows the brace. -/
theorem takeWhile_of_length_le {p : Char → Bool} (hp : p b = true)
    (h : ((u ++ b :: v).takeWhile p).length ≤ u.length) :
    (u ++ b :: v').takeWhile p = (u ++ b :: v).takeWhile p := by
  induction u with
  | nil => simp [hp] at h
  | cons c u ih =>
    rw [List.cons_append, List.takeWhile_cons] at h
    rw [List.cons_append, List.cons_append, List.takeWhile_cons, List.takeWhile_cons]
    split at h
    · rw [ih (Nat.le_of_succ_le_succ h)]
    · rename_i hc
      rw [if_neg hc, if_neg hc]

/-- The search for the end of a comment, by its first character. -/
theorem commentLength?_cons (c : Char) (cs : List Char) :
    commentLength? (c :: cs) =
      if c = '*' ∧ cs.head? = some '/' then some 2 else (commentLength? cs).map (· + 1) := by
  conv_lhs => rw [commentLength?.eq_def]
  split
  · rename_i rest heq
    obtain ⟨rfl, rfl⟩ := List.cons.inj heq
    exact (if_pos ⟨rfl, rfl⟩).symm
  · rename_i d rest hne heq
    obtain ⟨rfl, rfl⟩ := List.cons.inj heq
    refine (if_neg fun ⟨hstar, hslash⟩ => ?_).symm
    obtain ⟨tail, rfl⟩ := List.head?_eq_some_iff.mp hslash
    exact hne tail hstar rfl
  · rename_i heq
    cases heq

/-- A comment is at least as long as its end. -/
theorem two_le_of_commentLength? {cs : List Char} {n : Nat} (h : commentLength? cs = some n) :
    2 ≤ n := by
  induction cs generalizing n with
  | nil => cases h
  | cons c cs ih =>
    rw [commentLength?_cons] at h
    split at h
    · cases h
      exact Nat.le_refl 2
    · obtain ⟨k, hk, rfl⟩ := Option.map_eq_some_iff.mp h
      exact Nat.le_succ_of_le (ih hk)

theorem commentLength?_append {n : Nat} (h : commentLength? (u ++ v) = some n)
    (hn : n ≤ u.length) : commentLength? (u ++ v') = some n := by
  induction u generalizing n with
  | nil => exact absurd (two_le_of_commentLength? h) (by simp [Nat.le_zero.mp hn])
  | cons c u ih =>
    cases u with
    | nil => exact absurd (two_le_of_commentLength? h) (by simpa using Nat.lt_succ_of_le hn)
    | cons d u =>
      have hhead : (d :: u ++ v').head? = (d :: u ++ v).head? := rfl
      rw [List.cons_append, commentLength?_cons] at h ⊢
      rw [hhead]
      split at h
      · rename_i hend
        rw [if_pos hend, h]
      · rename_i hgoes
        rw [if_neg hgoes]
        obtain ⟨k, hk, rfl⟩ := Option.map_eq_some_iff.mp h
        rw [ih hk (Nat.le_of_succ_le_succ hn)]
        rfl

theorem signatureLength?_before_brace (hb : IsBrace b) (u v v' : List Char) (depth : Nat)
    (colon : Bool) :
    signatureLength? depth colon (u ++ b :: v) = signatureLength? depth colon (u ++ b :: v') := by
  induction u generalizing depth colon with
  | nil =>
    have hnone : ∀ w, signatureLength? depth colon (b :: w) = none := by
      intro w
      rcases hb.mem with rfl | rfl <;> simp [signatureLength?]
    rw [List.nil_append, List.nil_append, hnone, hnone]
  | cons c u ih =>
    rw [List.cons_append, List.cons_append, signatureLength?_cons, signatureLength?_cons]
    simp only [ih]

theorem dropFront?_before_brace (hb : IsBrace b) {front : List Char}
    (hfront : ∀ c ∈ front, c ≠ '{' ∧ c ≠ '}') (u v v' : List Char) :
    (Text.dropFront? front (u ++ b :: v)).isSome =
      (Text.dropFront? front (u ++ b :: v')).isSome := by
  induction front generalizing u with
  | nil => rfl
  | cons f front ih =>
    cases u with
    | nil =>
      have hne : f ≠ b := (hb.ne (hfront f List.mem_cons_self)).symm
      simp [Text.dropFront?, hne]
    | cons c u =>
      simp only [List.cons_append, Text.dropFront?]
      split
      · exact ih (fun d hd => hfront d (List.mem_cons_of_mem f hd)) u
      · rfl

theorem closeLexeme_before_brace (hb : IsBrace b) (u v v' : List Char) :
    closeLexeme (u ++ b :: v) = closeLexeme (u ++ b :: v') := by
  rcases u with _ | ⟨c, _ | ⟨d, u⟩⟩
  · rcases hb.mem with rfl | rfl <;> rfl
  · by_cases heq : c = '='
    · subst heq
      rfl
    · by_cases hgt : c = '>'
      · subst hgt
        rcases hb.mem with rfl | rfl <;> rfl
      · simp [closeLexeme, heq, hgt]
  · by_cases heq : c = '='
    · subst heq
      rfl
    · by_cases hgt : c = '>'
      · subst hgt
        by_cases hgt' : d = '>'
        · subst hgt'
          rfl
        · simp [closeLexeme, hgt']
      · simp [closeLexeme, heq, hgt]

theorem slashLexeme_before_brace (hb : IsBrace b)
    (h : (slashLexeme (u ++ b :: v)).Within u.length) :
    slashLexeme (u ++ b :: v') = slashLexeme (u ++ b :: v) := by
  cases u with
  | nil => rcases hb.mem with rfl | rfl <;> rfl
  | cons c u =>
    by_cases hline : c = '/'
    · subst hline
      have hle : ((u ++ b :: v).takeWhile (· ≠ '\n')).length ≤ u.length := Nat.le_of_succ_le_succ h
      have hb' : decide (b ≠ '\n') = true := decide_eq_true (hb.ne (by decide))
      exact congrArg (fun line : List Char => Lexeme.gap line.length.succ 0)
        (takeWhile_of_length_le hb' hle)
    · by_cases hblock : c = '*'
      · subst hblock
        simp only [List.cons_append, slashLexeme] at h ⊢
        cases hlength : commentLength? (u ++ b :: v) with
        | none =>
          rw [hlength] at h
          exact h.elim
        | some n =>
          rw [hlength] at h
          have hn : n ≤ u.length := Nat.le_of_succ_le_succ h
          rw [commentLength?_append hlength hn]
          dsimp only
          rw [List.take_append_of_le_length hn, List.take_append_of_le_length hn]
      · simp [slashLexeme, hline, hblock]

theorem angleLexeme_before_brace (hb : IsBrace b)
    (h : (angleLexeme (u ++ b :: v)).Within u.length) :
    angleLexeme (u ++ b :: v') = angleLexeme (u ++ b :: v) := by
  have hnames : (initializerNames.find? fun name =>
        (Text.dropFront? name.toList ('<' :: (u ++ b :: v'))).isSome) =
      initializerNames.find? fun name =>
        (Text.dropFront? name.toList ('<' :: (u ++ b :: v))).isSome := by
    refine List.find?_congr fun name hname => ?_
    have hall : ∀ n ∈ initializerNames, n.toList.all fun c => c ≠ '{' ∧ c ≠ '}' := by decide
    have hchars : ∀ c ∈ name.toList, c ≠ '{' ∧ c ≠ '}' := fun c hc =>
      of_decide_eq_true (List.all_eq_true.mp (hall name hname) c hc)
    exact dropFront?_before_brace hb hchars ('<' :: u) v' v
  unfold angleLexeme at h ⊢
  dsimp only at h ⊢
  rw [hnames, head?_before_brace u v' v b, signatureLength?_before_brace hb u v' v]
  split
  · rfl
  · split
    · rename_i hnone _ n hn
      rw [hnone] at h
      dsimp only at h
      rw [hn] at h
      have hn : n ≤ u.length := h
      rw [List.take_append_of_le_length (by omega), List.take_append_of_le_length (by omega)]
    · rcases u with _ | ⟨c, u⟩
      · rcases hb.mem with rfl | rfl <;> rfl
      · by_cases heq : c = '='
        · subst heq
          rfl
        · by_cases hlt : c = '<'
          · subst hlt
            rfl
          · simp [heq, hlt]

theorem numberLexeme_before_brace (hb : IsBrace b) (c : Char) (u v v' : List Char) :
    numberLexeme c (u ++ b :: v) = numberLexeme c (u ++ b :: v') := by
  unfold numberLexeme
  rw [takeWhile_before_brace hb.isDigit u v v']

theorem wordLexeme_before_brace (hb : IsBrace b) (c : Char) (u v v' : List Char) :
    wordLexeme c (u ++ b :: v) = wordLexeme c (u ++ b :: v') := by
  unfold wordLexeme
  rw [takeWhile_before_brace hb.isWordChar u v v']

/-- **A lexeme that ends before a brace does not depend on what follows the brace.** -/
theorem lexemeAt_before_brace (hb : IsBrace b) {c : Char}
    (h : (lexemeAt c (u ++ b :: v)).Within u.length) :
    lexemeAt c (u ++ b :: v') = lexemeAt c (u ++ b :: v) := by
  have hhead := head?_before_brace u v' v b
  unfold lexemeAt at h ⊢
  split
  · rfl
  · rename_i hsingle
    rw [hsingle] at h
    dsimp only at h
    rw [hhead]
    by_cases h1 : c = '='
    · rw [if_pos h1, if_pos h1]
    rw [if_neg h1] at h
    rw [if_neg h1, if_neg h1]
    by_cases h2 : c = '!'
    · rw [if_pos h2, if_pos h2]
    rw [if_neg h2] at h
    rw [if_neg h2, if_neg h2]
    by_cases h3 : c = '>'
    · rw [if_pos h3, if_pos h3]
      exact closeLexeme_before_brace hb u v' v
    rw [if_neg h3] at h
    rw [if_neg h3, if_neg h3]
    by_cases h4 : c = '<'
    · rw [if_pos h4] at h
      rw [if_pos h4, if_pos h4]
      exact angleLexeme_before_brace hb h
    rw [if_neg h4] at h
    rw [if_neg h4, if_neg h4]
    split
    · rfl
    rename_i h5
    rw [if_neg h5] at h
    split
    · rfl
    rename_i h6
    rw [if_neg h6] at h
    split
    · rename_i h7
      rw [if_pos h7] at h
      rw [takeWhile_of_length_le (decide_eq_true (hb.ne (by decide))) h]
    rename_i h7
    rw [if_neg h7] at h
    split
    · rename_i h8
      rw [if_pos h8] at h
      exact slashLexeme_before_brace hb h
    split
    · split
      · exact numberLexeme_before_brace hb c u v' v
      · rfl
    split
    · exact numberLexeme_before_brace hb c u v' v
    split
    · exact wordLexeme_before_brace hb c u v' v
    · rfl

end BeforeBrace

/-! ## 2. Where braces come from -/

theorem brace?_angleLexeme {rest : List Char} {t : Token} {more : Nat}
    (h : angleLexeme rest = .token t more) : brace? t = none := by
  unfold angleLexeme at h
  dsimp only at h
  split at h
  · cases h
    rfl
  · split at h
    · cases h
      rfl
    · split at h <;> cases h <;> rfl

theorem brace?_numberLexeme {c : Char} {rest : List Char} {t : Token} {more : Nat}
    (h : numberLexeme c rest = .token t more) : brace? t = none := by
  unfold numberLexeme at h
  dsimp only at h
  split at h <;> cases h
  rfl

theorem brace?_wordLexeme {c : Char} {rest : List Char} {t : Token} {more : Nat}
    (h : wordLexeme c rest = .token t more) : brace? t = none := by
  unfold wordLexeme at h
  dsimp only at h
  split at h <;> cases h <;> rfl

/-- A token that is no character of its own is no brace. -/
theorem brace?_lexemeAt {c : Char} {rest : List Char} {t : Token} {more : Nat}
    (h : lexemeAt c rest = .token t more) (hsingle : singleToken? c = none) : brace? t = none := by
  cases begins_of_lexemeAt h with
  | single hmark => cases hsingle.symm.trans hmark
  | equal | assign | unequal | divide | minus => rfl
  | close hclose =>
    unfold closeLexeme at hclose
    split at hclose <;> cases hclose <;> rfl
  | angle hangle => exact brace?_angleLexeme hangle
  | negative _ hnumber => exact brace?_numberLexeme hnumber
  | number _ hnumber => exact brace?_numberLexeme hnumber
  | word _ hword => exact brace?_wordLexeme hword

/-- A brace stands for itself. -/
theorem eq_of_brace? {c b : Char} {t : Token} (h : singleToken? c = some t)
    (hb : brace? t = some b) : c = b := by
  unfold singleToken? at h
  split at h <;> cases h <;> cases hb <;> rfl

theorem isBrace_of_brace? {t : Token} {b : Char} (h : brace? t = some b) : IsBrace b := by
  unfold brace? at h
  split at h <;> cases h
  · exact ⟨.inl rfl⟩
  · exact ⟨.inr rfl⟩

theorem singleToken?_of_brace? {t : Token} {b : Char} (h : brace? t = some b) :
    singleToken? b = some t := by
  unfold brace? at h
  split at h <;> cases h <;> rfl

/-- What starts at a brace is the brace. -/
theorem scan_brace {t : Token} {b : Char} (h : brace? t = some b) (line : Nat) (rest : List Char) :
    scan line 0 (b :: rest) = (scan line 0 rest).map (⟨t, line⟩ :: ·) := by
  have hlexeme : lexemeAt b rest = .token t 0 := by
    unfold lexemeAt
    rw [singleToken?_of_brace? h]
  rw [scan, hlexeme]

/-! ## 3. Whole texts -/

/-- The tokens of a text, if they pass a test. -/
theorem exists_of_any_lex (source : String) (test : List LineToken → Bool)
    (h : (lex source).toOption.any test = true) :
    ∃ tokens, lex source = .ok tokens ∧ test tokens = true := by
  cases hlex : lex source with
  | error e =>
    rw [hlex] at h
    cases h
  | ok tokens =>
    rw [hlex] at h
    exact ⟨tokens, rfl, h⟩

/-- What the text is from each of its tokens on, and at its end. -/
def places : (skip : Nat) → List Char → List (List Char)
  | _, [] => [[]]
  | skip + 1, _ :: rest => places skip rest
  | 0, c :: rest =>
    match lexemeAt c rest with
    | .token _ more => (c :: rest) :: places more rest
    | .gap more _ => places more rest
    | .wrong _ _ => []

theorem places_brace {t : Token} {b : Char} (h : brace? t = some b) (rest : List Char) :
    places 0 (b :: rest) = (b :: rest) :: places 0 rest := by
  have hlexeme : lexemeAt b rest = .token t 0 := by
    unfold lexemeAt
    rw [singleToken?_of_brace? h]
  rw [places, hlexeme]

/-- **Every brace among the tokens of a text is a place where the text can be cut**: another text
    may follow the brace, and the tokens in front of it stay. -/
theorem scan_cut {line skip : Nat} {cs : List Char} {front back : List LineToken} {t : LineToken}
    {b : Char} (hb : brace? t.token = some b)
    (h : scan line skip cs = .ok (front ++ t :: back)) :
    ∃ u v, cs = u ++ b :: v ∧ skip ≤ u.length ∧
      (places skip cs).drop front.length = places 0 (b :: v) ∧
      scan t.line 0 (b :: v) = .ok (t :: back) ∧
      ∀ v', scan line skip (u ++ b :: v') = (scan t.line 0 (b :: v')).map (front ++ ·) := by
  induction cs generalizing line skip front with
  | nil =>
    -- the end of a text is no brace
    cases front with
    | nil =>
      cases h
      cases hb
    | cons x front =>
      simp [scan] at h
  | cons c rest ih =>
    cases skip with
    | succ skip =>
      obtain ⟨u, v, rfl, hskip, hplaces, hscan, hcut⟩ := ih h
      exact ⟨c :: u, v, rfl, Nat.succ_le_succ hskip, hplaces, hscan, hcut⟩
    | zero =>
      have hbrace := isBrace_of_brace? hb
      have hall := h
      rw [scan] at h
      split at h
      · rename_i first more hlexeme
        obtain ⟨later, hlater, heq⟩ := map_eq_ok h
        cases front with
        | nil =>
          obtain ⟨rfl, rfl⟩ := List.cons.inj heq
          cases hsingle : singleToken? c with
          | none =>
            rw [brace?_lexemeAt hlexeme hsingle] at hb
            cases hb
          | some t =>
            have hsame : t = first := by
              unfold lexemeAt at hlexeme
              rw [hsingle] at hlexeme
              exact (Lexeme.token.inj hlexeme).1
            subst hsame
            obtain rfl := eq_of_brace? hsingle hb
            refine ⟨[], rest, rfl, Nat.le_refl 0, rfl, hall, fun v' => ?_⟩
            rw [List.nil_append]
            cases scan line 0 (c :: v') <;> rfl
        | cons x front =>
          obtain ⟨rfl, rfl⟩ := List.cons.inj heq
          obtain ⟨u, v, rfl, hmore, hplaces, hscan, hcut⟩ := ih hlater
          refine ⟨c :: u, v, rfl, Nat.zero_le _, ?_, hscan, fun v' => ?_⟩
          · rw [places, hlexeme]
            exact hplaces
          have hsame : lexemeAt c (u ++ b :: v') = .token first more := by
            rw [lexemeAt_before_brace hbrace (v := v), hlexeme]
            rw [hlexeme]
            exact hmore
          rw [List.cons_append, scan, hsame]
          dsimp only
          rw [hcut]
          cases scan t.line 0 (b :: v') <;> rfl
      · rename_i more lines hlexeme
        obtain ⟨u, v, rfl, hmore, hplaces, hscan, hcut⟩ := ih h
        refine ⟨c :: u, v, rfl, Nat.zero_le _, ?_, hscan, fun v' => ?_⟩
        · rw [places, hlexeme]
          exact hplaces
        have hsame : lexemeAt c (u ++ b :: v') = .gap more lines := by
          rw [lexemeAt_before_brace hbrace (v := v), hlexeme]
          rw [hlexeme]
          exact hmore
        rw [List.cons_append, scan, hsame]
        exact hcut v'
      · cases h

/-- The line a text starts on changes nothing but lines. -/
theorem scan_line {line skip : Nat} {cs : List Char} {tokens : List LineToken}
    (h : scan line skip cs = .ok tokens) (line' : Nat) :
    ∃ tokens', scan line' skip cs = .ok tokens' ∧
      tokens'.map (·.token) = tokens.map (·.token) := by
  induction cs generalizing line line' skip tokens with
  | nil =>
    cases h
    exact ⟨_, rfl, rfl⟩
  | cons c rest ih =>
    cases skip with
    | succ skip => exact ih h _
    | zero =>
      rw [scan] at h ⊢
      split at h
      · rename_i t more hlexeme
        obtain ⟨later, hlater, rfl⟩ := map_eq_ok h
        obtain ⟨later', hlater', htokens⟩ := ih hlater line'
        refine ⟨⟨t, line'⟩ :: later', ?_, ?_⟩
        · rw [hlater']
          rfl
        · rw [List.map_cons, List.map_cons, htokens]
      · exact ih h _
      · cases h

end ObjectFlow
