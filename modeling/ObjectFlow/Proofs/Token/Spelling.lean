/-
  File:      ObjectFlow/Proofs/Token/Spelling.lean
  Subject:   HOW NAMES AND SIGNATURES ARE SPELLED in the tokens of a text.

  * `IsName`: an initializer name, or a word that is not reserved;
  * `IsSignature`: what can stand between the angle brackets of a signature token;
  * `Begins`: what a character starts, rule by rule;
  * `spelled_of_lex`: the names and signatures in the tokens of every text are spelled so.
-/
import Mathlib.Data.List.DropRight
import Mathlib.Tactic.SplitIfs
import ObjectFlow.Proofs.Token.Scanning

namespace ObjectFlow

/-! ## 1. Names -/

/-- A word character in front, word characters behind it. -/
def IsWord : List Char → Prop
  | [] => False
  | c :: rest => isWordStart c = true ∧ ∀ d ∈ rest, isWordChar d = true

/-- What a name token holds. -/
def IsName (name : String) : Prop :=
  name ∈ initializerNames ∨ IsWord name.toList ∧ Keyword.ofWord? name = none

theorem isWordChar_of_isWordStart {c : Char} (h : isWordStart c = true) : isWordChar c = true := by
  simp only [isWordStart, isWordChar, Char.isAlphanum, Bool.or_eq_true] at h ⊢
  exact .inl (h.imp_left .inl)

theorem IsWord.isWordChar {cs : List Char} (h : IsWord cs) : ∀ c ∈ cs, isWordChar c = true := by
  cases cs with
  | nil => exact h.elim
  | cons c rest =>
    intro d hd
    rcases List.mem_cons.mp hd with rfl | hd
    · exact isWordChar_of_isWordStart h.1
    · exact h.2 d hd

theorem IsWord.ne_nil {cs : List Char} (h : IsWord cs) : cs ≠ [] := by
  rintro rfl
  exact h

/-- Names hold word characters and the brackets of initializer names, and none else. -/
theorem IsName.mem_cases {name : String} (h : IsName name) {c : Char} (hc : c ∈ name.toList) :
    isWordChar c = true ∨ c = '<' ∨ c = '>' := by
  rcases h with h | ⟨h, -⟩
  · have hall : ∀ n ∈ initializerNames, n.toList.all fun c =>
        isWordChar c = true ∨ c = '<' ∨ c = '>' := by
      decide
    exact of_decide_eq_true (List.all_eq_true.mp (hall name h) c hc)
  · exact .inl (h.isWordChar c hc)

theorem IsName.ne_nil {name : String} (h : IsName name) : name.toList ≠ [] := by
  rcases h with h | ⟨h, -⟩
  · have hall : ∀ n ∈ initializerNames, n.toList ≠ [] := by decide
    exact hall name h
  · exact h.ne_nil

/-- The receiver is a name like any other. -/
theorem isName_this : IsName "this" := by
  refine .inr ⟨⟨by decide, List.all_eq_true.mp ?_⟩, ?_⟩ <;> decide

/-! ## 2. The brackets of a signature -/

/-- What a character inside a signature does to the number of open brackets and to whether a colon
    was seen; `none` where the signature cannot go on. -/
def bracketStep (state : Nat × Bool) (c : Char) : Option (Nat × Bool) :=
  if c = '<' then some (state.1 + 1, state.2)
  else if c = '>' then (if state.1 ≤ 1 then none else some (state.1 - 1, state.2))
  else if c = ':' then some (state.1, true)
  else if c = ';' || c = '\n' || c = '{' || c = '}' || c = '=' then none
  else some state

/-- With a colon seen and one bracket open, a closing bracket ends the signature. -/
def bracketsEnd : Option (Nat × Bool) → Prop
  | some (depth, colon) => depth ≤ 1 ∧ colon = true
  | none => False

/-- The search for the end of a signature, by its first character. -/
theorem signatureLength?_cons (depth : Nat) (colon : Bool) (c : Char) (cs : List Char) :
    signatureLength? depth colon (c :: cs) =
      if c = '>' ∧ depth ≤ 1 then (if colon then some 1 else none)
      else (bracketStep (depth, colon) c).bind fun state =>
        (signatureLength? state.1 state.2 cs).map (· + 1) := by
  conv_lhs => rw [signatureLength?]
  unfold bracketStep
  split_ifs <;> simp_all

/-- **A signature ends at the first closing bracket that nothing before it opened.** -/
theorem signatureLength?_eq_some_iff {depth : Nat} {colon : Bool} {cs : List Char} {n : Nat} :
    signatureLength? depth colon cs = some n ↔
      ∃ inner rest, cs = inner ++ '>' :: rest ∧ n = inner.length + 1 ∧
        bracketsEnd (inner.foldlM bracketStep (depth, colon)) := by
  induction cs generalizing depth colon n with
  | nil => simp [signatureLength?]
  | cons c cs ih =>
    rw [signatureLength?_cons]
    by_cases hlast : c = '>' ∧ depth ≤ 1
    · obtain ⟨rfl, hdepth⟩ := hlast
      rw [if_pos ⟨rfl, hdepth⟩]
      constructor
      · intro h
        obtain ⟨hcolon, hn⟩ := Option.ite_none_right_eq_some.mp h
        cases hn
        exact ⟨[], cs, rfl, rfl, hdepth, hcolon⟩
      · intro ⟨inner, rest, hcs, hn, hend⟩
        cases inner with
        | nil =>
          have hcolon : colon = true := hend.2
          rw [if_pos hcolon, hn]
          rfl
        | cons d inner =>
          -- no signature goes on behind its end
          obtain ⟨rfl, -⟩ := List.cons.inj hcs
          have hnone : bracketStep (depth, colon) '>' = none := by simp [bracketStep, hdepth]
          rw [List.foldlM_cons, hnone] at hend
          exact hend.elim
    · rw [if_neg hlast]
      constructor
      · intro h
        obtain ⟨state, hstate, h⟩ := Option.bind_eq_some_iff.mp h
        obtain ⟨k, hk, rfl⟩ := Option.map_eq_some_iff.mp h
        obtain ⟨inner, rest, rfl, rfl, hend⟩ := ih.mp hk
        refine ⟨c :: inner, rest, rfl, rfl, ?_⟩
        rw [List.foldlM_cons, hstate]
        exact hend
      · intro ⟨inner, rest, hcs, hn, hend⟩
        cases inner with
        | nil => exact absurd ⟨(List.cons.inj hcs).1, hend.1⟩ hlast
        | cons d inner =>
          obtain ⟨rfl, hrest⟩ := List.cons.inj hcs
          rw [List.foldlM_cons] at hend
          cases hstate : bracketStep (depth, colon) c with
          | none =>
            rw [hstate] at hend
            exact hend.elim
          | some state =>
            rw [hstate] at hend
            have hk := ih.mpr ⟨inner, rest, hrest, rfl, hend⟩
            rw [Option.bind_some, hk, hn]
            rfl

/-- The characters that a signature is full of: all but brackets, colons and what ends it. -/
def isPlain (c : Char) : Bool :=
  !(c = '<' || c = '>' || c = ':' || c = ';' || c = '\n' || c = '{' || c = '}' || c = '=')

theorem bracketStep_of_isPlain {c : Char} (h : isPlain c = true) (state : Nat × Bool) :
    bracketStep state c = some state := by
  simp only [isPlain, Bool.not_eq_true', Bool.or_eq_false_iff, decide_eq_false_iff_not] at h
  obtain ⟨⟨⟨⟨⟨⟨⟨hopen, hclose⟩, hcolon⟩, h1⟩, h2⟩, h3⟩, h4⟩, h5⟩ := h
  simp [bracketStep, hopen, hclose, hcolon, h1, h2, h3, h4, h5]

/-- Only the other characters matter for the brackets. -/
theorem foldlM_bracketStep_filter (cs : List Char) (state : Nat × Bool) :
    (cs.filter fun c => !isPlain c).foldlM bracketStep state = cs.foldlM bracketStep state := by
  induction cs generalizing state with
  | nil => rfl
  | cons c cs ih =>
    by_cases hc : isPlain c = true
    · rw [List.filter_cons_of_neg (by simpa using hc), ih, List.foldlM_cons,
        bracketStep_of_isPlain hc]
      rfl
    · rw [List.filter_cons_of_pos (by simpa using hc), List.foldlM_cons, List.foldlM_cons]
      exact bind_congr fun state' => ih state'

/-- Texts with the same brackets and colons end alike. -/
theorem foldlM_bracketStep_congr {cs cs' : List Char}
    (h : (cs.filter fun c => !isPlain c) = cs'.filter fun c => !isPlain c) (state : Nat × Bool) :
    cs.foldlM bracketStep state = cs'.foldlM bracketStep state := by
  rw [← foldlM_bracketStep_filter cs, h, foldlM_bracketStep_filter]

/-- No character that ends a signature was passed. -/
theorem of_bracketsEnd {cs : List Char} {state : Nat × Bool}
    (h : bracketsEnd (cs.foldlM bracketStep state)) :
    ∀ c ∈ cs, c ≠ ';' ∧ c ≠ '\n' ∧ c ≠ '{' ∧ c ≠ '}' ∧ c ≠ '=' := by
  induction cs generalizing state with
  | nil => exact fun c hc => absurd hc List.not_mem_nil
  | cons c cs ih =>
    rw [List.foldlM_cons] at h
    cases hstep : bracketStep state c with
    | none =>
      rw [hstep] at h
      exact h.elim
    | some state' =>
      rw [hstep] at h
      intro d hd
      rcases List.mem_cons.mp hd with rfl | hd
      · refine ⟨?_, ?_, ?_, ?_, ?_⟩ <;> rintro rfl <;> cases hstep
      · exact ih h d hd

/-! ## 3. Signatures -/

/-- The characters a program is written in. -/
def IsAscii (cs : List Char) : Prop := ∀ c ∈ cs, c.toNat < 128

/-- What a signature token holds: a text without blanks at its ends that starts with a letter and
    that the next closing bracket ends. -/
structure IsSignature (cs : List Char) : Prop where
  head : (cs.head?.map Char.isAlpha).getD false = true
  closes : bracketsEnd (cs.foldlM bracketStep (1, false))
  trimmed : Text.trim cs = cs
  ascii : IsAscii cs

theorem isAlpha_iff {c : Char} :
    c.isAlpha = true ↔ (65 ≤ c.toNat ∧ c.toNat ≤ 90) ∨ (97 ≤ c.toNat ∧ c.toNat ≤ 122) := by
  change (decide (65 ≤ c.val ∧ c.val ≤ 90) || (decide (97 ≤ c.val) && decide (c.val ≤ 122))) = true
    ↔ _
  simp only [Bool.or_eq_true, Bool.and_eq_true, decide_eq_true_eq, UInt32.le_iff_toNat_le]
  exact Iff.rfl

theorem isBlank_of_isAlpha {c : Char} (h : c.isAlpha = true) : Text.isBlank c = false := by
  rw [isAlpha_iff] at h
  simp only [Text.isBlank, Bool.or_eq_false_iff, Bool.and_eq_false_iff, decide_eq_false_iff_not,
    beq_eq_false_iff_ne]
  omega

namespace Text

/-- What trimming leaves and takes away. -/
theorem dropEndWhile_append (p : Char → Bool) (cs : List Char) :
    ∃ tail, cs = dropEndWhile p cs ++ tail ∧ ∀ c ∈ tail, p c = true := by
  refine ⟨(cs.reverse.takeWhile p).reverse, ?_, fun c hc => ?_⟩
  · rw [dropEndWhile, ← List.reverse_append, List.takeWhile_append_dropWhile, List.reverse_reverse]
  · exact List.mem_takeWhile_imp (List.mem_reverse.mp hc)

theorem dropEndWhile_dropEndWhile (p : Char → Bool) (cs : List Char) :
    dropEndWhile p (dropEndWhile p cs) = dropEndWhile p cs := by
  rw [dropEndWhile, dropEndWhile, List.reverse_reverse]
  exact congrArg List.reverse (List.dropWhile_idempotent p cs.reverse)

theorem trim_eq_trimEnd {cs : List Char} (h : ∀ c ∈ cs.head?, isBlank c = false) :
    trim cs = trimEnd cs := by
  cases cs with
  | nil => rfl
  | cons c cs =>
    rw [trim, trimStart, List.dropWhile_cons_of_neg]
    simpa using h c rfl

end Text

/-- The text between brackets makes a signature when blanks at its end are dropped. -/
theorem isSignature_trim {cs : List Char} (hhead : (cs.head?.map Char.isAlpha).getD false = true)
    (hcloses : bracketsEnd (cs.foldlM bracketStep (1, false))) (hascii : IsAscii cs) :
    IsSignature (Text.trim cs) := by
  obtain ⟨c, rest, rfl, hc⟩ : ∃ c rest, cs = c :: rest ∧ c.isAlpha = true := by
    cases cs with
    | nil => cases hhead
    | cons c rest => exact ⟨c, rest, rfl, hhead⟩
  have hblank := isBlank_of_isAlpha hc
  have htrim : Text.trim (c :: rest) = Text.trimEnd (c :: rest) :=
    Text.trim_eq_trimEnd fun d hd => by
      cases hd
      exact hblank
  obtain ⟨tail, htail, hblanks⟩ := Text.dropEndWhile_append Text.isBlank (c :: rest)
  -- the first character stays, as it is not blank
  obtain ⟨rest', hrest'⟩ : ∃ rest', Text.trimEnd (c :: rest) = c :: rest' := by
    cases hkept : Text.dropEndWhile Text.isBlank (c :: rest) with
    | nil =>
      rw [hkept, List.nil_append] at htail
      have := hblanks c (htail ▸ List.mem_cons_self)
      rw [hblank] at this
      cases this
    | cons d rest' =>
      rw [hkept, List.cons_append] at htail
      obtain ⟨rfl, -⟩ := List.cons.inj htail
      exact ⟨rest', hkept⟩
  rw [htrim, hrest']
  refine ⟨hc, ?_, ?_, fun d hd => hascii d ?_⟩
  · have hends := of_bracketsEnd hcloses
    have hplain : ∀ d ∈ tail, isPlain d = true := by
      intro d hd
      have hne : ∀ e : Char, Text.isBlank e = false → d ≠ e := by
        rintro e he rfl
        rw [hblanks d hd] at he
        cases he
      have hline := (hends d (htail ▸ List.mem_append_right _ hd)).2.1
      simp [isPlain, hline, hne '<' rfl, hne '>' rfl, hne ':' rfl, hne ';' rfl, hne '{' rfl,
        hne '}' rfl, hne '=' rfl]
    have htail' : (tail.filter fun d => !isPlain d) = [] :=
      List.filter_eq_nil_iff.mpr fun d hd => by simp [hplain d hd]
    have hfilter :
        ((c :: rest).filter fun d => !isPlain d) = (c :: rest').filter fun d => !isPlain d := by
      rw [htail, List.filter_append, htail', List.append_nil]
      exact congrArg _ hrest'
    rw [← foldlM_bracketStep_congr hfilter]
    exact hcloses
  · rw [Text.trim_eq_trimEnd fun d hd => by cases hd; exact hblank, ← hrest', Text.trimEnd,
      Text.trimEnd, Text.dropEndWhile_dropEndWhile]
  · rw [← hrest'] at hd
    rw [htail]
    exact List.mem_append_left tail hd

/-! ## 4. Tokens -/

/-- What a character starts when `rest` follows it, one rule for each way to go on. -/
inductive Begins : Char → List Char → Lexeme → Prop
  | single {c : Char} {rest : List Char} {t : Token} (h : singleToken? c = some t) :
      Begins c rest (.token t 0)
  | equal {later : List Char} : Begins '=' ('=' :: later) (.token (.operator .eq) 1)
  | assign {rest : List Char} : Begins '=' rest (.token (.mark .assign) 0)
  | unequal {later : List Char} : Begins '!' ('=' :: later) (.token (.operator .ne) 1)
  | close {rest : List Char} {l : Lexeme} (h : closeLexeme rest = l) : Begins '>' rest l
  | angle {rest : List Char} {l : Lexeme} (h : angleLexeme rest = l) : Begins '<' rest l
  | newline {rest : List Char} : Begins '\n' rest (.gap 0 1)
  | blank {c : Char} {rest : List Char} (h : c ∈ [' ', '\t', '\r']) : Begins c rest (.gap 0 0)
  | hash {rest : List Char} : Begins '#' rest (.gap (rest.takeWhile (· ≠ '\n')).length 0)
  | line {later : List Char} :
      Begins '/' ('/' :: later) (.gap (later.takeWhile (· ≠ '\n')).length.succ 0)
  | block {later : List Char} {n : Nat} (h : commentLength? later = some n) :
      Begins '/' ('*' :: later) (.gap (n + 1) ((later.take n).count '\n'))
  | openBlock {later : List Char} (h : commentLength? later = none) :
      Begins '/' ('*' :: later) (.wrong .openComment (later.count '\n'))
  | divide {rest : List Char} : Begins '/' rest (.token (.operator .div) 0)
  | negative {rest : List Char} {l : Lexeme} (hdigit : (rest.head?.map Char.isDigit).getD false)
      (h : numberLexeme '-' rest = l) : Begins '-' rest l
  | minus {rest : List Char} : Begins '-' rest (.token (.operator .sub) 0)
  | number {c : Char} {rest : List Char} {l : Lexeme} (hdigit : c.isDigit)
      (h : numberLexeme c rest = l) : Begins c rest l
  | word {c : Char} {rest : List Char} {l : Lexeme} (hword : isWordStart c)
      (h : wordLexeme c rest = l) : Begins c rest l
  | unexpected {c : Char} {rest : List Char} : Begins c rest (.wrong (.unexpected c) 0)

theorem begins_slashLexeme (rest : List Char) : Begins '/' rest (slashLexeme rest) := by
  unfold slashLexeme
  split
  · exact .line
  · split
    · rename_i hlength
      exact .block hlength
    · rename_i hopen
      exact .openBlock hopen
  · exact .divide

/-- **Whatever is read at a character is read by one of the rules.** -/
theorem begins_of_lexemeAt {c : Char} {rest : List Char} {l : Lexeme} (h : lexemeAt c rest = l) :
    Begins c rest l := by
  subst h
  unfold lexemeAt
  split
  · rename_i hsingle
    exact .single hsingle
  -- the tests are made one after the other
  split
  · rename_i hc
    subst hc
    split
    · rename_i hhead
      obtain ⟨later, rfl⟩ := List.head?_eq_some_iff.mp hhead
      exact .equal
    · exact .assign
  split
  · rename_i hc
    subst hc
    split
    · rename_i hhead
      obtain ⟨later, rfl⟩ := List.head?_eq_some_iff.mp hhead
      exact .unequal
    · exact .unexpected
  split
  · rename_i hc
    subst hc
    exact .close rfl
  split
  · rename_i hc
    subst hc
    exact .angle rfl
  split
  · rename_i hc
    subst hc
    exact .newline
  split
  · rename_i hblank
    exact .blank (by simpa [or_assoc] using hblank)
  split
  · rename_i hc
    subst hc
    exact .hash
  split
  · rename_i hc
    subst hc
    exact begins_slashLexeme rest
  split
  · rename_i hc
    subst hc
    split
    · rename_i hdigit
      exact .negative hdigit rfl
    · exact .minus
  split
  · rename_i hdigit
    exact .number hdigit rfl
  split
  · rename_i hword
    exact .word hword rfl
  · exact .unexpected

/-- The names and signatures in a token are spelled as the lexer spells them. -/
def Token.Spelled : Token → Prop
  | .ident name => IsName name
  | .signature text => IsSignature text.toList
  | _ => True

theorem spelled_singleToken {c : Char} {t : Token} (h : singleToken? c = some t) : t.Spelled := by
  unfold singleToken? at h
  split at h <;> cases h <;> trivial

theorem spelled_angleLexeme {rest : List Char} (hascii : IsAscii rest) {t : Token} {more : Nat}
    (h : angleLexeme rest = .token t more) : t.Spelled := by
  unfold angleLexeme at h
  dsimp only at h
  split at h
  · rename_i name hname
    cases h
    exact .inl (List.mem_of_find?_eq_some hname)
  · split at h
    · rename_i n hn
      cases h
      split at hn
      · rename_i hhead
        obtain ⟨inner, rest', rfl, rfl, hend⟩ := signatureLength?_eq_some_iff.mp hn
        show IsSignature (String.ofList _).toList
        rw [String.toList_ofList, Nat.add_sub_cancel, List.take_left]
        refine isSignature_trim ?_ hend fun c hc => hascii c (List.mem_append_left _ hc)
        cases inner with
        | nil => cases hhead
        | cons c inner => exact hhead
      · cases hn
    · split at h <;> cases h <;> trivial

theorem spelled_wordLexeme {first : Char} (hfirst : isWordStart first = true) {rest : List Char}
    {t : Token} {more : Nat} (h : wordLexeme first rest = .token t more) : t.Spelled := by
  unfold wordLexeme at h
  dsimp only at h
  split at h
  · cases h
    trivial
  · rename_i hword
    cases h
    refine .inr ⟨?_, hword⟩
    rw [String.toList_ofList]
    exact ⟨hfirst, fun d hd => List.mem_takeWhile_imp hd⟩

theorem spelled_numberLexeme {first : Char} {rest : List Char} {t : Token} {more : Nat}
    (h : numberLexeme first rest = .token t more) : t.Spelled := by
  unfold numberLexeme at h
  dsimp only at h
  split at h <;> cases h
  trivial

theorem spelled_lexemeAt {c : Char} {rest : List Char} (hascii : IsAscii rest) {t : Token}
    {more : Nat} (h : lexemeAt c rest = .token t more) : t.Spelled := by
  cases begins_of_lexemeAt h with
  | single hsingle => exact spelled_singleToken hsingle
  | equal | assign | unequal | divide | minus => trivial
  | close hclose =>
    unfold closeLexeme at hclose
    split at hclose <;> cases hclose <;> trivial
  | angle hangle => exact spelled_angleLexeme hascii hangle
  | negative _ hnumber => exact spelled_numberLexeme hnumber
  | number _ hnumber => exact spelled_numberLexeme hnumber
  | word hstart hword => exact spelled_wordLexeme hstart hword

theorem spelled_of_scan {line skip : Nat} {cs : List Char} (hascii : IsAscii cs)
    {tokens : List LineToken} (h : scan line skip cs = .ok tokens) :
    ∀ t ∈ tokens, t.token.Spelled := by
  induction cs generalizing line skip tokens with
  | nil =>
    cases h
    intro t ht
    cases List.mem_singleton.mp ht
    trivial
  | cons c rest ih =>
    have hascii : IsAscii rest := fun d hd => hascii d (List.mem_cons_of_mem c hd)
    cases skip with
    | succ skip => exact ih hascii h
    | zero =>
      rw [scan] at h
      split at h
      · rename_i first more hlexeme
        obtain ⟨later, hlater, rfl⟩ := map_eq_ok h
        intro t ht
        rcases List.mem_cons.mp ht with rfl | ht
        · exact spelled_lexemeAt hascii hlexeme
        · exact ih hascii hlater t ht
      · exact ih hascii h
      · cases h

theorem lex_eq_ok {source : String} {tokens : List LineToken} :
    lex source = .ok tokens ↔ IsAscii source.toList ∧ scan 1 0 source.toList = .ok tokens := by
  have hlex : lex source = .ok tokens ↔ scanText source.toList = .ok tokens := by
    rw [lex_eq rfl]
    cases scanText source.toList with
    | error e => exact ⟨nofun, nofun⟩
    | ok later => exact ⟨fun h => congrArg Except.ok (Except.ok.inj h),
        fun h => congrArg Except.ok (Except.ok.inj h)⟩
  rw [hlex, scanText]
  constructor
  · intro h
    split at h
    · rename_i hascii
      exact ⟨fun c hc => of_decide_eq_true (List.all_eq_true.mp hascii c hc), h⟩
    · cases h
  · intro ⟨hascii, h⟩
    rw [if_pos (List.all_eq_true.mpr fun c hc => decide_eq_true (hascii c hc)), h]

/-- **The names and signatures in the tokens of every text are spelled as the lexer spells
    them.** -/
theorem spelled_of_lex {source : String} {tokens : List LineToken} (h : lex source = .ok tokens) :
    ∀ t ∈ tokens, t.token.Spelled :=
  spelled_of_scan (lex_eq_ok.mp h).1 (lex_eq_ok.mp h).2

end ObjectFlow
