/-
  File:      ObjectFlow/Proofs/Token/Writing.lean
  Subject:   WRITTEN TOKENS ARE READ AS THEMSELVES.

  * `Emits`: a text that gives the same tokens whatever follows it;
  * `ReadsAs`: characters that are a token in front of the character that ends them;
  * one rule for each kind of token, from the last character of a text to the first: a name or a
    number takes what ends it along, since a letter or a digit behind it would belong to it.
-/
import ObjectFlow.Proofs.Program.Subsignatures

namespace ObjectFlow

/-! ## 1. Texts and their tokens -/

/-- The text gives the tokens, wherever it starts and whatever follows it. -/
def Emits (cs : List Char) (ts : List Token) : Prop :=
  ∀ line rest, ∃ line' tokens, tokens.map LineToken.token = ts ∧
    scan line 0 (cs ++ rest) = (scan line' 0 rest).map (tokens ++ ·)

/-- The characters are the token when `d` follows them, whatever follows `d`. -/
def ReadsAs (text : List Char) (d : Char) (t : Token) : Prop :=
  ∃ c more, text = c :: more ∧ ∀ rest, lexemeAt c (more ++ d :: rest) = .token t more.length

namespace Emits

variable {cs cs' : List Char} {ts ts' : List Token}

theorem nil : Emits [] [] := fun line rest => ⟨line, [], rfl, by
  rw [List.nil_append]
  cases scan line 0 rest <;> rfl⟩

theorem append (h : Emits cs ts) (h' : Emits cs' ts') : Emits (cs ++ cs') (ts ++ ts') := by
  intro line rest
  obtain ⟨line₁, tokens, rfl, hscan⟩ := h line (cs' ++ rest)
  obtain ⟨line₂, tokens', rfl, hscan'⟩ := h' line₁ rest
  refine ⟨line₂, tokens ++ tokens', List.map_append, ?_⟩
  rw [List.append_assoc, hscan, hscan']
  cases scan line₂ 0 rest with
  | error e => rfl
  | ok later => exact congrArg Except.ok (List.append_assoc tokens tokens' later).symm

/-- The characters that belong to what was read before are passed over. -/
theorem scan_skip (line : Nat) (more rest : List Char) :
    scan line more.length (more ++ rest) = scan line 0 rest := by
  rw [scan_drop, List.drop_left]

/-- One token in front of a text. -/
theorem token {c : Char} (more : List Char) {t : Token}
    (hlexeme : ∀ rest, lexemeAt c (more ++ (cs ++ rest)) = .token t more.length)
    (h : Emits cs ts) : Emits (c :: (more ++ cs)) (t :: ts) := by
  intro line rest
  obtain ⟨line', tokens, rfl, hscan⟩ := h line rest
  refine ⟨line', ⟨t, line⟩ :: tokens, rfl, ?_⟩
  rw [List.cons_append, List.append_assoc, scan, hlexeme]
  dsimp only
  rw [scan_skip, hscan]
  cases scan line' 0 rest <;> rfl

/-- A token in front of the character that ends it. -/
theorem of_readsAs {text : List Char} {d : Char} {t : Token} (ht : ReadsAs text d t)
    (h : Emits (d :: cs) ts) : Emits (text ++ d :: cs) (t :: ts) := by
  obtain ⟨c, more, rfl, hlexeme⟩ := ht
  exact token more (fun rest => hlexeme (cs ++ rest)) h

/-- What is passed over in front of a text. -/
theorem gap {c : Char} {lines : Nat} (hgap : ∀ rest, lexemeAt c rest = .gap 0 lines)
    (h : Emits cs ts) : Emits (c :: cs) ts := by
  intro line rest
  obtain ⟨line', tokens, rfl, hscan⟩ := h (line + lines) rest
  refine ⟨line', tokens, rfl, ?_⟩
  rw [List.cons_append, scan, hgap]
  exact hscan

theorem space (h : Emits cs ts) : Emits (' ' :: cs) ts := h.gap fun _ => rfl

theorem newline (h : Emits cs ts) : Emits ('\n' :: cs) ts := h.gap fun _ => rfl

end Emits

/-! ## 2. Marks and operators -/

theorem readsAs_mark (m : Mark) : ReadsAs m.text.toList ' ' (.mark m) := by
  cases m <;> exact ⟨_, [], rfl, fun _ => rfl⟩

theorem readsAs_operator (op : BinaryOp) : ReadsAs op.symbol.toList ' ' (.operator op) := by
  cases op with
  | shl => exact ⟨_, ['<'], rfl, fun _ => rfl⟩
  | shr => exact ⟨_, ['>'], rfl, fun _ => rfl⟩
  | ushr => exact ⟨_, ['>', '>'], rfl, fun _ => rfl⟩
  | eq => exact ⟨_, ['='], rfl, fun _ => rfl⟩
  | ne => exact ⟨_, ['='], rfl, fun _ => rfl⟩
  | le => exact ⟨_, ['='], rfl, fun _ => rfl⟩
  | ge => exact ⟨_, ['='], rfl, fun _ => rfl⟩
  | _ => exact ⟨_, [], rfl, fun _ => rfl⟩

namespace Emits

variable {cs : List Char} {ts : List Token}

theorem single {c : Char} {t : Token} (hc : singleToken? c = some t) (h : Emits cs ts) :
    Emits (c :: cs) (t :: ts) := by
  refine token [] (fun rest => ?_) h
  unfold lexemeAt
  rw [hc]
  rfl

theorem assign (h : Emits cs ts) : Emits ('=' :: ' ' :: cs) (.mark .assign :: ts) :=
  token [] (fun _ => rfl) h.space

theorem operator (op : BinaryOp) (h : Emits cs ts) :
    Emits (op.symbol.toList ++ ' ' :: cs) (.operator op :: ts) :=
  of_readsAs (readsAs_operator op) h.space

end Emits

/-! ## 3. Words -/

theorem takeWhile_append_of_all {p : Char → Bool} {more : List Char} (h : ∀ c ∈ more, p c = true)
    {d : Char} (hd : p d = false) (rest : List Char) :
    (more ++ d :: rest).takeWhile p = more := by
  induction more with
  | nil => simp [hd]
  | cons c more ih =>
    rw [List.cons_append, List.takeWhile_cons, if_pos (h c List.mem_cons_self),
      ih fun e he => h e (List.mem_cons_of_mem c he)]

/-- A character that starts no mark, no operator, no gap and no comment starts a number or a word. -/
theorem lexemeAt_of_plain {q : Char → Bool} {c : Char} (h : q c = true)
    (hq : ['(', ')', '{', '}', '[', ']', ':', ';', ',', '.', '+', '*', '%', '&', '|', '^', '=',
      '!', '<', '>', '\n', ' ', '\t', '\r', '#', '/', '-'].any q = false) (rest : List Char) :
    lexemeAt c rest = if c.isDigit then numberLexeme c rest
      else if isWordStart c then wordLexeme c rest else .wrong (.unexpected c) 0 := by
  have hq := List.any_eq_false.mp hq
  have hne : ∀ d : Char, ¬ q d = true → c ≠ d := by
    rintro d hd rfl
    exact hd h
  have hsingle : singleToken? c = none := by
    unfold singleToken?
    split <;> first | rfl | exact absurd rfl (hne _ (hq _ (by decide)))
  have hother : ∀ d ∈ ['=', '!', '<', '>', '\n', ' ', '\t', '\r', '#', '/', '-'], c ≠ d :=
    fun d hd => hne d (hq d (List.IsSuffix.mem hd (by decide)))
  unfold lexemeAt
  rw [hsingle]
  simp only [List.forall_mem_cons] at hother
  simp [hother]

/-- A character that starts a word starts nothing else. -/
theorem lexemeAt_of_isWordStart {c : Char} (h : isWordStart c = true) (rest : List Char) :
    lexemeAt c rest = wordLexeme c rest := by
  have hdigit : c.isDigit = false := by
    simp only [isWordStart, Bool.or_eq_true, beq_iff_eq, isAlpha_iff] at h
    have hnat : 58 ≤ c.toNat := by
      rcases h with (h | h) | rfl
      · omega
      · omega
      · decide
    simp only [Char.isDigit, Bool.and_eq_false_iff, decide_eq_false_iff_not, UInt32.le_iff_toNat_le,
      ge_iff_le]
    right
    change ¬ c.toNat ≤ 57
    omega
  rw [lexemeAt_of_plain h rfl, hdigit, if_neg Bool.false_ne_true, if_pos h]

instance : DecidablePred IsWord := fun cs =>
  match cs with
  | [] => inferInstanceAs (Decidable False)
  | c :: rest =>
    decidable_of_iff (isWordStart c = true ∧ rest.all isWordChar = true)
      (and_congr_right fun _ => List.all_eq_true)

theorem Keyword.mem_all (k : Keyword) : k ∈ Keyword.all := by
  cases k with
  | invoke kind => cases kind <;> decide
  | prim type => cases type <;> decide
  | _ => decide

/-- The token of a word. -/
def wordToken (word : String) : Token :=
  match Keyword.ofWord? word with
  | some k => .keyword k
  | none => .ident word

theorem wordLexeme_eq {c d : Char} {more : List Char} (hmore : ∀ e ∈ more, isWordChar e = true)
    (hd : isWordChar d = false) (rest : List Char) :
    wordLexeme c (more ++ d :: rest) =
      .token (wordToken (String.ofList (c :: more))) more.length := by
  unfold wordLexeme wordToken
  rw [takeWhile_append_of_all hmore hd]
  dsimp only
  cases Keyword.ofWord? (String.ofList (c :: more)) <;> rfl

section Words

variable {d : Char} (hd : isWordChar d = false)

include hd

theorem readsAs_word {word : String} (hword : IsWord word.toList) :
    ReadsAs word.toList d (wordToken word) := by
  cases hchars : word.toList with
  | nil =>
    rw [hchars] at hword
    exact hword.elim
  | cons c more =>
    rw [hchars] at hword
    refine ⟨c, more, rfl, fun rest => ?_⟩
    rw [lexemeAt_of_isWordStart hword.1, wordLexeme_eq hword.2 hd, ← hchars, String.ofList_toList]

theorem readsAs_name {name : String} (hname : IsName name) :
    ReadsAs name.toList d (.ident name) := by
  rcases hname with hname | ⟨hword, hfree⟩
  · rcases List.mem_cons.mp hname with rfl | hname
    · exact ⟨'<', ['i', 'n', 'i', 't', '>'], rfl, fun _ => rfl⟩
    · obtain rfl := List.mem_singleton.mp hname
      exact ⟨'<', ['c', 'l', 'i', 'n', 'i', 't', '>'], rfl, fun _ => rfl⟩
  · have htoken : wordToken name = .ident name := by rw [wordToken, hfree]
    rw [← htoken]
    exact readsAs_word hd hword

theorem readsAs_keyword (k : Keyword) : ReadsAs k.word.toList d (.keyword k) := by
  have hall : ∀ k ∈ Keyword.all, IsWord k.word.toList ∧ Keyword.ofWord? k.word = some k := by
    decide
  obtain ⟨hword, hk⟩ := hall k k.mem_all
  have htoken : wordToken k.word = .keyword k := by rw [wordToken, hk]
  rw [← htoken]
  exact readsAs_word hd hword

end Words

namespace Emits

variable {cs : List Char} {ts : List Token} {d : Char}

theorem name {name : String} (hname : IsName name) (hd : isWordChar d = false)
    (h : Emits (d :: cs) ts) : Emits (name.toList ++ d :: cs) (.ident name :: ts) :=
  of_readsAs (readsAs_name hd hname) h

theorem keyword (k : Keyword) (hd : isWordChar d = false) (h : Emits (d :: cs) ts) :
    Emits (k.word.toList ++ d :: cs) (.keyword k :: ts) :=
  of_readsAs (readsAs_keyword hd k) h

end Emits

/-! ## 4. Numbers -/

namespace Text

theorem digitsValue_toDigits (n : Nat) : digitsValue (Nat.toDigits 10 n) = n := by
  have h := Nat.ofDigitChars_ten_toDigits (n := n)
  rw [Nat.ofDigitChars_eq_foldl] at h
  exact h

theorem readDigits?_toDigits (n : Nat) : readDigits? (Nat.toDigits 10 n) = some n := by
  have hdigits : (Nat.toDigits 10 n).all Char.isDigit = true :=
    List.all_eq_true.mpr fun c hc =>
      Nat.isDigit_of_mem_toDigits (b := 10) (by decide) (by decide) hc
  have hne : (Nat.toDigits 10 n).isEmpty = false :=
    List.isEmpty_eq_false_iff.mpr Nat.toDigits_ne_nil
  rw [readDigits?, hdigits, hne, digitsValue_toDigits]
  rfl

end Text

/-- A number is written as its digits, with a minus sign in front if it is negative. -/
theorem toList_toString_int (i : Int) :
    (toString i).toList =
      if i < 0 then '-' :: Nat.toDigits 10 i.natAbs else Nat.toDigits 10 i.natAbs := by
  cases i with
  | ofNat n =>
    rw [if_neg (by simp)]
    exact Nat.toList_repr
  | negSucc n =>
    rw [if_pos (Int.negSucc_lt_zero n)]
    show ("-" ++ Nat.repr (n + 1)).toList = _
    rw [String.toList_append, Nat.toList_repr]
    rfl

/-- **A number is read back as it was written.** -/
theorem readInt32?_toString (value : Int32) :
    Text.readInt32? (toString value.toInt).toList = some value := by
  have hlow := value.le_toInt
  have hhigh := value.toInt_lt
  have hrange : (-2147483648 ≤ value.toInt && value.toInt ≤ 2147483647) = true := by
    simp
    omega
  have hvalue : ((some value.toInt).filter fun v => -2147483648 ≤ v && v ≤ 2147483647).map
      Int32.ofInt = some value := by
    rw [Option.filter_some, if_pos hrange]
    exact congrArg some (Int32.ofInt_toInt value)
  rw [toList_toString_int]
  by_cases hneg : value.toInt < 0
  · rw [if_pos hneg]
    have habs : -((value.toInt.natAbs : Nat) : Int) = value.toInt := by omega
    simp only [Text.readInt32?, Text.readDigits?_toDigits]
    show (Option.filter _ (some (-((value.toInt.natAbs : Nat) : Int)))).map _ = _
    rw [habs]
    exact hvalue
  · rw [if_neg hneg]
    have habs : ((value.toInt.natAbs : Nat) : Int) = value.toInt := by omega
    -- the first digit is no minus sign
    have hdigits : ∀ rest, Nat.toDigits 10 value.toInt.natAbs ≠ '-' :: rest := by
      intro rest heq
      have hmem : '-' ∈ Nat.toDigits 10 value.toInt.natAbs := heq ▸ List.mem_cons_self
      exact absurd (Nat.isDigit_of_mem_toDigits (b := 10) (by decide) (by decide) hmem) (by decide)
    unfold Text.readInt32?
    split
    · rename_i rest heq
      exact absurd heq (hdigits rest)
    · simp only [Text.readDigits?_toDigits]
      show (Option.filter _ (some ((value.toInt.natAbs : Nat) : Int))).map _ = _
      rw [habs]
      exact hvalue

theorem numberLexeme_eq {c d : Char} {digits : List Char} {value : Int32}
    (hread : Text.readInt32? (c :: digits) = some value)
    (hdigits : ∀ e ∈ digits, e.isDigit = true) (hd : d.isDigit = false) (rest : List Char) :
    numberLexeme c (digits ++ d :: rest) = .token (.integer value) digits.length := by
  unfold numberLexeme
  rw [takeWhile_append_of_all hdigits hd]
  dsimp only
  rw [hread]

/-- A digit starts a number and nothing else. -/
theorem lexemeAt_of_isDigit {c : Char} (h : c.isDigit = true) (rest : List Char) :
    lexemeAt c rest = numberLexeme c rest := by
  rw [lexemeAt_of_plain h rfl, if_pos h]

theorem readsAs_integer (value : Int32) {d : Char} (hd : d.isDigit = false) :
    ReadsAs (toString value.toInt).toList d (.integer value) := by
  have hread := readInt32?_toString value
  have hdigit : ∀ {n : Nat}, ∀ e ∈ Nat.toDigits 10 n, e.isDigit = true := fun e he =>
    Nat.isDigit_of_mem_toDigits (b := 10) (by decide) (by decide) he
  obtain ⟨first, more, hdigits⟩ : ∃ first more,
      Nat.toDigits 10 value.toInt.natAbs = first :: more :=
    List.exists_cons_of_ne_nil Nat.toDigits_ne_nil
  have hfirst : first.isDigit = true := hdigit first (hdigits ▸ List.mem_cons_self)
  rw [toList_toString_int] at hread ⊢
  split at hread
  · rename_i hneg
    rw [if_pos hneg]
    refine ⟨'-', _, rfl, fun rest => ?_⟩
    rw [hdigits] at hread ⊢
    have hminus : ∀ w : List Char, lexemeAt '-' (first :: w) = numberLexeme '-' (first :: w) := by
      intro w
      show (if (((first :: w).head?.map Char.isDigit).getD false) = true then _ else _) = _
      rw [if_pos]
      exact hfirst
    rw [List.cons_append, hminus]
    exact numberLexeme_eq hread (fun e he => hdigit e (hdigits ▸ he)) hd _
  · rename_i hnonneg
    rw [if_neg hnonneg]
    rw [hdigits] at hread ⊢
    refine ⟨first, more, rfl, fun rest => ?_⟩
    rw [lexemeAt_of_isDigit hfirst]
    exact numberLexeme_eq hread
      (fun e he => hdigit e (hdigits ▸ List.mem_cons_of_mem first he)) hd _

theorem Emits.integer {cs : List Char} {ts : List Token} {d : Char} (value : Int32)
    (hd : d.isDigit = false) (h : Emits (d :: cs) ts) :
    Emits ((toString value.toInt).toList ++ d :: cs) (.integer value :: ts) :=
  of_readsAs (readsAs_integer value hd) h

/-! ## 5. Signatures -/

theorem initializer_of_signature {text : List Char} (h : IsSignature text) (rest : List Char) :
    (initializerNames.find? fun name =>
      (Text.dropFront? name.toList ('<' :: (text ++ '>' :: rest))).isSome) = none := by
  have hlength : signatureLength? 1 false (text ++ '>' :: rest) = some (text.length + 1) :=
    signatureLength?_eq_some_iff.mpr ⟨text, rest, rfl, rfl, h.closes⟩
  refine List.find?_eq_none.mpr fun name hname hfront => ?_
  obtain ⟨later, hlater⟩ := Option.isSome_iff_exists.mp hfront
  have hnone : signatureLength? 1 false (text ++ '>' :: rest) = none := by
    rcases List.mem_cons.mp hname with rfl | hname
    · have heq : '<' :: (text ++ '>' :: rest) = '<' :: 'i' :: 'n' :: 'i' :: 't' :: '>' :: later :=
        Text.dropFront?_eq_some_iff.mp hlater
      rw [(List.cons.inj heq).2]
      rfl
    · obtain rfl := List.mem_singleton.mp hname
      have heq : '<' :: (text ++ '>' :: rest) =
          '<' :: 'c' :: 'l' :: 'i' :: 'n' :: 'i' :: 't' :: '>' :: later :=
        Text.dropFront?_eq_some_iff.mp hlater
      rw [(List.cons.inj heq).2]
      rfl
  rw [hnone] at hlength
  cases hlength

theorem angleLexeme_eq {text : List Char} (h : IsSignature text) (rest : List Char) :
    angleLexeme (text ++ '>' :: rest) =
      .token (.signature (String.ofList text)) (text.length + 1) := by
  have hlength : signatureLength? 1 false (text ++ '>' :: rest) = some (text.length + 1) :=
    signatureLength?_eq_some_iff.mpr ⟨text, rest, rfl, rfl, h.closes⟩
  have hhead : ((text ++ '>' :: rest).head?.map Char.isAlpha).getD false = true := by
    cases text with
    | nil => exact absurd h.head (by decide)
    | cons c text => exact h.head
  unfold angleLexeme
  dsimp only
  rw [initializer_of_signature h rest, if_pos hhead, hlength]
  dsimp only
  rw [Nat.add_sub_cancel, List.take_left, h.trimmed]

/-- A signature ends with its bracket, whatever follows. -/
theorem lexemeAt_signature {text : List Char} (h : IsSignature text) (rest : List Char) :
    lexemeAt '<' ((text ++ ['>']) ++ rest) =
      .token (.signature (String.ofList text)) (text ++ ['>']).length := by
  show angleLexeme _ = _
  rw [List.append_assoc, List.singleton_append, angleLexeme_eq h, List.length_append]
  rfl

theorem Emits.signature {cs : List Char} {ts : List Token} {text : List Char}
    (htext : IsSignature text) (h : Emits cs ts) :
    Emits ('<' :: (text ++ '>' :: cs)) (.signature (String.ofList text) :: ts) := by
  have heq : '<' :: (text ++ '>' :: cs) = '<' :: ((text ++ ['>']) ++ cs) := by simp
  rw [heq]
  exact token _ (fun rest => lexemeAt_signature htext (cs ++ rest)) h

/-! ## 6. Characters -/

@[simp] theorem isAscii_nil : IsAscii [] := fun _ hc => absurd hc List.not_mem_nil

@[simp] theorem isAscii_cons {c : Char} {cs : List Char} :
    IsAscii (c :: cs) ↔ c.toNat < 128 ∧ IsAscii cs := List.forall_mem_cons

@[simp] theorem isAscii_append {cs cs' : List Char} :
    IsAscii (cs ++ cs') ↔ IsAscii cs ∧ IsAscii cs' := List.forall_mem_append

theorem isAscii_join {texts : List String} (h : ∀ text ∈ texts, IsAscii text.toList) :
    IsAscii (String.join texts).toList := by
  intro c hc
  rw [String.toList_join] at hc
  obtain ⟨text, htext, hc⟩ := List.mem_flatMap.mp hc
  exact h text htext c hc

theorem isAscii_intercalate {sep : String} (hsep : IsAscii sep.toList) {texts : List String}
    (h : ∀ text ∈ texts, IsAscii text.toList) : IsAscii (sep.intercalate texts).toList := by
  rw [String.toList_intercalate]
  induction texts with
  | nil => exact isAscii_nil
  | cons text texts ih =>
    have htext := h text List.mem_cons_self
    have ih := ih fun t ht => h t (List.mem_cons_of_mem text ht)
    cases texts with
    | nil => simpa using htext
    | cons next texts =>
      rw [List.map_cons, List.map_cons, List.intercalate_cons_cons, isAscii_append, isAscii_append]
      exact ⟨⟨htext, hsep⟩, ih⟩

theorem IsName.isAscii {name : String} (h : IsName name) : IsAscii name.toList :=
  fun _ hc => (toNat_of_isTypeChar (h.isTypeChar hc)).2

theorem isAscii_repr (i : Int) : IsAscii i.repr.toList := by
  have hdigits : IsAscii (Nat.toDigits 10 i.natAbs) := fun c hc => by
    have hdigit := Nat.isDigit_of_mem_toDigits (b := 10) (by decide) (by decide) hc
    refine (toNat_of_isTypeChar (c := c) ?_).2
    simp [isTypeChar, isWordChar, Char.isAlphanum, hdigit]
  rw [← Int.toString_eq_repr, toList_toString_int]
  split
  · exact isAscii_cons.mpr ⟨by decide, hdigits⟩
  · exact hdigits

end ObjectFlow
