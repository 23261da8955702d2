/-
  File:      ObjectFlow/Proofs/Token/Respacing.lean
  Subject:   TOKENS THAT ARE WRITTEN WITH BLANKS BETWEEN THEM ARE READ AS THEMSELVES.

  * `spaced`: the tokens of a text, each as it is written, with one blank between neighbours;
  * `Token.Spelled.readsAs`: a token of a text is read as itself when a blank follows it;
  * `lex_spaced`: the spaced tokens have the same tokens and the same names with the same numbers.
-/
import ObjectFlow.Proofs.Token.Spans

namespace ObjectFlow

/-! ## 1. One token -/

theorem readsAs_signature {text : List Char} (h : IsSignature text) (d : Char) :
    ReadsAs ('<' :: (text ++ ['>'])) d (.signature (String.ofList text)) :=
  ⟨'<', text ++ ['>'], rfl, fun rest => lexemeAt_signature h (d :: rest)⟩

/-- **A token of a text is read as itself when a blank follows it.** -/
theorem Token.Spelled.readsAs {t : Token} (h : t.Spelled) (hinside : t ≠ .endOfFile) :
    ReadsAs t.text.toList ' ' t := by
  cases t with
  | ident name => exact readsAs_name rfl h
  | integer value => exact readsAs_integer value rfl
  | signature text =>
    have hsignature := readsAs_signature h ' '
    rw [String.ofList_toList] at hsignature
    simpa [Token.text] using hsignature
  | keyword k => exact readsAs_keyword rfl k
  | operator op => exact readsAs_operator op
  | mark m => exact readsAs_mark m
  | endOfFile => exact absurd rfl hinside

/-- What is read as a token in front of a blank is read so at the end of a text. -/
theorem ReadsAs.scan_last {text : List Char} {d : Char} {t : Token} (h : ReadsAs text d t)
    (line : Nat) : scan line 0 text = .ok [⟨t, line⟩, ⟨.endOfFile, line⟩] := by
  obtain ⟨c, more, rfl, hlexeme⟩ := h
  obtain ⟨-, own, later, hmore, hlength, -, halone⟩ := lexemeAt_alone (hlexeme [])
  obtain ⟨rfl, -⟩ := List.append_inj hmore hlength.symm
  rw [scan, halone]
  dsimp only
  rw [scan_drop, List.drop_length]
  rfl

theorem isAscii_text {t : Token} (h : t.Spelled) : IsAscii t.text.toList := by
  cases t with
  | ident name => exact IsName.isAscii h
  | integer value => exact isAscii_repr value.toInt
  | signature text => simpa [Token.text] using h.ascii
  | keyword k =>
    have hall : ∀ k ∈ Keyword.all, k.word.toList.all (·.toNat < 128) := by decide
    exact fun c hc => by simpa using List.all_eq_true.mp (hall k k.mem_all) c hc
  | operator op => cases op <;> simp [Token.text, BinaryOp.symbol]
  | mark m => cases m <;> simp [Token.text, Mark.text]
  | endOfFile => simp [Token.text]

/-! ## 2. All tokens -/

/-- The tokens in front of the end, each as it is written, with one blank between neighbours. -/
def spaced (tokens : List LineToken) : String :=
  " ".intercalate (tokens.dropLast.map (·.token.text))

theorem isAscii_spaced {tokens : List LineToken} (h : ∀ t ∈ tokens, t.token.Spelled) :
    IsAscii (spaced tokens).toList := by
  refine isAscii_intercalate (by simp) fun text htext => ?_
  obtain ⟨t, ht, rfl⟩ := List.mem_map.mp htext
  exact isAscii_text (h t ((List.dropLast_subset tokens) ht))

/-- Spaced tokens are read as themselves. The induction is on the tokens; the last one has no blank
    behind it. -/
theorem scan_spaced {tokens : List LineToken}
    (h : ∀ t ∈ tokens, t.token.Spelled ∧ t.token ≠ .endOfFile) (line : Nat) :
    ∃ tokens', scan line 0 (" ".intercalate (tokens.map (·.token.text))).toList = .ok tokens' ∧
      tokens'.map (·.token) = tokens.map (·.token) ++ [.endOfFile] := by
  have hblank : " ".toList = [' '] := rfl
  rw [String.toList_intercalate, List.map_map, hblank]
  induction tokens generalizing line with
  | nil => exact ⟨_, rfl, rfl⟩
  | cons t tokens ih =>
    obtain ⟨hspelled, hinside⟩ := h t List.mem_cons_self
    have hreads := hspelled.readsAs hinside
    cases tokens with
    | nil =>
      refine ⟨[⟨t.token, line⟩, ⟨.endOfFile, line⟩], ?_, rfl⟩
      rw [List.map_singleton, List.intercalate_singleton]
      exact hreads.scan_last line
    | cons next tokens =>
      obtain ⟨line', first, hfirst, hscan⟩ := Emits.of_readsAs hreads Emits.nil.space line
        ([' '].intercalate ((next :: tokens).map (String.toList ∘ (·.token.text))))
      obtain ⟨later, hlater, hlaters⟩ := ih (fun t ht => h t (List.mem_cons_of_mem _ ht)) line'
      refine ⟨first ++ later, ?_, ?_⟩
      · rw [List.map_cons, List.map_cons, List.intercalate_cons_cons, ← List.map_cons]
        refine hscan.trans ?_
        rw [hlater]
        rfl
      · rw [List.map_append, hfirst, hlaters]
        rfl

/-! ## 3. Whole texts -/

/-- The names of a text depend on its tokens only. -/
theorem nameTable_congr {tokens tokens' : List LineToken}
    (h : tokens'.map (·.token) = tokens.map (·.token)) : nameTable tokens' = nameTable tokens := by
  have hnames : ∀ ts : List LineToken,
      ts.filterMap (·.token.name?) = (ts.map (·.token)).filterMap Token.name? := fun ts => by
    rw [List.filterMap_map]
    rfl
  rw [nameTable, nameTable, hnames, hnames, h]

/-- **Lexing undoes the printing of tokens.** The tokens of every text, all but the end written with
    single blanks between them, are read as the same tokens: the same words, marks, numbers, names
    and signatures. The names have the same table, and in it the same numbers. -/
theorem lex_spaced {source : String} {tokens : List LineToken} (h : lex source = .ok tokens) :
    ∃ tokens', lex (spaced tokens) = .ok tokens' ∧
      tokens'.map (·.token) = tokens.map (·.token) ∧ nameTable tokens' = nameTable tokens ∧
      tokens'.map (fun t => t.token.numbered (nameTable tokens')) =
        tokens.map fun t => t.token.numbered (nameTable tokens) := by
  have hspelled := spelled_of_lex h
  obtain ⟨front, line, rfl, hinside⟩ := endsOnce_of_lex h
  have hfront : ∀ t ∈ front, t.token.Spelled ∧ t.token ≠ .endOfFile := fun t ht =>
    ⟨hspelled t (List.mem_append_left _ ht), hinside t ht⟩
  obtain ⟨tokens', hscan, hsame⟩ := scan_spaced hfront 1
  have htext : spaced (front ++ [⟨.endOfFile, line⟩]) =
      " ".intercalate (front.map (·.token.text)) := by
    rw [spaced, List.dropLast_concat]
  have htokens : tokens'.map (·.token) =
      (front ++ [LineToken.mk .endOfFile line]).map (·.token) := by
    rw [hsame, List.map_append]
    rfl
  have htable := nameTable_congr htokens
  refine ⟨tokens', lex_eq_ok.mpr ⟨isAscii_spaced hspelled, htext ▸ hscan⟩, htokens, htable, ?_⟩
  rw [htable]
  have hnumbered := congrArg
    (List.map (Token.numbered (nameTable (front ++ [LineToken.mk .endOfFile line])))) htokens
  rwa [List.map_map, List.map_map] at hnumbered

/-- A text in which one blank more or less would give other tokens: a signature with a blank at its
    end, an angle bracket that starts none, minus signs, operators in front of one another and of
    comments. -/
def cramped : String :=
  "<A: void <init>( ) >-1- 1 a<b<<=c==</* x */// y\n/007<init>"

theorem lex_spaced_cramped :
    ∃ tokens, lex cramped = .ok tokens ∧
      spaced tokens = "<A: void <init>( )> -1 - 1 a < b << = c == < / 7 <init>" ∧
      ∃ tokens', lex (spaced tokens) = .ok tokens' ∧
        tokens'.map (·.token) = tokens.map (·.token) := by
  obtain ⟨tokens, hlex, h⟩ := exists_of_any_lex cramped (fun tokens => decide (
      spaced tokens = "<A: void <init>( )> -1 - 1 a < b << = c == < / 7 <init>")) (by
    have htext : cramped.toList = _ := String.toList_ofList
    rw [lex_eq htext]
    decide +kernel)
  obtain ⟨tokens', hlex', hsame, -⟩ := lex_spaced hlex
  exact ⟨tokens, hlex, of_decide_eq_true h, tokens', hlex', hsame⟩

end ObjectFlow
