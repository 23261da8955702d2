/-
  File:      ObjectFlow/Proofs/Program/Signatures.lean
  Subject:   A SIGNATURE THAT IS PRINTED IS A SIGNATURE, of the same class.

  What is stored of a signature is the class before its first colon and the canonical spelling of
  the rest. The canonical spelling drops blanks, commas and closing parentheses only, so that the
  brackets and colons are those of the signature that was read.

  * `normalChars_of_not_mem`, `normalChars_of_cutAt`: the canonical spelling of a text without and
    with a parameter list;
  * `filter_normalChars`, `brackets_normalChars`: the canonical spelling keeps all brackets and
    colons;
  * `isSignature_printed`: what is printed between angle brackets is a signature again;
  * `cutSignature?_printed`: it is cut into the class and the subsignature it was put together
    from.
-/
import ObjectFlow.Proofs.Program.Subsignatures

namespace ObjectFlow

/-! ## 1. What is kept of a text -/

namespace Text

section Kept

variable {q : Char → Bool} {cs : List Char}

theorem filter_eq_nil (h : ∀ c ∈ cs, q c = false) : cs.filter q = [] :=
  List.filter_eq_nil_iff.mpr fun c hc => by simp [h c hc]

theorem filter_dropEndWhile {p : Char → Bool} (h : ∀ c ∈ cs, p c = true → q c = false) :
    (dropEndWhile p cs).filter q = cs.filter q := by
  obtain ⟨tail, htail, hp⟩ := dropEndWhile_append p cs
  have hdropped : tail.filter q = [] :=
    filter_eq_nil fun c hc => h c (htail ▸ List.mem_append_right _ hc) (hp c hc)
  conv_rhs => rw [htail]
  rw [List.filter_append, hdropped, List.append_nil]

theorem filter_dropWhile {p : Char → Bool} (h : ∀ c ∈ cs, p c = true → q c = false) :
    (cs.dropWhile p).filter q = cs.filter q := by
  have hdropped : (cs.takeWhile p).filter q = [] :=
    filter_eq_nil fun c hc => h c ((List.takeWhile_prefix p).subset hc) (List.mem_takeWhile_imp hc)
  conv_rhs => rw [← List.takeWhile_append_dropWhile (p := p) (l := cs)]
  rw [List.filter_append, hdropped, List.nil_append]

theorem filter_trim (h : ∀ c ∈ cs, isBlank c = true → q c = false) :
    (trim cs).filter q = cs.filter q := by
  have hstart : ∀ c ∈ trimStart cs, isBlank c = true → q c = false := fun c hc =>
    h c ((List.dropWhile_suffix _).subset hc)
  rw [trim, trimEnd, filter_dropEndWhile hstart, trimStart, filter_dropWhile h]

theorem filter_joinWith {sep : List Char} (hsep : ∀ c ∈ sep, q c = false)
    (pieces : List (List Char)) :
    (joinWith sep pieces).filter q = pieces.flatMap (List.filter q) := by
  fun_induction joinWith sep pieces with
  | case1 => rfl
  | case2 piece => simp
  | case3 piece rest _ ih =>
    rw [List.filter_append, List.filter_append, filter_eq_nil hsep, ih, List.append_nil,
      List.flatMap_cons]

theorem filter_splitAll {sep : Char} (hsep : q sep = false) (cs : List Char) :
    (splitAll sep cs).flatMap (List.filter q) = cs.filter q := by
  induction cs with
  | nil => rfl
  | cons c cs ih =>
    rw [splitAll]
    split
    · rename_i hc
      subst hc
      rw [List.flatMap_cons, List.filter_nil, List.nil_append, ih,
        List.filter_cons_of_neg (by simp [hsep])]
    · rw [show c :: cs = [c] ++ cs from rfl, List.filter_append, ← ih]
      cases splitAll sep cs with
      | nil => simp
      | cons piece pieces =>
        rw [List.flatMap_cons, List.flatMap_cons, ← List.append_assoc, ← List.filter_append]
        rfl

theorem filter_wordsFrom (word : List Char) (h : ∀ c ∈ cs, isBlank c = true → q c = false) :
    (wordsFrom word cs).flatMap (List.filter q) = word.filter q ++ cs.filter q := by
  induction cs generalizing word with
  | nil =>
    cases word with
    | nil => rfl
    | cons c word => simp [wordsFrom]
  | cons c cs ih =>
    have ih := fun word => ih word fun d hd => h d (List.mem_cons_of_mem c hd)
    rw [wordsFrom]
    split
    · rename_i hblank
      rw [List.filter_cons_of_neg (by simp [h c List.mem_cons_self hblank])]
      cases word with
      | nil => exact ih []
      | cons d word =>
        rw [if_neg (by simp), List.flatMap_cons, ih, List.filter_nil, List.nil_append]
    · rw [ih, List.filter_append, List.append_assoc, ← List.filter_append]
      rfl

/-- Blanks are dropped from pieces, and then empty pieces. -/
theorem filter_pieces {pieces : List (List Char)}
    (h : ∀ piece ∈ pieces, ∀ c ∈ piece, isBlank c = true → q c = false) :
    ((pieces.map fun piece => piece.filter fun c => !isBlank c).filter
      fun piece => !piece.isEmpty).flatMap (List.filter q) = pieces.flatMap (List.filter q) := by
  induction pieces with
  | nil => rfl
  | cons piece pieces ih =>
    have hpiece : (piece.filter fun c => !isBlank c).filter q = piece.filter q := by
      rw [List.filter_filter]
      refine List.filter_congr fun c hc => ?_
      cases hblank : isBlank c with
      | false => simp
      | true => simp [h piece List.mem_cons_self c hc hblank]
    have ih := ih fun other hother => h other (List.mem_cons_of_mem piece hother)
    rw [List.map_cons, List.flatMap_cons, ← hpiece]
    cases hkept : piece.filter fun c => !isBlank c with
    | nil =>
      rw [List.filter_cons_of_neg (by simp), ih]
      rfl
    | cons c kept => rw [List.filter_cons_of_pos (by simp), List.flatMap_cons, ih]

end Kept

end Text

/-! ## 2. The canonical spelling and its brackets -/

/-- The brackets, colons and ends of statements in a text. -/
def brackets (cs : List Char) : List Char := cs.filter fun c => !isPlain c

theorem brackets_append (cs cs' : List Char) : brackets (cs ++ cs') = brackets cs ++ brackets cs' :=
  List.filter_append ..

theorem brackets_cons_of_isPlain {c : Char} (h : isPlain c = true) (cs : List Char) :
    brackets (c :: cs) = brackets cs :=
  List.filter_cons_of_neg (by simpa using h)

theorem isPlain_of_isBlank {c : Char} (h : Text.isBlank c = true) (hline : c ≠ '\n') :
    isPlain c = true := by
  have hne : ∀ d : Char, Text.isBlank d = false → c ≠ d := by
    rintro d hd rfl
    rw [h] at hd
    cases hd
  simp [isPlain, hline, hne '<' rfl, hne '>' rfl, hne ':' rfl, hne ';' rfl, hne '{' rfl,
    hne '}' rfl, hne '=' rfl]

section Canonical

variable {cs : List Char}

theorem brackets_trim (h : ∀ c ∈ cs, Text.isBlank c = true → isPlain c = true) :
    brackets (Text.trim cs) = brackets cs :=
  Text.filter_trim fun c hc hblank => by simp [h c hc hblank]

/-- Pieces are made of the characters of the text, and none is the separator. -/
theorem of_mem_splitAll {sep c : Char} {piece : List Char} (hpiece : piece ∈ Text.splitAll sep cs)
    (hc : c ∈ piece) : c ∈ cs ∧ c ≠ sep := by
  induction cs generalizing piece with
  | nil =>
    rw [List.mem_singleton.mp hpiece] at hc
    exact absurd hc List.not_mem_nil
  | cons d cs ih =>
    rw [Text.splitAll] at hpiece
    split at hpiece
    · rcases List.mem_cons.mp hpiece with rfl | hpiece
      · exact absurd hc List.not_mem_nil
      · exact (ih hpiece hc).imp_left (List.mem_cons_of_mem d)
    · rename_i hsep
      cases hsplit : Text.splitAll sep cs with
      | nil =>
        rw [hsplit] at hpiece
        rw [List.mem_singleton.mp hpiece] at hc
        rw [List.mem_singleton.mp hc]
        exact ⟨List.mem_cons_self, hsep⟩
      | cons first pieces =>
        rw [hsplit] at hpiece ih
        rcases List.mem_cons.mp hpiece with rfl | hpiece
        · rcases List.mem_cons.mp hc with rfl | hc
          · exact ⟨List.mem_cons_self, hsep⟩
          · exact (ih List.mem_cons_self hc).imp_left (List.mem_cons_of_mem d)
        · exact (ih (List.mem_cons_of_mem first hpiece) hc).imp_left (List.mem_cons_of_mem d)

theorem mem_of_mem_trim {c : Char} (h : c ∈ Text.trim cs) : c ∈ cs := by
  obtain ⟨tail, htail, -⟩ := Text.dropEndWhile_append Text.isBlank (Text.trimStart cs)
  have hmem : c ∈ Text.trimStart cs := htail ▸ List.mem_append_left tail h
  exact (List.dropWhile_suffix _).subset hmem

theorem mem_of_mem_dropEndWhile {p : Char → Bool} {c : Char} (h : c ∈ Text.dropEndWhile p cs) :
    c ∈ cs := by
  obtain ⟨tail, htail, -⟩ := Text.dropEndWhile_append p cs
  exact htail ▸ List.mem_append_left tail h

/-- The parameters in a text: what stands between commas when blanks are dropped. -/
def paramPieces (params : List Char) : List (List Char) :=
  ((Text.splitAll ',' params).map fun piece => piece.filter fun c => !Text.isBlank c).filter
    fun piece => !piece.isEmpty

theorem filter_paramPieces {q : Char → Bool} (h : ∀ c ∈ cs, Text.isBlank c = true → q c = false)
    (hcomma : q ',' = false) : (paramPieces cs).flatMap (List.filter q) = cs.filter q := by
  rw [paramPieces, Text.filter_pieces, Text.filter_splitAll hcomma]
  exact fun piece hpiece c hc => h c (of_mem_splitAll hpiece hc).1

theorem of_mem_paramPieces {piece : List Char} (h : piece ∈ paramPieces cs) :
    piece ≠ [] ∧ ∀ c ∈ piece, Text.isBlank c = false ∧ c ≠ ',' ∧ c ∈ cs := by
  obtain ⟨hmem, hne⟩ := List.mem_filter.mp h
  obtain ⟨whole, hwhole, rfl⟩ := List.mem_map.mp hmem
  refine ⟨by simpa using hne, fun c hc => ?_⟩
  obtain ⟨hc, hblank⟩ := List.mem_filter.mp hc
  obtain ⟨hmem, hcomma⟩ := of_mem_splitAll hwhole hc
  exact ⟨by simpa using hblank, hcomma, hmem⟩

/-- A text without parameter list is only trimmed. -/
theorem normalChars_of_not_mem {text : List Char} (h : '(' ∉ Text.trim text) :
    normalChars text = Text.trim text := by
  unfold normalChars
  dsimp only
  rw [Text.cutAt_eq_none_iff.mpr h]

theorem normalChars_of_cutAt {text head params : List Char}
    (h : Text.cutAt '(' (Text.trim text) = some (head, params)) :
    normalChars text = Text.joinWith [' '] (Text.words head) ++ ['('] ++
      Text.joinWith [','] (paramPieces (Text.dropEndWhile (· = ')') (Text.trimEnd params))) ++
        [')'] := by
  unfold normalChars
  dsimp only
  rw [h]
  rfl

/-- The canonical spelling keeps all but blanks, commas and closing parentheses. -/
theorem filter_normalChars {q : Char → Bool} (h : ∀ c ∈ cs, Text.isBlank c = true → q c = false)
    (hdropped : ∀ c ∈ [' ', ',', ')'], q c = false) :
    (normalChars cs).filter q = cs.filter q := by
  obtain ⟨hspace, hcomma, hclose⟩ : q ' ' = false ∧ q ',' = false ∧ q ')' = false := by
    simpa using hdropped
  cases hcut : Text.cutAt '(' (Text.trim cs) with
  | none =>
    rw [normalChars_of_not_mem (Text.cutAt_eq_none_iff.mp hcut)]
    exact Text.filter_trim h
  | some cut =>
    obtain ⟨head, params⟩ := cut
    obtain ⟨htext, -⟩ := Text.cutAt_eq_some_iff.mp hcut
    have hmem : ∀ c ∈ head ++ '(' :: params, c ∈ cs := fun c hc => mem_of_mem_trim (htext ▸ hc)
    have hhead : ∀ c ∈ head, Text.isBlank c = true → q c = false := fun c hc =>
      h c (hmem c (List.mem_append_left _ hc))
    have hparams : ∀ c ∈ params, Text.isBlank c = true → q c = false := fun c hc =>
      h c (hmem c (List.mem_append_right _ (List.mem_cons_of_mem _ hc)))
    -- only closing parentheses and blanks are dropped from the end of the parameters
    have hend : (Text.dropEndWhile (· = ')') (Text.trimEnd params)).filter q = params.filter q := by
      rw [Text.filter_dropEndWhile, Text.trimEnd, Text.filter_dropEndWhile hparams]
      intro c _ hc
      rw [of_decide_eq_true hc]
      exact hclose
    have hlast : [')'].filter q = [] := Text.filter_eq_nil (by simpa using hclose)
    rw [normalChars_of_cutAt hcut, List.filter_append, List.filter_append, List.filter_append,
      Text.filter_joinWith (by simpa using hspace), Text.filter_joinWith (by simpa using hcomma),
      Text.words, Text.filter_wordsFrom [] hhead, filter_paramPieces _ hcomma, hend, hlast,
      ← Text.filter_trim h, htext, List.filter_append, List.append_nil, List.append_assoc,
      ← List.filter_append ['('] params]
    · rfl
    · exact fun c hc => hparams c (mem_of_mem_dropEndWhile (mem_of_mem_dropEndWhile hc))

/-- **The canonical spelling keeps all brackets and colons.** -/
theorem brackets_normalChars (h : ∀ c ∈ cs, Text.isBlank c = true → isPlain c = true) :
    brackets (normalChars cs) = brackets cs :=
  filter_normalChars (fun c hc hblank => by simp [h c hc hblank]) (by simp [isPlain])

theorem mem_joinWith {sep : List Char} {pieces : List (List Char)} {c : Char}
    (h : c ∈ Text.joinWith sep pieces) : c ∈ sep ∨ ∃ piece ∈ pieces, c ∈ piece := by
  fun_induction Text.joinWith sep pieces with
  | case1 => exact absurd h List.not_mem_nil
  | case2 piece => exact .inr ⟨piece, List.mem_cons_self, h⟩
  | case3 piece rest _ ih =>
    rcases List.mem_append.mp h with h | h
    · rcases List.mem_append.mp h with h | h
      · exact .inr ⟨piece, List.mem_cons_self, h⟩
      · exact .inl h
    · rcases ih h with h | ⟨other, hother, h⟩
      · exact .inl h
      · exact .inr ⟨other, List.mem_cons_of_mem piece hother, h⟩

/-- Words are made of the characters of the text, and none is blank. -/
theorem of_mem_wordsFrom {word piece : List Char} (hpiece : piece ∈ Text.wordsFrom word cs)
    (hword : ∀ c ∈ word, Text.isBlank c = false) :
    piece ≠ [] ∧ ∀ c ∈ piece, Text.isBlank c = false ∧ c ∈ word ++ cs := by
  fun_induction Text.wordsFrom word cs generalizing piece with
  | case1 => exact absurd hpiece List.not_mem_nil
  | case2 word hne =>
    rw [List.mem_singleton.mp hpiece]
    exact ⟨by simpa using hne, fun c hc => ⟨hword c hc, List.mem_append_left _ hc⟩⟩
  | case3 word d cs _ _ ih =>
    obtain ⟨hne, hchars⟩ := ih hpiece nofun
    exact ⟨hne, fun c hc => (hchars c hc).imp_right fun h =>
      List.mem_append_right _ (List.mem_cons_of_mem _ h)⟩
  | case4 word d cs _ hne ih =>
    rcases List.mem_cons.mp hpiece with rfl | hpiece
    · exact ⟨by simpa using hne, fun c hc => ⟨hword c hc, List.mem_append_left _ hc⟩⟩
    · obtain ⟨hne, hchars⟩ := ih hpiece nofun
      exact ⟨hne, fun c hc => (hchars c hc).imp_right fun h =>
        List.mem_append_right _ (List.mem_cons_of_mem _ h)⟩
  | case5 word d cs hblank ih =>
    have hword' : ∀ c ∈ word ++ [d], Text.isBlank c = false := fun c hc => by
      rcases List.mem_append.mp hc with hc | hc
      · exact hword c hc
      · rw [List.mem_singleton.mp hc]
        simpa using hblank
    simpa using ih hpiece hword'

/-- The canonical spelling holds no characters of its own but blanks and the marks of a parameter
    list. -/
theorem mem_normalChars {c : Char} (h : c ∈ normalChars cs) :
    c ∈ cs ∨ c ∈ [' ', '(', ',', ')'] := by
  cases hcut : Text.cutAt '(' (Text.trim cs) with
  | none =>
    rw [normalChars_of_not_mem (Text.cutAt_eq_none_iff.mp hcut)] at h
    exact .inl (mem_of_mem_trim h)
  | some cut =>
    obtain ⟨head, params⟩ := cut
    obtain ⟨htext, -⟩ := Text.cutAt_eq_some_iff.mp hcut
    have hmem : ∀ c ∈ head ++ '(' :: params, c ∈ cs := fun c hc => mem_of_mem_trim (htext ▸ hc)
    rw [normalChars_of_cutAt hcut] at h
    rcases List.mem_append.mp h with h | h
    · rcases List.mem_append.mp h with h | h
      · rcases List.mem_append.mp h with h | h
        · rcases mem_joinWith h with h | ⟨word, hword, hc⟩
          · exact .inr (by simp [List.mem_singleton.mp h])
          · exact .inl (hmem c (List.mem_append_left _ ((of_mem_wordsFrom hword nofun).2 c hc).2))
        · exact .inr (by simp [List.mem_singleton.mp h])
      · rcases mem_joinWith h with h | ⟨param, hparam, hc⟩
        · exact .inr (by simp [List.mem_singleton.mp h])
        · have hc := mem_of_mem_dropEndWhile (mem_of_mem_dropEndWhile
            ((of_mem_paramPieces hparam).2 c hc).2.2)
          exact .inl (hmem c (List.mem_append_right _ (List.mem_cons_of_mem _ hc)))
    · exact .inr (by simp [List.mem_singleton.mp h])

end Canonical

/-! ## 3. Printed signatures -/

namespace Text

/-- What is dropped may stand behind the text. -/
theorem dropEndWhile_append_of_all {p : Char → Bool} (cs : List Char) {tail : List Char}
    (h : ∀ c ∈ tail, p c = true) : dropEndWhile p (cs ++ tail) = dropEndWhile p cs := by
  rw [dropEndWhile, dropEndWhile, List.reverse_append,
    List.dropWhile_append_of_pos fun c hc => h c (List.mem_reverse.mp hc)]

/-- A last character that stays keeps the whole text. -/
theorem dropEndWhile_concat {p : Char → Bool} (cs : List Char) {c : Char} (h : p c = false) :
    dropEndWhile p (cs ++ [c]) = cs ++ [c] := by
  rw [dropEndWhile, List.reverse_append, List.reverse_singleton, List.singleton_append,
    List.dropWhile_cons_of_neg (by simp [h]), List.reverse_cons, List.reverse_reverse]

theorem dropEndWhile_eq_self {p : Char → Bool} {cs : List Char}
    (h : ∀ c ∈ cs.getLast?, p c = false) : dropEndWhile p cs = cs := by
  rcases List.eq_nil_or_concat' cs with rfl | ⟨front, c, rfl⟩
  · rfl
  · exact dropEndWhile_concat front (h c (by simp))

/-- A first character that is not blank stays. -/
theorem trim_cons {c : Char} (h : isBlank c = false) (rest : List Char) :
    ∃ rest', trim (c :: rest) = c :: rest' := by
  rw [trim_eq_trimEnd fun d hd => by cases hd; exact h, trimEnd]
  obtain ⟨tail, htail, hblanks⟩ := dropEndWhile_append isBlank (c :: rest)
  cases hkept : dropEndWhile isBlank (c :: rest) with
  | nil =>
    rw [hkept, List.nil_append] at htail
    have hblank := hblanks c (htail ▸ List.mem_cons_self)
    rw [h] at hblank
    cases hblank
  | cons d rest' =>
    rw [hkept, List.cons_append] at htail
    exact ⟨rest', by rw [(List.cons.inj htail).1]⟩

theorem trimStart_trim (cs : List Char) : trimStart (trim cs) = trim cs := by
  cases hkept : trim cs with
  | nil => rfl
  | cons c rest =>
    -- what trimming leaves starts as the text without its first blanks does
    obtain ⟨tail, htail, -⟩ := dropEndWhile_append isBlank (trimStart cs)
    have hstart : trimStart cs = c :: (rest ++ tail) := by
      rw [htail]
      show trim cs ++ tail = _
      rw [hkept]
      rfl
    have hblank : isBlank c = false := by
      have hfirst := List.dropWhile_get_zero_not isBlank cs (by
        show 0 < (trimStart cs).length
        rw [hstart]
        exact Nat.succ_pos _)
      have hget : (cs.dropWhile isBlank) = c :: (rest ++ tail) := hstart
      simpa [hget] using hfirst
    rw [trimStart, List.dropWhile_cons_of_neg (by simp [hblank])]

theorem trim_trim (cs : List Char) : trim (trim cs) = trim cs := by
  conv_lhs => rw [trim, trimStart_trim, trim, trimEnd, trimEnd, dropEndWhile_dropEndWhile]
  rfl

end Text

/-- The text between the angle brackets of a printed signature. -/
def signatureChars (owner subsig : String) : List Char :=
  owner.toList ++ ':' :: ' ' :: subsig.toList

/-- A blank in front of a subsignature changes nothing. -/
theorem normalSubsig_space (subsig : String) :
    normalSubsig (String.ofList (' ' :: subsig.toList)) = normalSubsig subsig := by
  unfold normalSubsig normalChars
  rw [String.toList_ofList]
  rfl

/-- Behind a parameter list stands its parenthesis. -/
theorem of_subsigArity? {subsig : String} (h : (subsigArity? subsig).isSome) :
    ∃ inner, subsig.toList = inner ++ [')'] := by
  obtain ⟨arity, h⟩ := Option.isSome_iff_exists.mp h
  obtain ⟨⟨head, rest⟩, hcut, h⟩ := Option.bind_eq_some_iff.mp h
  obtain ⟨params, hback, -⟩ := Option.bind_eq_some_iff.mp h
  obtain ⟨htext, -⟩ := Text.cutAt_eq_some_iff.mp hcut
  refine ⟨head ++ '(' :: params, ?_⟩
  rw [htext, Text.dropBack?_eq_some_iff.mp hback, List.append_assoc]
  rfl

section Printed

variable {text : List Char} {owner subsig : String}

/-- The class named in a signature. -/
theorem of_cutSignature? (h : Program.cutSignature? text = some (owner, subsig)) :
    ∃ before, text = before ++ ':' :: subsig.toList ∧ ':' ∉ before ∧
      owner.toList = Text.trim before := by
  obtain ⟨⟨before, after⟩, hcut, heq⟩ := Option.map_eq_some_iff.mp h
  cases heq
  obtain ⟨htext, hcolon⟩ := Text.cutAt_eq_some_iff.mp hcut
  refine ⟨before, ?_, hcolon, String.toList_ofList⟩
  rw [String.toList_ofList]
  exact htext

/-- **A printed signature is cut where it was put together.** -/
theorem cutSignature?_printed (h : Program.cutSignature? text = some (owner, subsig))
    (printed : String) : Program.cutSignature? (signatureChars owner printed) =
      some (owner, String.ofList (' ' :: printed.toList)) := by
  obtain ⟨before, -, hcolon, howner⟩ := of_cutSignature? h
  have hcut : Text.cutAt ':' (signatureChars owner printed) =
      some (owner.toList, ' ' :: printed.toList) :=
    Text.cutAt_eq_some_iff.mpr ⟨rfl, fun hmem => hcolon (mem_of_mem_trim (howner ▸ hmem))⟩
  have htrim : Text.trim owner.toList = owner.toList := by rw [howner, Text.trim_trim]
  rw [Program.cutSignature?, hcut, Option.map_some]
  dsimp only
  rw [htrim, String.ofList_toList]

/-- **What is printed between angle brackets is a signature**, of the class and with the
    subsignature in its canonical spelling. -/
theorem isSignature_printed (htext : IsSignature text)
    (h : Program.cutSignature? text = some (owner, subsig))
    (harity : (subsigArity? (normalSubsig subsig)).isSome) :
    IsSignature (signatureChars owner (normalSubsig subsig)) := by
  obtain ⟨before, hsplit, hcolon, howner⟩ := of_cutSignature? h
  have hends := of_bracketsEnd htext.closes
  have hplain : ∀ c ∈ text, Text.isBlank c = true → isPlain c = true := fun c hc hblank =>
    isPlain_of_isBlank hblank (hends c hc).2.1
  have hbefore : ∀ c ∈ before, c ∈ text := fun c hc => hsplit ▸ List.mem_append_left _ hc
  have hafter : ∀ c ∈ subsig.toList, c ∈ text := fun c hc =>
    hsplit ▸ List.mem_append_right _ (List.mem_cons_of_mem _ hc)
  have hnormal : (normalSubsig subsig).toList = normalChars subsig.toList := String.toList_ofList
  -- the first letter is one of the class
  obtain ⟨c, rest, howner', hc⟩ : ∃ c rest, owner.toList = c :: rest ∧ c.isAlpha = true := by
    have hhead := htext.head
    rw [hsplit] at hhead
    cases before with
    | nil =>
      have hhead : ':'.isAlpha = true := hhead
      exact absurd hhead (by decide)
    | cons c before =>
      obtain ⟨rest, hrest⟩ := Text.trim_cons (isBlank_of_isAlpha hhead) before
      exact ⟨c, rest, howner.trans hrest, hhead⟩
  -- the last character is the parenthesis behind the parameters
  obtain ⟨inner, hinner⟩ := of_subsigArity? harity
  have hblank : ∀ d ∈ (signatureChars owner (normalSubsig subsig)).head?,
      Text.isBlank d = false := by
    intro d hd
    rw [signatureChars, howner'] at hd
    cases hd
    exact isBlank_of_isAlpha hc
  refine ⟨?_, ?_, ?_, ?_⟩
  · rw [signatureChars, howner']
    exact hc
  · have hbrackets : brackets (signatureChars owner (normalSubsig subsig)) = brackets text := by
      have hcons : ∀ cs, brackets (':' :: cs) = ':' :: brackets cs := fun cs =>
        List.filter_cons_of_pos (by decide)
      rw [signatureChars, hsplit, brackets_append, brackets_append, hcons, hcons,
        brackets_cons_of_isPlain (c := ' ') rfl, howner, hnormal,
        brackets_trim fun d hd => hplain d (hbefore d hd),
        brackets_normalChars fun d hd => hplain d (hafter d hd)]
    rw [foldlM_bracketStep_congr hbrackets]
    exact htext.closes
  · rw [Text.trim_eq_trimEnd hblank, signatureChars, hinner, ← List.cons_append,
      ← List.cons_append, ← List.append_assoc]
    exact Text.dropEndWhile_concat _ (by decide)
  · intro d hd
    rcases List.mem_append.mp hd with hd | hd
    · exact htext.ascii d (hbefore d (mem_of_mem_trim (howner ▸ hd)))
    · rcases List.mem_cons.mp hd with rfl | hd
      · decide
      rcases List.mem_cons.mp hd with rfl | hd
      · decide
      rw [hnormal] at hd
      rcases mem_normalChars hd with hd | hd
      · exact htext.ascii d (hafter d hd)
      · have hall : ∀ e ∈ [' ', '(', ',', ')'], e.toNat < 128 := by simp
        exact hall d hd

end Printed

end ObjectFlow
