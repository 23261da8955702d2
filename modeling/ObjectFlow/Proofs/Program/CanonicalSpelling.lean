/-
  File:      ObjectFlow/Proofs/Program/CanonicalSpelling.lean
  Subject:   THE CANONICAL SPELLING OF A SUBSIGNATURE IS ITS OWN, unless it closes its parameter
             list twice.

  A spelling is put together from words and parameters. Spelled again it is taken apart into the
  same words and parameters, with one exception: parentheses at the end of the last parameter are
  taken for the one that closes the list, and are dropped.

  * `SubsigParts`: the words and the parameters of a subsignature, and their spelling;
  * `normalChars_cases`: what the canonical spelling of a text is put together from;
  * `Overclosed`, `StraysClosing`: the spellings that do not last, and the texts that have them;
  * `normalChars_normalChars_iff`, `overclosed_normalChars_iff`: a spelling lasts unless it closes
    its list twice, and which texts have such a spelling;
  * `spelling_lasts_unless_overclosed`: canonical spellings, and the methods that calls name by
    them.
-/
import ObjectFlow.Proofs.Program.Naming

namespace ObjectFlow

/-! ## 1. Words and parameters -/

/-- A word or a parameter: characters of which none is blank or the mark behind it. -/
def IsPiece (mark : Char) (piece : List Char) : Prop :=
  piece ≠ [] ∧ ∀ c ∈ piece, Text.isBlank c = false ∧ c ≠ mark

/-- What may stand between two parameters. -/
def isGap (c : Char) : Bool := Text.isBlank c || c = ','

namespace Text

theorem joinWith_cons (sep piece : List Char) (pieces : List (List Char)) :
    ∃ behind, joinWith sep (piece :: pieces) = piece ++ behind := by
  cases pieces with
  | nil => exact ⟨[], (List.append_nil piece).symm⟩
  | cons next pieces => exact ⟨sep ++ joinWith sep (next :: pieces), List.append_assoc ..⟩

theorem joinWith_concat (sep : List Char) (pieces : List (List Char)) (piece : List Char) :
    ∃ before, joinWith sep (pieces ++ [piece]) = before ++ piece := by
  induction pieces with
  | nil => exact ⟨[], rfl⟩
  | cons first pieces ih =>
    obtain ⟨before, hbefore⟩ := ih
    refine ⟨first ++ sep ++ before, ?_⟩
    rw [List.cons_append, joinWith, hbefore, List.append_assoc _ before]
    simp

/-- The last character that is left is not one of those that are dropped. -/
theorem of_mem_getLast?_dropEndWhile {p : Char → Bool} {cs : List Char} {c : Char}
    (h : c ∈ (dropEndWhile p cs).getLast?) : p c = false := by
  rw [dropEndWhile, List.getLast?_reverse] at h
  have hnot := List.head?_dropWhile_not p cs.reverse
  rw [h] at hnot
  simpa using hnot

/-- The parentheses at the end of a text are dropped, and no more. -/
theorem dropEndWhile_closing {cs closing : List Char} (hlast : ')' ∉ cs.getLast?)
    (h : ∀ c ∈ closing, c = ')') : dropEndWhile (· = ')') (cs ++ closing) = cs := by
  rw [dropEndWhile_append_of_all cs fun c hc => decide_eq_true (h c hc)]
  exact dropEndWhile_eq_self fun c hc => decide_eq_false fun heq => hlast (heq ▸ hc)

theorem words_joinWith {pieces : List (List Char)} (h : ∀ piece ∈ pieces, IsPiece '(' piece) :
    words (joinWith [' '] pieces) = pieces := by
  have hblank : ∀ {piece}, IsPiece '(' piece → ∀ c ∈ piece, isBlank c = false := fun hpiece c hc =>
    (hpiece.2 c hc).1
  induction pieces with
  | nil => rfl
  | cons piece pieces ih =>
    obtain ⟨hpiece, hpieces⟩ := List.forall_mem_cons.mp h
    cases pieces with
    | nil => exact words_singleton hpiece.1 (hblank hpiece) (.refl piece)
    | cons next pieces =>
      have hnone : IsBlanks [] := nofun
      have hspace : IsBlanks [' '] := by simp [IsBlanks, isBlank]
      have hfirst := words_cons hpiece.1 (hblank hpiece) hnone hspace (List.cons_ne_nil ' ' [])
        (joinWith [' '] (next :: pieces))
      rw [ih hpieces] at hfirst
      exact hfirst

end Text

theorem isPiece_of_mem_words {cs piece : List Char} (hfree : '(' ∉ cs)
    (h : piece ∈ Text.words cs) : IsPiece '(' piece := by
  obtain ⟨hne, hchars⟩ := of_mem_wordsFrom h nofun
  refine ⟨hne, fun c hc => ⟨(hchars c hc).1, ?_⟩⟩
  rintro rfl
  exact hfree (hchars _ hc).2

theorem isPiece_of_mem_paramPieces {cs piece : List Char} (h : piece ∈ paramPieces cs) :
    IsPiece ',' piece := by
  obtain ⟨hne, hchars⟩ := of_mem_paramPieces h
  exact ⟨hne, fun c hc => ⟨(hchars c hc).1, (hchars c hc).2.1⟩⟩

theorem paramPieces_joinWith {params : List (List Char)} (h : ∀ param ∈ params, IsPiece ',' param) :
    paramPieces (Text.joinWith [','] params) = params := by
  cases params with
  | nil => rfl
  | cons param params =>
    have hsplit : Text.splitAll ',' (Text.joinWith [','] (param :: params)) = param :: params := by
      rw [Text.joinWith_eq_intercalate, Text.splitAll_intercalate (List.cons_ne_nil _ _)]
      exact fun piece hpiece hmem => ((h piece hpiece).2 _ hmem).2 rfl
    have hblanks : ((param :: params).map fun piece => piece.filter fun c => !Text.isBlank c) =
        param :: params := by
      refine (List.map_congr_left fun piece hpiece => ?_).trans (List.map_id _)
      exact List.filter_eq_self.mpr fun c hc => by simp [((h piece hpiece).2 c hc).1]
    rw [paramPieces, hsplit, hblanks, List.filter_eq_self]
    exact fun piece hpiece => by simpa using (h piece hpiece).1

/-- Taking parameters out of a text drops only what stands between them. -/
theorem filter_joinWith_paramPieces (cs : List Char) :
    (Text.joinWith [','] (paramPieces cs)).filter (fun c => !isGap c) =
      cs.filter fun c => !isGap c := by
  rw [Text.filter_joinWith (by simp [isGap]),
    filter_paramPieces (fun c _ hblank => by simp [isGap, hblank]) (by simp [isGap])]

/-- The last character of a parameter list is one of a parameter. -/
theorem getLast?_joinWith {params : List (List Char)} (h : ∀ param ∈ params, IsPiece ',' param) :
    (Text.joinWith [','] params).getLast? =
      ((Text.joinWith [','] params).filter fun c => !isGap c).getLast? := by
  rcases List.eq_nil_or_concat' params with rfl | ⟨front, param, rfl⟩
  · rfl
  · obtain ⟨before, hbefore⟩ := Text.joinWith_concat [','] front param
    obtain ⟨hne, hchars⟩ := h param (by simp)
    obtain ⟨inner, c, rfl⟩ := (List.eq_nil_or_concat' param).resolve_left hne
    obtain ⟨hblank, hcomma⟩ := hchars c (by simp)
    rw [hbefore, ← List.append_assoc, List.filter_append]
    simp [isGap, hblank, hcomma]

/-! ## 2. Spellings -/

/-- **A subsignature in its parts**: the words in front of the parameter list, and the
    parameters. -/
structure SubsigParts where
  words : List (List Char)
  params : List (List Char)
  isPiece_word : ∀ word ∈ words, IsPiece '(' word
  isPiece_param : ∀ param ∈ params, IsPiece ',' param

namespace SubsigParts

/-- The parts of what stands before and behind the first parenthesis. -/
def ofCut (head params : List Char) (h : '(' ∉ head) : SubsigParts where
  words := Text.words head
  params := paramPieces params
  isPiece_word _ := isPiece_of_mem_words h
  isPiece_param _ := isPiece_of_mem_paramPieces

variable (parts : SubsigParts)

def headChars : List Char := Text.joinWith [' '] parts.words

def paramChars : List Char := Text.joinWith [','] parts.params

def chars : List Char := parts.headChars ++ ['('] ++ parts.paramChars ++ [')']

theorem not_mem_headChars : '(' ∉ parts.headChars := by
  intro hmem
  rcases mem_joinWith hmem with hmem | ⟨word, hword, hmem⟩
  · exact absurd hmem (by decide)
  · exact ((parts.isPiece_word word hword).2 _ hmem).2 rfl

/-- There are no blanks around a spelling. -/
theorem trim_chars : Text.trim parts.chars = parts.chars := by
  refine Text.trim_eq_self (fun c hc => ?_) fun c hc => ?_
  · obtain ⟨words, params, hwords, hparams⟩ := parts
    cases words with
    | nil =>
      cases hc
      rfl
    | cons word words =>
      obtain ⟨hne, hchars⟩ := hwords word List.mem_cons_self
      obtain ⟨d, word, rfl⟩ := List.exists_cons_of_ne_nil hne
      obtain ⟨behind, hbehind⟩ := Text.joinWith_cons [' '] (d :: word) words
      rw [chars, headChars, hbehind] at hc
      cases hc
      exact (hchars _ List.mem_cons_self).1
  · rw [chars, List.getLast?_concat] at hc
    cases hc
    rfl

end SubsigParts

/-- **What the canonical spelling of a text is put together from**: the words and the parameters
    around its first parenthesis, without the parentheses at its end. -/
theorem normalChars_cases (text : List Char) :
    ('(' ∉ Text.trim text ∧ normalChars text = Text.trim text) ∨
      ∃ head inner closing, ∃ h : '(' ∉ head,
        Text.trim text = head ++ '(' :: (inner ++ closing) ∧ ')' ∉ inner.getLast? ∧
          (∀ c ∈ closing, c = ')') ∧ normalChars text = (SubsigParts.ofCut head inner h).chars := by
  cases hcut : Text.cutAt '(' (Text.trim text) with
  | none =>
    have hfree := Text.cutAt_eq_none_iff.mp hcut
    exact .inl ⟨hfree, normalChars_of_not_mem hfree⟩
  | some cut =>
    obtain ⟨head, params⟩ := cut
    obtain ⟨htext, hhead⟩ := Text.cutAt_eq_some_iff.mp hcut
    obtain ⟨closing, hclosing, hall⟩ := Text.dropEndWhile_append (· = ')') params
    -- the end of the text has been trimmed
    have htrim : Text.trimEnd params = params := Text.dropEndWhile_eq_self fun c hc => by
      have hlast : c ∈ (Text.trim text).getLast? := by
        rw [htext, List.getLast?_append, List.getLast?_cons, Option.mem_def.mp hc]
        rfl
      exact Text.of_mem_getLast?_dropEndWhile hlast
    refine .inr ⟨head, Text.dropEndWhile (· = ')') params, closing, hhead, ?_, fun hlast => ?_,
      fun c hc => of_decide_eq_true (hall c hc), ?_⟩
    · rw [htext, ← hclosing]
    · exact absurd (Text.of_mem_getLast?_dropEndWhile hlast) (by decide)
    · rw [normalChars_of_cutAt hcut, htrim]
      rfl

/-! ## 3. Spellings of spellings -/

/-- **The spelling closes its parameter list twice.** -/
def Overclosed (spelling : List Char) : Prop :=
  ∃ front, spelling = front ++ [')', ')'] ∧ '(' ∈ front

instance : DecidablePred Overclosed := fun spelling =>
  decidable_of_iff (∃ front ∈ Text.dropBack? [')', ')'] spelling, '(' ∈ front)
    (exists_congr fun _ => and_congr_left fun _ => Text.dropBack?_eq_some_iff)

/-- **A closing parenthesis strays from the end of the text**: blanks or commas stand behind it, and
    then at most other closing parentheses. -/
def StraysClosing (text : List Char) : Prop :=
  ∃ before gap closing, Text.trim text = before ++ ')' :: (gap ++ closing) ∧ '(' ∈ before ∧
    gap ≠ [] ∧ (∀ c ∈ gap, isGap c = true) ∧ ∀ c ∈ closing, c = ')'

namespace SubsigParts

variable (parts : SubsigParts)

/-- A spelling closes its list twice when its last parameter ends with a parenthesis. -/
theorem overclosed_chars_iff : Overclosed parts.chars ↔ ')' ∈ parts.paramChars.getLast? := by
  constructor
  · rintro ⟨front, hfront, -⟩
    have hdropped : parts.headChars ++ ['('] ++ parts.paramChars = front ++ [')'] :=
      List.append_cancel_right (hfront.trans (List.append_assoc front [')'] [')']).symm)
    have hlast := congrArg List.getLast? hdropped
    rw [List.getLast?_concat, List.getLast?_append] at hlast
    cases hparams : parts.paramChars.getLast? with
    | none =>
      rw [hparams, List.getLast?_concat] at hlast
      cases hlast
    | some c =>
      rw [hparams] at hlast
      exact hlast
  · intro hlast
    obtain ⟨inner, hinner⟩ := List.getLast?_eq_some_iff.mp hlast
    exact ⟨parts.headChars ++ ['('] ++ inner, by simp [chars, hinner], by simp⟩

/-- A spelling is taken apart into its parts, without the parentheses at its end. -/
theorem normalChars_chars : normalChars parts.chars = parts.headChars ++ ['('] ++
    Text.joinWith [','] (paramPieces (Text.dropEndWhile (· = ')') parts.paramChars)) ++ [')'] := by
  have hcut : Text.cutAt '(' (Text.trim parts.chars) =
      some (parts.headChars, parts.paramChars ++ [')']) := by
    rw [trim_chars]
    exact Text.cutAt_eq_some_iff.mpr ⟨by simp [chars], parts.not_mem_headChars⟩
  have hend : Text.trimEnd (parts.paramChars ++ [')']) = parts.paramChars ++ [')'] :=
    Text.dropEndWhile_concat _ (by decide)
  have hwords : Text.words parts.headChars = parts.words := Text.words_joinWith parts.isPiece_word
  rw [normalChars_of_cutAt hcut, hend, hwords, Text.dropEndWhile_append_of_all _ (by simp)]
  rfl

/-- **A spelling lasts unless it closes its list twice.** -/
theorem normalChars_eq_self_iff : normalChars parts.chars = parts.chars ↔
    ¬ Overclosed parts.chars := by
  rw [normalChars_chars, overclosed_chars_iff]
  constructor
  · intro hsame hlast
    obtain ⟨closing, hclosing, hall⟩ := Text.dropEndWhile_append (· = ')') parts.paramChars
    have hparams := List.append_cancel_left (List.append_cancel_right hsame)
    -- the parentheses that were dropped are not put back
    have hkept := filter_joinWith_paramPieces (Text.dropEndWhile (· = ')') parts.paramChars)
    rw [hparams] at hkept
    conv_lhs at hkept => rw [hclosing, List.filter_append]
    have hnone : ∀ c ∈ closing, isGap c = true := by
      simpa using List.filter_eq_nil_iff.mp (List.append_right_eq_self.mp hkept)
    cases closing with
    | nil =>
      rw [List.append_nil] at hclosing
      rw [hclosing] at hlast
      exact absurd (Text.of_mem_getLast?_dropEndWhile hlast) (by decide)
    | cons c closing =>
      have hc : c = ')' := of_decide_eq_true (hall c List.mem_cons_self)
      have hgap := hnone c List.mem_cons_self
      rw [hc] at hgap
      exact absurd hgap (by decide)
  · intro hlast
    have hkept : Text.dropEndWhile (· = ')') parts.paramChars = parts.paramChars :=
      Text.dropEndWhile_eq_self fun c hc => decide_eq_false fun heq => hlast (heq ▸ hc)
    rw [hkept, paramChars, paramPieces_joinWith parts.isPiece_param]
    rfl

end SubsigParts

theorem normalChars_normalChars_iff (text : List Char) :
    normalChars (normalChars text) = normalChars text ↔ ¬ Overclosed (normalChars text) := by
  rcases normalChars_cases text with ⟨hfree, hspelling⟩ | ⟨_, _, _, _, -, -, -, hspelling⟩
  · rw [hspelling]
    refine iff_of_true ?_ ?_
    · rw [normalChars_of_not_mem (by rwa [Text.trim_trim]), Text.trim_trim]
    · rintro ⟨front, htext, hopen⟩
      exact hfree (htext ▸ List.mem_append_left _ hopen)
  · rw [hspelling]
    exact SubsigParts.normalChars_eq_self_iff _

/-- The last character that is kept of a text. -/
theorem mem_getLast?_filter_iff {q : Char → Bool} {cs : List Char} {c : Char} :
    c ∈ (cs.filter q).getLast? ↔
      q c = true ∧ ∃ before after, cs = before ++ c :: after ∧ ∀ d ∈ after, q d = false := by
  rw [Option.mem_def, ← List.head?_reverse, ← List.filter_reverse, List.head?_filter,
    List.find?_eq_some_iff_append]
  refine and_congr_right fun _ => ⟨?_, ?_⟩
  · rintro ⟨after, before, hcs, hafter⟩
    refine ⟨before.reverse, after.reverse, ?_, fun d hd => ?_⟩
    · rw [← List.reverse_reverse cs, hcs]
      simp
    · simpa using hafter d (List.mem_reverse.mp hd)
  · rintro ⟨before, after, rfl, hafter⟩
    exact ⟨after.reverse, before.reverse, by simp, fun d hd => by
      simp [hafter d (List.mem_reverse.mp hd)]⟩

/-- In a text with a parameter list a closing parenthesis strays when only a gap stands behind it in
    the list. -/
theorem straysClosing_iff {text head inner closing : List Char}
    (htext : Text.trim text = head ++ '(' :: (inner ++ closing)) (hhead : '(' ∉ head)
    (hinner : ')' ∉ inner.getLast?) (hclosing : ∀ c ∈ closing, c = ')') :
    StraysClosing text ↔ ∃ front gap, inner = front ++ ')' :: gap ∧ ∀ c ∈ gap, isGap c = true := by
  constructor
  · rintro ⟨before, gap, closing', htext', hopen, hne, hgap, hclosing'⟩
    obtain ⟨head', front, rfl, hhead'⟩ := List.eq_append_cons_of_mem hopen
    -- both cuts are at the first parenthesis
    have hcut : some (head', front ++ ')' :: (gap ++ closing')) =
        some (head, inner ++ closing) := by
      rw [← Text.cutAt_eq_some_iff.mpr ⟨htext, hhead⟩]
      exact (Text.cutAt_eq_some_iff.mpr ⟨by rw [htext']; simp, hhead'⟩).symm
    obtain ⟨-, hsame⟩ := Prod.mk.inj (Option.some.inj hcut)
    have hlast : ')' ∉ (front ++ ')' :: gap).getLast? := fun hmem => by
      obtain ⟨gap, d, rfl⟩ := (List.eq_nil_or_concat' gap).resolve_left hne
      rw [← List.cons_append, ← List.append_assoc, List.getLast?_concat] at hmem
      have hd : d = ')' := Option.some.inj hmem
      have hgap := hgap d (by simp)
      rw [hd] at hgap
      exact absurd hgap (by decide)
    -- and drop the same parentheses from the end
    refine ⟨front, gap, ?_, hgap⟩
    rw [← Text.dropEndWhile_closing hinner hclosing, ← hsame,
      ← Text.dropEndWhile_closing hlast hclosing', List.append_assoc, List.cons_append]
  · rintro ⟨front, gap, rfl, hgap⟩
    refine ⟨head ++ '(' :: front, gap, closing, by simp [htext], by simp, ?_, hgap, hclosing⟩
    rintro rfl
    exact hinner (by simp)

/-- **The texts whose spelling closes its list twice** are those that a closing parenthesis strays
    in. -/
theorem overclosed_normalChars_iff (text : List Char) :
    Overclosed (normalChars text) ↔ StraysClosing text := by
  rcases normalChars_cases text with
    ⟨hfree, hspelling⟩ | ⟨head, inner, closing, hhead, htext, hinner, hclosing, hspelling⟩
  · rw [hspelling]
    refine iff_of_false ?_ ?_
    · rintro ⟨front, hfront, hopen⟩
      exact hfree (hfront ▸ List.mem_append_left _ hopen)
    · rintro ⟨before, gap, closing, htext, hopen, -⟩
      exact hfree (htext ▸ List.mem_append_left _ hopen)
  · -- the last parameter ends with what is kept last of the list
    have hlast : (SubsigParts.ofCut head inner hhead).paramChars.getLast? =
        (inner.filter fun c => !isGap c).getLast? :=
      (getLast?_joinWith fun _ => isPiece_of_mem_paramPieces).trans
        (congrArg List.getLast? (filter_joinWith_paramPieces inner))
    have hclose : (!isGap ')') = true := rfl
    rw [hspelling, SubsigParts.overclosed_chars_iff, hlast, mem_getLast?_filter_iff,
      straysClosing_iff htext hhead hinner hclosing]
    simp only [hclose, true_and, Bool.not_eq_false']

instance : DecidablePred StraysClosing := fun text =>
  decidable_of_iff _ (overclosed_normalChars_iff text)

theorem normalSubsig_normalSubsig_iff (text : String) :
    normalSubsig (normalSubsig text) = normalSubsig text ↔
      ¬ Overclosed (normalSubsig text).toList := by
  have hsame : normalSubsig (normalSubsig text) = normalSubsig text ↔
      normalChars (normalChars text.toList) = normalChars text.toList := by
    simp only [normalSubsig, String.toList_ofList, String.ofList_inj]
  rw [hsame, normalChars_normalChars_iff, normalSubsig, String.toList_ofList]

/-! ## 4. Methods that calls name -/

namespace Program

variable {p : Program}

/-- **A method that a call names is found by its printed signature**, unless its subsignature closes
    the parameter list twice. -/
theorem RefKnown.refBySignature?_iff {r : MethodRef} {arity : Nat} (href : p.RefKnown r arity)
    (hp : p.Coherent) : p.refBySignature? (p.refSignature r) = some r ↔
      ¬ Overclosed (p.subsigAt r.subsig).toList := by
  obtain ⟨text, written, -, hcut, hsubsig⟩ := href.written
  have htrim : Text.trim (p.refSignature r).toList =
      '<' :: (signatureChars (p.classAt r.owner).name (p.subsigAt r.subsig) ++ ['>']) := by
    rw [← trim_angled]
    simp [refSignature, signatureChars]
  have hprinted := cutSignature?_printed hcut (p.subsigAt r.subsig)
  have hlasts : normalSubsig (p.subsigAt r.subsig) = p.subsigAt r.subsig ↔
      ¬ Overclosed (p.subsigAt r.subsig).toList := by
    rw [hsubsig]
    exact normalSubsig_normalSubsig_iff written
  rw [refBySignature?_eq_some_iff hp htrim hprinted, normalSubsig_space, ← hlasts]
  constructor
  · rintro ⟨-, -, -, hsame⟩
    exact hsame.symm
  · intro hsame
    exact ⟨href.owner, rfl, href.subsig, hsame.symm⟩

end Program

open Program

/-- **The canonical spelling of a text is its own canonical spelling, unless it closes its parameter
    list twice**, as it does when a closing parenthesis strays in the text. In an accepted program a
    call names a method by such a spelling, and with the same exception the printed signature names
    the same class and subsignature. -/
theorem spelling_lasts_unless_overclosed (text : String) :
    (normalSubsig (normalSubsig text) = normalSubsig text ↔
      ¬ Overclosed (normalSubsig text).toList) ∧
    (Overclosed (normalSubsig text).toList ↔ StraysClosing text.toList) ∧
    ∀ {source : String} {p : Program}, ofSource source = .ok p →
      ∀ {site : Site} {i : Invoke}, p.stmt? site = some (.call i) →
        (∃ written, p.subsigAt i.target.subsig = normalSubsig written) ∧
        (p.subsigAt i.target.subsig = normalSubsig text →
          (p.refBySignature? (p.refSignature i.target) = some i.target ↔
            ¬ StraysClosing text.toList) ∧
          (¬ StraysClosing text.toList → p.methodBySignature? (p.refSignature i.target) =
            p.declaredMethod? i.target.owner i.target.subsig)) := by
  have hstrays : Overclosed (normalSubsig text).toList ↔ StraysClosing text.toList := by
    rw [normalSubsig, String.toList_ofList]
    exact overclosed_normalChars_iff text.toList
  refine ⟨normalSubsig_normalSubsig_iff text, hstrays, fun h site i hcall => ?_⟩
  have hp := filled_of_ofSource h
  obtain ⟨-, href⟩ := (hp.known_of_stmt? hcall).fits
  obtain ⟨_, written, -, -, hwritten⟩ := href.written
  refine ⟨⟨written, hwritten⟩, fun htext => ?_⟩
  have hfound := href.refBySignature?_iff hp.coherent
  rw [htext, hstrays] at hfound
  refine ⟨hfound, fun hlasts => ?_⟩
  rw [methodBySignature?_eq, hfound.mpr hlasts, Option.bind_some]

/-- Two calls of one method. The second signature has a blank between the parentheses at its end. -/
def calledTwice : String :=
  "class A \x7b
    method void f(A[] rows, int n) \x7b return; \x7d
    static method void main(A a, A[] rows, int n) \x7b
      virtualinvoke a.<A: void  f ( A[ ] ,, int, )>(rows, n);
      virtualinvoke a.<A: void f(A[], int) )>(rows, n);
      return;
    \x7d
  \x7d"

set_option maxRecDepth 4000 in
theorem spelling_lasts_unless_overclosed_calledTwice :
    ∃ p i j, ofSource calledTwice = .ok p ∧
      p.stmt? ⟨1, 0⟩ = some (.call i) ∧
      p.subsigAt i.target.subsig = normalSubsig "void  f ( A[ ] ,, int, )" ∧
      ¬ StraysClosing "void  f ( A[ ] ,, int, )".toList ∧
      p.refBySignature? (p.refSignature i.target) = some i.target ∧
      p.methodBySignature? (p.refSignature i.target) = some 0 ∧
      p.stmt? ⟨1, 1⟩ = some (.call j) ∧
      p.subsigAt j.target.subsig = normalSubsig "void f(A[], int) )" ∧
      StraysClosing "void f(A[], int) )".toList ∧
      p.refBySignature? (p.refSignature j.target) ≠ some j.target := by
  obtain ⟨p, hp, h⟩ := exists_of_any_ofSource calledTwice (fun p => decide (
      (∃ i ∈ p.invoke? ⟨1, 0⟩,
        p.subsigAt i.target.subsig = normalSubsig "void  f ( A[ ] ,, int, )" ∧
        p.declaredMethod? i.target.owner i.target.subsig = some 0) ∧
      ∃ j ∈ p.invoke? ⟨1, 1⟩,
        p.subsigAt j.target.subsig = normalSubsig "void f(A[], int) )")) (by
    have htext : calledTwice.toList = _ := String.toList_ofList
    rw [Program.ofSource, lex_eq htext]
    decide +kernel)
  obtain ⟨⟨i, hi, hfirst, hdeclared⟩, j, hj, hsecond⟩ := of_decide_eq_true h
  have hi := invoke?_eq_some_iff.mp hi
  have hj := invoke?_eq_some_iff.mp hj
  have hlasts : ¬ StraysClosing "void  f ( A[ ] ,, int, )".toList := by decide +kernel
  have hstrays : StraysClosing "void f(A[], int) )".toList := by decide +kernel
  obtain ⟨hfound, hmethod⟩ := ((spelling_lasts_unless_overclosed _).2.2 hp hi).2 hfirst
  obtain ⟨hlost, -⟩ := ((spelling_lasts_unless_overclosed _).2.2 hp hj).2 hsecond
  exact ⟨p, i, j, hp, hi, hfirst, hlasts, hfound.mpr hlasts, (hmethod hlasts).trans hdeclared, hj,
    hsecond, hstrays, fun hsame => hlost.mp hsame hstrays⟩

set_option maxRecDepth 4000 in
/-- A spelling that does not last. No method is declared under it, but its printed signature finds
    one. -/
theorem overclosed_names_another :
    normalSubsig (normalSubsig "void f(A[], int) )") ≠ normalSubsig "void f(A[], int) )" ∧
    ∃ p j, ofSource calledTwice = .ok p ∧ p.stmt? ⟨1, 1⟩ = some (.call j) ∧
      p.subsigAt j.target.subsig = normalSubsig "void f(A[], int) )" ∧
      p.declaredMethod? j.target.owner j.target.subsig = none ∧
      p.methodBySignature? (p.refSignature j.target) = some 0 := by
  refine ⟨by decide +kernel, ?_⟩
  obtain ⟨p, hp, h⟩ := exists_of_any_ofSource calledTwice (fun p => decide (
      ∃ j ∈ p.invoke? ⟨1, 1⟩, p.subsigAt j.target.subsig = normalSubsig "void f(A[], int) )" ∧
        p.declaredMethod? j.target.owner j.target.subsig = none ∧
        p.methodBySignature? (p.refSignature j.target) = some 0)) (by
    have htext : calledTwice.toList = _ := String.toList_ofList
    rw [Program.ofSource, lex_eq htext]
    decide +kernel)
  obtain ⟨j, hj, h⟩ := of_decide_eq_true h
  exact ⟨p, j, hp, invoke?_eq_some_iff.mp hj, h⟩

end ObjectFlow
