/-
  File:      ObjectFlow/Proofs/Program/Naming.lean
  Subject:   METHODS AND TYPES ARE FOUND BY THEIR NAMES, however the names are spaced.

  * `Padded`, `Listed`, `Program.Respaced`: a word, a parameter list and a full signature with
    blanks added where they do not matter;
  * `normalChars_respaced`: the canonical spelling takes them out again;
  * `Program.refBySignature?`: the class and the subsignature that a full signature names;
  * `Program.Occurs`: the types in the declarations, variables and statements of a program;
  * `names_are_invertible`: in an accepted program a method is found by its signature, and a type
    that occurs by its name.
-/
import ObjectFlow.Proofs.Program.Signatures
import ObjectFlow.Proofs.Program.WellFormed
import ObjectFlow.Proofs.Token.Writing

namespace ObjectFlow

/-! ## 1. White space -/

def IsBlanks (cs : List Char) : Prop := ∀ c ∈ cs, Text.isBlank c = true

/-- The word with blanks around it. -/
def Padded (word text : List Char) : Prop :=
  ∃ before after, IsBlanks before ∧ IsBlanks after ∧ text = before ++ word ++ after

/-- The words, blanks around each, with commas between them. -/
inductive Listed : List (List Char) → List Char → Prop
  | nil {text : List Char} (h : IsBlanks text) : Listed [] text
  | pieces {word : List Char} {words pieces : List (List Char)}
      (h : List.Forall₂ Padded (word :: words) pieces) :
      Listed (word :: words) ([','].intercalate pieces)

theorem Padded.refl (word : List Char) : Padded word word :=
  ⟨[], [], nofun, nofun, (List.append_nil word).symm⟩

theorem Listed.refl (words : List (List Char)) : Listed words ([','].intercalate words) := by
  cases words with
  | nil => exact .nil nofun
  | cons word words => exact .pieces (List.forall₂_same.mpr fun w _ => .refl w)

theorem Padded.mem_cases {word text : List Char} (h : Padded word text) {c : Char} (hc : c ∈ text) :
    Text.isBlank c = true ∨ c ∈ word := by
  obtain ⟨before, after, hbefore, hafter, rfl⟩ := h
  rcases List.mem_append.mp hc with hc | hc
  · rcases List.mem_append.mp hc with hc | hc
    · exact .inl (hbefore c hc)
    · exact .inr hc
  · exact .inl (hafter c hc)

namespace Text

/-- Trimming takes away what was put around. -/
theorem trim_padded {word text : List Char} (h : Padded word text) : trim text = trim word := by
  obtain ⟨before, after, hbefore, hafter, rfl⟩ := h
  rw [trim, trim, trimStart, trimStart, List.append_assoc, List.dropWhile_append_of_pos hbefore,
    List.dropWhile_append]
  split
  · rename_i hempty
    rw [List.isEmpty_iff.mp hempty, List.dropWhile_eq_nil_iff.mpr fun c hc => hafter c hc]
  · exact dropEndWhile_append_of_all _ hafter

/-- A text with no blanks at its ends stays. -/
theorem trim_eq_self {cs : List Char} (hfirst : ∀ c ∈ cs.head?, isBlank c = false)
    (hlast : ∀ c ∈ cs.getLast?, isBlank c = false) : trim cs = cs := by
  rw [trim_eq_trimEnd hfirst]
  exact dropEndWhile_eq_self hlast

theorem joinWith_eq_intercalate (sep : List Char) (pieces : List (List Char)) :
    joinWith sep pieces = sep.intercalate pieces := by
  fun_induction joinWith sep pieces with
  | case1 => rfl
  | case2 piece => rw [List.intercalate_singleton]
  | case3 piece rest hne ih =>
    cases rest with
    | nil => exact absurd rfl hne
    | cons next rest => rw [ih, List.intercalate_cons_cons]

/-- Blanks in front of a word are passed over. -/
theorem wordsFrom_blanks {before : List Char} (h : IsBlanks before) (rest : List Char) :
    wordsFrom [] (before ++ rest) = wordsFrom [] rest := by
  induction before with
  | nil => rfl
  | cons c before ih =>
    rw [List.cons_append, wordsFrom, if_pos (h c List.mem_cons_self)]
    exact ih fun d hd => h d (List.mem_cons_of_mem c hd)

/-- The characters of a word are gathered. -/
theorem wordsFrom_word {word : List Char} (h : ∀ c ∈ word, isBlank c = false)
    (front rest : List Char) : wordsFrom front (word ++ rest) = wordsFrom (front ++ word) rest := by
  induction word generalizing front with
  | nil => rw [List.nil_append, List.append_nil]
  | cons c word ih =>
    rw [List.cons_append, wordsFrom, if_neg (by simp [h c List.mem_cons_self]),
      ih fun d hd => h d (List.mem_cons_of_mem c hd), List.append_assoc]
    rfl

/-- A word ends with the first blank behind it. -/
theorem words_cons {word : List Char} (hne : word ≠ []) (h : ∀ c ∈ word, isBlank c = false)
    {before gap : List Char} (hbefore : IsBlanks before) (hgap : IsBlanks gap) (hsome : gap ≠ [])
    (rest : List Char) : words (before ++ word ++ gap ++ rest) = word :: words rest := by
  obtain ⟨c, gap, rfl⟩ := List.exists_cons_of_ne_nil hsome
  rw [words, List.append_assoc, List.append_assoc, wordsFrom_blanks hbefore, wordsFrom_word h,
    List.nil_append, List.cons_append, wordsFrom, if_pos (hgap c List.mem_cons_self),
    if_neg (by simpa using hne), words,
    wordsFrom_blanks fun d hd => hgap d (List.mem_cons_of_mem c hd)]

/-- The last word may end with the text. -/
theorem words_singleton {word text : List Char} (hne : word ≠ [])
    (h : ∀ c ∈ word, isBlank c = false) (htext : Padded word text) : words text = [word] := by
  obtain ⟨before, after, hbefore, hafter, rfl⟩ := htext
  cases after with
  | nil =>
    rw [words, List.append_nil, wordsFrom_blanks hbefore]
    have hword := wordsFrom_word h [] []
    rw [List.append_nil, List.nil_append, wordsFrom, if_neg (by simpa using hne)] at hword
    exact hword
  | cons c after =>
    have hwords := words_cons hne h hbefore hafter (List.cons_ne_nil c after) []
    rwa [List.append_nil] at hwords

end Text

/-! ## 2. Types -/

theorem Prim.isWordChar (t : Prim) : ∀ c ∈ t.name.toList, isWordChar c = true := by
  apply List.all_eq_true.mp
  cases t <;> decide

theorem Prim.ofName?_name (t : Prim) : ofName? t.name = some t := by
  cases t <;> decide

/-- A name is not the name of a built-in type. -/
theorem IsName.ofName? {name : String} (h : IsName name) : Prim.ofName? name = none := by
  rcases h with h | ⟨-, hfree⟩
  · have hall : ∀ n ∈ initializerNames, Prim.ofName? n = none := by decide
    exact hall name h
  · refine List.find?_eq_none.mpr fun t ht hname => ?_
    have hkeyword := List.find?_eq_none.mp hfree (.prim t) (Keyword.prim t).mem_all
    exact hkeyword hname

namespace Program

variable {p : Program}

theorem trim_tyName {ty : Ty} (h : ty.Known p) :
    Text.trim (p.tyName ty).toList = (p.tyName ty).toList :=
  Text.trim_eq_self
    (fun _ hc => isBlank_of_isTypeChar (isTypeChar_tyName h (List.mem_of_mem_head? hc)))
    fun _ hc => isBlank_of_isTypeChar (isTypeChar_tyName h (List.mem_of_mem_getLast? hc))

/-- Without a bracket at its end a text names no array. -/
theorem dropBack?_brackets {cs : List Char} (h : ']' ∉ cs) :
    Text.dropBack? ['[', ']'] cs = none := by
  cases hback : Text.dropBack? ['[', ']'] cs with
  | none => rfl
  | some rest =>
    rw [Text.dropBack?_eq_some_iff.mp hback] at h
    exact absurd (List.mem_append_right _ (by decide)) h

/-- **A type is found by its name**, with blanks around it. The induction is on the type: each pair
    of brackets is taken off the name. -/
theorem tyByChars?_tyName (hp : p.NamesDistinct) {ty : Ty} (h : ty.Known p) {depth : Nat}
    (hdepth : (p.tyName ty).toList.length < depth) {text : List Char}
    (htext : Padded (p.tyName ty).toList text) : p.tyByChars? depth text = some ty := by
  induction ty generalizing depth text with
  | prim t =>
    obtain ⟨depth, rfl⟩ := Nat.exists_eq_add_one_of_ne_zero (Nat.ne_zero_of_lt hdepth)
    have hbracket : ']' ∉ t.name.toList := fun hmem => absurd (t.isWordChar _ hmem) (by decide)
    have htrim : Text.trim text = t.name.toList := (Text.trim_padded htext).trans (trim_tyName h)
    rw [tyByChars?, htrim, dropBack?_brackets hbracket]
    dsimp only
    rw [String.ofList_toList, plainTy?, t.ofName?_name]
  | object c =>
    obtain ⟨depth, rfl⟩ := Nat.exists_eq_add_one_of_ne_zero (Nat.ne_zero_of_lt hdepth)
    have hbracket : ']' ∉ (p.classAt c).name.toList := fun hmem => by
      rcases h.2.mem_cases hmem with hword | heq | heq
      · exact absurd hword (by decide)
      · exact absurd heq (by decide)
      · exact absurd heq (by decide)
    have htrim : Text.trim text = (p.classAt c).name.toList :=
      (Text.trim_padded htext).trans (trim_tyName h)
    rw [tyByChars?, htrim, dropBack?_brackets hbracket]
    dsimp only
    rw [String.ofList_toList, plainTy?, h.2.ofName?, hp.classByName?_eq_some_iff.mpr ⟨h.1, rfl⟩]
    rfl
  | array elem ih =>
    obtain ⟨depth, rfl⟩ := Nat.exists_eq_add_one_of_ne_zero (Nat.ne_zero_of_lt hdepth)
    have hname : (p.tyName elem.array).toList = (p.tyName elem).toList ++ ['[', ']'] :=
      String.toList_append
    have htrim : Text.trim text = (p.tyName elem).toList ++ ['[', ']'] :=
      (Text.trim_padded htext).trans ((trim_tyName h).trans hname)
    have hlength : (p.tyName elem).toList.length < depth := by
      rw [hname, List.length_append] at hdepth
      simp only [List.length_cons, List.length_nil] at hdepth
      omega
    rw [tyByChars?, htrim, Text.dropBack?_eq_some_iff.mpr rfl]
    dsimp only
    rw [ih h hlength (.refl _)]
    rfl

theorem tyByName?_padded (hp : p.NamesDistinct) {ty : Ty} (h : ty.Known p) {text : String}
    (htext : Padded (p.tyName ty).toList text.toList) : p.tyByName? text = some ty := by
  refine tyByChars?_tyName hp h ?_ htext
  obtain ⟨before, after, -, -, heq⟩ := htext
  rw [heq, List.length_append, List.length_append]
  omega

end Program

/-- The types that a statement names. -/
def StmtOf.types {τ : Type} : StmtOf τ → List Ty
  | alloc _ ty _ => [ty]
  | assign _ (.cast ty _) => [ty]
  | _ => []

/-- **The type occurs in the program**: it is a class that is declared, extended or implemented, or
    the type of a field, a parameter, a result or a variable, or a statement names it. -/
inductive Program.Occurs (p : Program) : Ty → Prop
  | declared {c : ClassId} (hc : c < p.classes.size) (h : (p.classAt c).isPhantom = false) :
      p.Occurs (.object c)
  | superClass {c d : ClassId} (hc : c < p.classes.size) (h : d ∈ (p.classAt c).superClass) :
      p.Occurs (.object d)
  | interface {c d : ClassId} (hc : c < p.classes.size) (h : d ∈ (p.classAt c).interfaces) :
      p.Occurs (.object d)
  | field {f : FieldId} (hf : f < p.fields.size) : p.Occurs (p.fieldAt f).ty
  | param {m : MethodId} (hm : m < p.methods.size) {ty : Ty} (h : ty ∈ (p.methodAt m).paramTypes) :
      p.Occurs ty
  | result {m : MethodId} (hm : m < p.methods.size) : p.Occurs (p.methodAt m).retType
  | variable {v : VarId} (hv : v < p.vars.size) : p.Occurs (p.varAt v).ty
  | statement {site : Site} {stmt : Stmt} (hstmt : p.stmt? site = some stmt) {ty : Ty}
      (h : ty ∈ stmt.types) : p.Occurs ty

/-- Every type that occurs can be written. -/
theorem Program.Filled.known_of_occurs {p : Program} (hp : p.Filled) {ty : Ty} (h : p.Occurs ty) :
    ty.Known p := by
  cases h with
  | declared hc h => exact ⟨hc, (hp.coherent.classes _ hc).declared h⟩
  | superClass hc h => exact (hp.coherent.classes _ hc).superClass _ h
  | interface hc h => exact (hp.coherent.classes _ hc).interfaces _ h
  | field hf => exact (hp.coherent.fields _ hf).ty
  | param hm h => exact (hp.coherent.methods _ hm).paramTypes _ h
  | result hm => exact (hp.coherent.methods _ hm).retType
  | «variable» hv => exact (hp.coherent.vars _ hv).ty
  | statement hstmt h =>
    have hfits := (hp.known_of_stmt? hstmt).fits
    rename_i stmt
    cases stmt with
    | alloc lhs ty' length =>
      rw [List.mem_singleton.mp h]
      exact hfits.1
    | assign lhs rhs =>
      cases rhs with
      | cast ty' v =>
        rw [List.mem_singleton.mp h]
        exact hfits
      | _ => exact absurd h List.not_mem_nil
    | _ => exact absurd h List.not_mem_nil

/-! ## 3. Subsignatures -/

/-- A subsignature with blanks added: around the result type, around the name, with at least one
    between these two, around each parameter type, and behind the parameters. -/
def RespacedSubsig (result name : List Char) (params : List (List Char)) (text : List Char) :
    Prop :=
  ∃ result' blank name' params' after, Padded result result' ∧ Text.isBlank blank = true ∧
    Padded name name' ∧ Listed params params' ∧ IsBlanks after ∧
    text = result' ++ blank :: (name' ++ '(' :: (params' ++ ')' :: after))

/-- The characters of names and types, of which there is at least one. -/
def IsVisible (word : List Char) : Prop := word ≠ [] ∧ ∀ c ∈ word, isTypeChar c = true

namespace IsVisible

variable {word text : List Char}

theorem isBlank (h : IsVisible word) : ∀ c ∈ word, Text.isBlank c = false := fun c hc =>
  isBlank_of_isTypeChar (h.2 c hc)

/-- No other character gets into a text by padding. -/
theorem not_mem (h : IsVisible word) (htext : Padded word text) {c : Char}
    (hc : isTypeChar c = false) (hblank : Text.isBlank c = false) : c ∉ text := by
  intro hmem
  rcases htext.mem_cases hmem with hmem | hmem
  · rw [hblank] at hmem
    cases hmem
  · rw [h.2 c hmem] at hc
    cases hc

/-- Without its blanks a padded word is the word. -/
theorem filter_padded (h : IsVisible word) (htext : Padded word text) :
    (text.filter fun c => !Text.isBlank c) = word := by
  obtain ⟨before, after, hbefore, hafter, rfl⟩ := htext
  have hnone : ∀ {cs : List Char}, IsBlanks cs → (cs.filter fun c => !Text.isBlank c) = [] :=
    fun hcs => List.filter_eq_nil_iff.mpr fun c hc => by simp [hcs c hc]
  have hall : (word.filter fun c => !Text.isBlank c) = word :=
    List.filter_eq_self.mpr fun c hc => by simp [h.isBlank c hc]
  rw [List.filter_append, List.filter_append, hnone hbefore, hnone hafter, hall, List.nil_append,
    List.append_nil]

end IsVisible

/-- Padded words are found again when the commas between them and the blanks are taken out. -/
theorem filter_pieces {words pieces : List (List Char)} (h : List.Forall₂ Padded words pieces)
    (hwords : ∀ word ∈ words, IsVisible word) :
    (∀ c, isTypeChar c = false → Text.isBlank c = false → ∀ piece ∈ pieces, c ∉ piece) ∧
      pieces.map (fun piece => piece.filter fun c => !Text.isBlank c) = words := by
  induction h with
  | nil => exact ⟨fun _ _ _ _ hpiece => absurd hpiece List.not_mem_nil, rfl⟩
  | @cons word piece words pieces hpiece _ ih =>
    obtain ⟨hword, hwords⟩ := List.forall_mem_cons.mp hwords
    obtain ⟨hfree, hmap⟩ := ih hwords
    refine ⟨fun c hc hblank => List.forall_mem_cons.mpr ⟨hword.not_mem hpiece hc hblank,
      hfree c hc hblank⟩, ?_⟩
    rw [List.map_cons, hword.filter_padded hpiece, hmap]

/-- The pieces of a parameter list, without their blanks, are its types. -/
theorem pieces_of_listed {params : List (List Char)} {text : List Char} (h : Listed params text)
    (hparams : ∀ param ∈ params, IsVisible param) : paramPieces text = params := by
  cases h with
  | nil hblank =>
    have hcomma : ',' ∉ text := fun hmem => absurd (hblank _ hmem) (by decide)
    have hnone : (text.filter fun c => !Text.isBlank c) = [] :=
      List.filter_eq_nil_iff.mpr fun c hc => by simp [hblank c hc]
    rw [paramPieces, Text.splitAll_of_not_mem hcomma, List.map_singleton, hnone]
    rfl
  | pieces hpieces =>
    obtain ⟨hfree, hmap⟩ := filter_pieces hpieces hparams
    rw [paramPieces, Text.splitAll_intercalate (by rintro rfl; cases hpieces) (hfree ',' rfl rfl),
      hmap,
      List.filter_eq_self.mpr fun param hparam => by simpa using (hparams param hparam).1]

/-- No parenthesis gets into a parameter list. -/
theorem not_mem_of_listed {params : List (List Char)} {text : List Char} (h : Listed params text)
    (hparams : ∀ param ∈ params, IsVisible param) : ')' ∉ text := by
  cases h with
  | nil hblank => exact fun hmem => absurd (hblank _ hmem) (by decide)
  | @pieces word words pieces hpieces =>
    intro hmem
    rw [← Text.joinWith_eq_intercalate] at hmem
    rcases mem_joinWith hmem with hmem | ⟨piece, hpiece, hmem⟩
    · exact absurd hmem (by decide)
    · exact (filter_pieces hpieces hparams).1 ')' rfl rfl piece hpiece hmem

/-- **The canonical spelling takes added blanks out again.** -/
theorem normalChars_respaced {result name : List Char} {params : List (List Char)}
    {text : List Char} (h : RespacedSubsig result name params text) (hresult : IsVisible result)
    (hname : IsVisible name) (hparams : ∀ param ∈ params, IsVisible param) :
    normalChars text =
      result ++ [' '] ++ name ++ ['('] ++ [','].intercalate params ++ [')'] := by
  obtain ⟨_, blank, name', params', after, ⟨before, behind, hbefore, hbehind, rfl⟩, hblank,
    hpadded, hlisted, hafter, rfl⟩ := h
  -- without the blanks at its ends, the text starts with the result and ends with a parenthesis
  have htrim : Text.trim (before ++ result ++ behind ++
      blank :: (name' ++ '(' :: (params' ++ ')' :: after))) =
        (result ++ behind ++ blank :: name') ++ '(' :: (params' ++ [')']) := by
    have hcore : Padded ((result ++ behind ++ blank :: name') ++ '(' :: (params' ++ [')']))
        (before ++ result ++ behind ++ blank :: (name' ++ '(' :: (params' ++ ')' :: after))) :=
      ⟨before, after, hbefore, hafter, by simp⟩
    refine (Text.trim_padded hcore).trans (Text.trim_eq_self (fun c hc => ?_) fun c hc => ?_)
    · obtain ⟨d, rest, rfl⟩ := List.exists_cons_of_ne_nil hresult.1
      cases hc
      exact hresult.isBlank c List.mem_cons_self
    · rw [← List.cons_append, ← List.append_assoc, List.getLast?_concat] at hc
      cases hc
      rfl
  have hhead : '(' ∉ result ++ behind ++ blank :: name' := by
    intro hmem
    rcases List.mem_append.mp hmem with hmem | hmem
    · rcases List.mem_append.mp hmem with hmem | hmem
      · exact absurd (hresult.2 _ hmem) (by decide)
      · exact absurd (hbehind _ hmem) (by decide)
    · rcases List.mem_cons.mp hmem with rfl | hmem
      · exact absurd hblank (by decide)
      · exact hname.not_mem hpadded rfl rfl hmem
  have hcut := Text.cutAt_eq_some_iff.mpr ⟨htrim, hhead⟩
  have hlast : Text.dropEndWhile (· = ')') (Text.trimEnd (params' ++ [')'])) = params' := by
    have hfree : ∀ c ∈ params'.getLast?, decide (c = ')') = false := fun c hc =>
      decide_eq_false fun heq =>
        not_mem_of_listed hlisted hparams (heq ▸ List.mem_of_mem_getLast? hc)
    have hkept : Text.trimEnd (params' ++ [')']) = params' ++ [')'] :=
      Text.dropEndWhile_concat params' (by decide)
    rw [hkept, Text.dropEndWhile_append_of_all params' (by simp), Text.dropEndWhile_eq_self hfree]
  have hwords : Text.words (result ++ behind ++ blank :: name') = [result, name] := by
    have hgap : IsBlanks (behind ++ [blank]) := fun c hc => by
      rcases List.mem_append.mp hc with hc | hc
      · exact hbehind c hc
      · rw [List.mem_singleton.mp hc]
        exact hblank
    have hnone : IsBlanks [] := fun _ h => absurd h List.not_mem_nil
    have hfirst := Text.words_cons hresult.1 hresult.isBlank hnone hgap (by simp) name'
    rw [Text.words_singleton hname.1 hname.isBlank hpadded] at hfirst
    simpa using hfirst
  rw [normalChars_of_cutAt hcut, hlast, hwords, pieces_of_listed hlisted hparams, Text.joinWith_eq_intercalate,
    Text.joinWith_eq_intercalate, List.intercalate_cons_cons, List.intercalate_singleton]

/-! ## 4. Signatures -/

namespace Program

variable {p : Program}

theorem isVisible_tyName {ty : Ty} (h : ty.Known p) : IsVisible (p.tyName ty).toList :=
  ⟨tyName_ne_nil h, fun _ hc => isTypeChar_tyName h hc⟩

theorem isVisible_name {name : String} (h : IsName name) : IsVisible name.toList :=
  ⟨h.ne_nil, fun _ hc => h.isTypeChar hc⟩

/-- **The text is the signature of the method with white space added**: around the whole text,
    around the class and the colon behind it, and in the subsignature. -/
def Respaced (p : Program) (m : MethodId) (text : String) : Prop :=
  ∃ owner subsig, Padded (p.classAt (p.methodAt m).owner).name.toList owner ∧
    RespacedSubsig (p.tyName (p.methodAt m).retType).toList (p.methodAt m).name.toList
      ((p.methodAt m).paramTypes.map fun ty => (p.tyName ty).toList) subsig ∧
    Padded ('<' :: (owner ++ ':' :: (subsig ++ ['>']))) text.toList

/-- The class and the subsignature that a full signature names. -/
def refBySignature? (p : Program) (text : String) : Option MethodRef := do
  let inner ← Text.dropBack? ['>'] (← Text.dropFront? ['<'] (Text.trim text.toList))
  let (owner, subsig) ← cutSignature? inner
  let c ← p.classByName? owner
  let s ← p.subsigByText? (normalSubsig subsig)
  return ⟨c, s⟩

/-- A method is looked up as what its signature names. -/
theorem methodBySignature?_eq (text : String) : p.methodBySignature? text =
    (p.refBySignature? text).bind fun r => p.declaredMethod? r.owner r.subsig := by
  simp [methodBySignature?, refBySignature?, Option.bind_assoc]

theorem trim_angled (inner : List Char) :
    Text.trim ('<' :: (inner ++ ['>'])) = '<' :: (inner ++ ['>']) := by
  refine Text.trim_eq_self (fun c hc => ?_) fun c hc => ?_
  · cases hc
    rfl
  · rw [← List.cons_append, List.getLast?_concat] at hc
    cases hc
    rfl

/-- **What a signature names** has the name of the class in front of its first colon and the
    canonical spelling of what stands behind. -/
theorem refBySignature?_eq_some_iff (hp : p.Coherent) {text : String} {inner : List Char}
    {owner subsig : String} (htrim : Text.trim text.toList = '<' :: (inner ++ ['>']))
    (hcut : cutSignature? inner = some (owner, subsig)) {r : MethodRef} :
    p.refBySignature? text = some r ↔
      r.owner < p.classes.size ∧ (p.classAt r.owner).name = owner ∧
        r.subsig < p.subsigs.size ∧ p.subsigAt r.subsig = normalSubsig subsig := by
  have hfront : Text.dropFront? ['<'] ('<' :: (inner ++ ['>'])) = some (inner ++ ['>']) :=
    Text.dropFront?_eq_some_iff.mpr rfl
  have hback : Text.dropBack? ['>'] (inner ++ ['>']) = some inner :=
    Text.dropBack?_eq_some_iff.mpr rfl
  have hopen : p.refBySignature? text = (p.classByName? owner).bind fun c =>
      (p.subsigByText? (normalSubsig subsig)).bind fun s => some ⟨c, s⟩ := by
    simp only [refBySignature?, Option.bind_eq_bind, Option.bind_some, htrim, hfront, hback, hcut]
    rfl
  rw [hopen, Option.bind_eq_some_iff]
  constructor
  · rintro ⟨c, hc, h⟩
    obtain ⟨s, hs, hr⟩ := Option.bind_eq_some_iff.mp h
    cases hr
    obtain ⟨hlt, hname⟩ := hp.names.classByName?_eq_some_iff.mp hc
    exact ⟨hlt, hname, hp.subsigs.subsigByText?_eq_some_iff.mp hs⟩
  · rintro ⟨hlt, hname, hs⟩
    refine ⟨r.owner, hp.names.classByName?_eq_some_iff.mpr ⟨hlt, hname⟩, ?_⟩
    exact Option.bind_eq_some_iff.mpr ⟨r.subsig, hp.subsigs.subsigByText?_eq_some_iff.mpr hs, rfl⟩

section Methods

variable {m : MethodId}

theorem toList_declaredSubsig (p : Program) (result : Ty) (name : String) (params : List Ty) :
    (p.declaredSubsig result name params).toList =
      (p.tyName result).toList ++ [' '] ++ name.toList ++ ['('] ++
        [','].intercalate (params.map fun ty => (p.tyName ty).toList) ++ [')'] := by
  simp [declaredSubsig, String.toList_intercalate, Function.comp_def]

/-- The signature itself is spaced so. -/
theorem respaced_signature (h : p.MethodCoherent m) : p.Respaced m (p.signature m) := by
  have hblank : IsBlanks [' '] := fun c hc => by
    rw [List.mem_singleton.mp hc]
    rfl
  have hresult : Padded (p.tyName (p.methodAt m).retType).toList
      (' ' :: (p.tyName (p.methodAt m).retType).toList) :=
    ⟨[' '], [], hblank, nofun, (List.append_nil _).symm⟩
  refine ⟨_, _, .refl _, ⟨_, ' ', _, _, [], hresult, rfl, .refl _, .refl _, nofun, rfl⟩, ?_⟩
  have htext : (p.signature m).toList = '<' :: ((p.classAt (p.methodAt m).owner).name.toList ++
      ':' :: (' ' :: (p.subsigAt (p.methodAt m).subsig).toList ++ ['>'])) := by
    simp [signature, refSignature]
  rw [htext, h.spelled, toList_declaredSubsig]
  simpa using Padded.refl _

/-- **A method is found by its signature**, with white space added. -/
theorem methodBySignature?_respaced (hp : p.Coherent) (hm : m < p.methods.size) {text : String}
    (h : p.Respaced m text) : p.methodBySignature? text = some m := by
  have hmethod := hp.methods m hm
  obtain ⟨owner, subsig, howner, hsubsig, htext⟩ := h
  have hname := isVisible_name hmethod.owner.2
  -- the whole text
  have hangled : owner ++ ':' :: (subsig ++ ['>']) = owner ++ ':' :: subsig ++ ['>'] := by simp
  have htrim : Text.trim text.toList = '<' :: (owner ++ ':' :: subsig ++ ['>']) := by
    rw [Text.trim_padded htext, hangled, trim_angled]
  have hcut : Text.cutAt ':' (owner ++ ':' :: subsig) = some (owner, subsig) :=
    Text.cutAt_eq_some_iff.mpr ⟨rfl, hname.not_mem howner rfl rfl⟩
  have hcutSignature : cutSignature? (owner ++ ':' :: subsig) =
      some (String.ofList (Text.trim owner), String.ofList subsig) := by
    rw [cutSignature?, hcut]
    rfl
  -- the class
  have hclass : String.ofList (Text.trim owner) = (p.classAt (p.methodAt m).owner).name := by
    have hown : Text.trim (p.classAt (p.methodAt m).owner).name.toList =
        (p.classAt (p.methodAt m).owner).name.toList := @trim_tyName p (.object _) hmethod.owner
    rw [Text.trim_padded howner, hown, String.ofList_toList]
  -- the subsignature
  have hparams : ∀ param ∈ (p.methodAt m).paramTypes.map fun ty => (p.tyName ty).toList,
      IsVisible param := fun param hparam => by
    obtain ⟨ty, hty, rfl⟩ := List.mem_map.mp hparam
    exact isVisible_tyName (hmethod.paramTypes ty hty)
  have hnormal : normalSubsig (String.ofList subsig) = p.subsigAt (p.methodAt m).subsig := by
    rw [normalSubsig, String.toList_ofList, hmethod.spelled,
      normalChars_respaced hsubsig (isVisible_tyName hmethod.retType) (isVisible_name hmethod.name)
        hparams, ← toList_declaredSubsig, String.ofList_toList]
  have hfound : p.refBySignature? text =
      some ⟨(p.methodAt m).owner, (p.methodAt m).subsig⟩ :=
    (refBySignature?_eq_some_iff hp htrim hcutSignature).mpr
      ⟨hmethod.owner.1, hclass.symm, hmethod.subsig, hnormal.symm⟩
  rw [methodBySignature?_eq, hfound]
  exact hmethod.declared

end Methods

/-- **Names are invertible.** In an accepted program every method is found by its signature, and
    every type that occurs by its name; white space that is added changes nothing. -/
theorem names_are_invertible {source : String} {p : Program} (h : ofSource source = .ok p) :
    (∀ m < p.methods.size, p.methodBySignature? (p.signature m) = some m ∧
      p.Respaced m (p.signature m) ∧
      ∀ text, p.Respaced m text → p.methodBySignature? text = some m) ∧
    ∀ ty, p.Occurs ty → p.tyByName? (p.tyName ty) = some ty ∧
      ∀ text : String, Padded (p.tyName ty).toList text.toList → p.tyByName? text = some ty := by
  have hp := filled_of_ofSource h
  refine ⟨fun m hm => ?_, fun ty hty => ?_⟩
  · have hsame := respaced_signature (hp.coherent.methods m hm)
    exact ⟨methodBySignature?_respaced hp.coherent hm hsame, hsame, fun text htext =>
      methodBySignature?_respaced hp.coherent hm htext⟩
  · have hknown := hp.known_of_occurs hty
    exact ⟨tyByName?_padded hp.coherent.names hknown (.refl _), fun text htext =>
      tyByName?_padded hp.coherent.names hknown htext⟩

/-- A class of arrays of itself, whose initializer calls a method of a class that is nowhere
    declared and whose name no token could hold. -/
def nested : String :=
  "class A extends Base \x7b
    field A[][] rows;
    method A[] <init>(int n, A[] row) \x7b
      var A[] copy;
      copy = new A[n];
      staticinvoke <No where: void log( )>();
      return copy;
    \x7d
  \x7d"

set_option maxRecDepth 4000 in
theorem names_are_invertible_nested :
    ∃ p, ofSource nested = .ok p ∧ p.signature 0 = "<A: A[] <init>(int,A[])>" ∧
      p.methodBySignature? (p.signature 0) = some 0 ∧
      p.tyName (p.fieldAt 0).ty = "A[][]" ∧
      p.tyByName? (p.tyName (p.fieldAt 0).ty) = some (p.fieldAt 0).ty ∧
      (p.classByName? "No where").isSome := by
  obtain ⟨p, hp, h⟩ := exists_of_any_ofSource nested (fun p => decide (
      0 < p.methods.size ∧ 0 < p.fields.size ∧ p.signature 0 = "<A: A[] <init>(int,A[])>" ∧
        p.tyName (p.fieldAt 0).ty = "A[][]" ∧ (p.classByName? "No where").isSome)) (by
    have htext : nested.toList = _ := String.toList_ofList
    rw [Program.ofSource, lex_eq htext]
    decide +kernel)
  obtain ⟨hm, hf, hsignature, hname, hphantom⟩ := of_decide_eq_true h
  obtain ⟨hmethods, htypes⟩ := names_are_invertible hp
  exact ⟨p, hp, hsignature, (hmethods 0 hm).1, hname, (htypes _ (.field hf)).1, hphantom⟩

end Program

end ObjectFlow
