/-
  File:      ObjectFlow/Proofs/Program/Reporting.lean
  Subject:   A TEXT IS READ, OR ONE ERROR IS REPORTED.

  A run lexes its text and parses the tokens. Each of the two phases either gives what it is asked
  for and reports nothing, or gives nothing and reports one error. Both end: the lexer passes a
  character at every step, the loops of the parser pass a token at every turn, and the search for a
  field that meets no cycle meets no class twice.

  * `Reader.LoopsEnd`: every loop over tokens ends by itself, with what the reader gives;
  * `Program.Searches`: the search for a field in a class and the classes above it;
  * `lexing_cases`: what the lexer gives and reports, beside `parsing_cases` for the parser;
  * `phases_report_once`: what the two phases give, report and write;
  * `ofSource_phases`: the program of a text, whatever was reported before.
-/
import Mathlib.Data.Finset.Card
import Mathlib.Logic.Relation
import ObjectFlow.Proofs.Program.BodyLookahead
import ObjectFlow.Proofs.Token.Spans

namespace ObjectFlow

/-! ## 1. The loops of the parser -/

namespace Reader

variable {α : Type}

/-- The loop ends, and ends in one way only. -/
def EndsAs (turn : α → Reader (α × Bool)) (a : α) (s : ReaderState)
    (x : Except Diagnostics (α × ReaderState)) : Prop := ∀ y, Loops turn a s y ↔ y = x

theorem Loops.endsAs {turn : α → Reader (α × Bool)} {a : α} {s : ReaderState}
    {x : Except Diagnostics (α × ReaderState)} (h : Loops turn a s x) : EndsAs turn a s x :=
  fun _ => ⟨fun hy => hy.unique h, fun heq => heq ▸ h⟩

/-- **Every loop over the tokens to come ends**, however many turns it takes, with what the reader
    of the loop gives. -/
structure LoopsEnd (s : ReaderState) : Prop where
  classes : EndsAs classTurn [] s (readClasses s.tokens.length s)
  members : ∀ owner, EndsAs (memberTurn owner) [] s (readMembers owner s.tokens.length s)
  classNames : EndsAs (commaTurn readClassName) [] s (commas readClassName s)
  params : EndsAs (commaTurn readParam) [] s (commas readParam s)
  items : ∀ m, EndsAs (itemTurn m) {} s (readItems m s.tokens.length {} s)
  declared : ∀ m ty, EndsAs (commaTurn (readDeclared m ty)) [] s (commas (readDeclared m ty) s)
  arguments : ∀ m, EndsAs (commaTurn (readVar m)) [] s (commas (readVar m) s)
  arms : EndsAs caseTurn [] s (readCases s.tokens.length s)

theorem loopsEnd_of_ended {s : ReaderState} (h : Ended s.tokens) : LoopsEnd s := by
  have hs : RestOf (Stretch.mk s.tokens [] {}).text s.tokens := .self h
  have hcommas : ∀ {β : Type} {item : Reader β}, Advances ⟨s.tokens, [], {}⟩ item (fun _ => True) →
      EndsAs (commaTurn item) [] s (commas item s) :=
    fun hitem => (loops_of_lists (lists_commaList _) (blindTurn_comma hitem) rfl hs
      (Nat.le_refl _)).endsAs
  exact {
    classes := (loops_of_lists lists_readClasses blindTurn_class .nil hs (Nat.le_refl _)).endsAs
    members := fun owner => (loops_of_lists (lists_readMembers owner) (blindTurn_member owner) .nil
      hs (Nat.le_refl _)).endsAs
    classNames := hcommas advances_readClassName
    params := hcommas advances_readParam
    items := fun m => (loops_of_unrolled (unrolls_readItems m) (blindTurn_item m) _
      ⟨rfl, draftIn_empty⟩ hs (Nat.le_refl _)).endsAs
    declared := fun m ty => hcommas (advances_readDeclared m ty)
    arguments := fun m => hcommas (advances_readVar m)
    arms := (loops_of_lists lists_readCases blindTurn_case .nil hs (Nat.le_refl _)).endsAs }

end Reader

/-! ## 2. The search for a field -/

namespace Program

/-- **The search for a field**: the class is looked at, and then the class it extends. -/
inductive Searches (p : Program) (name : String) : ClassId → Option FieldId → Prop
  | found {c : ClassId} {f : FieldId} (h : p.declaredField? c name = some f) :
      Searches p name c (some f)
  | up {c d : ClassId} {x : Option FieldId} (h : p.declaredField? c name = none)
      (hsuper : (p.classAt c).superClass = some d) (hrest : Searches p name d x) :
      Searches p name c x
  | top {c : ClassId} (h : p.declaredField? c name = none)
      (hsuper : (p.classAt c).superClass = none) : Searches p name c none

/-- The search goes on from a class to the class it extends. -/
def Climbs (p : Program) (name : String) (c d : ClassId) : Prop :=
  p.declaredField? c name = none ∧ (p.classAt c).superClass = some d

/-- The search meets no class from which it comes back to that class. -/
def MeetsNoCycle (p : Program) (name : String) (c : ClassId) : Prop :=
  ∀ d, Relation.ReflTransGen (p.Climbs name) c d → ¬ Relation.TransGen (p.Climbs name) d d

variable {p : Program} {name : String} {c d : ClassId}

theorem Searches.unique {x y : Option FieldId} (hx : p.Searches name c x)
    (hy : p.Searches name c y) : x = y := by
  induction hx with
  | found h =>
    cases hy with
    | found h' => exact h.symm.trans h'
    | up h' => cases h.symm.trans h'
    | top h' => cases h.symm.trans h'
  | up h hsuper _ ih =>
    cases hy with
    | found h' => cases h.symm.trans h'
    | up _ hsuper' hrest =>
      cases hsuper.symm.trans hsuper'
      exact ih hrest
    | top _ hsuper' => cases hsuper.symm.trans hsuper'
  | top h hsuper =>
    cases hy with
    | found h' => cases h.symm.trans h'
    | up _ hsuper' => cases hsuper.symm.trans hsuper'
    | top => rfl

theorem MeetsNoCycle.up (h : p.MeetsNoCycle name c) (hstep : p.Climbs name c d) :
    p.MeetsNoCycle name d :=
  fun e he => h e (.head hstep he)

/-- Only a class of the program extends another one. -/
theorem lt_of_superClass (h : (p.classAt c).superClass = some d) : c < p.classes.size := by
  by_contra hout
  have hnone : p.classAt c = default := by simp [classAt, hout]
  rw [hnone] at h
  cases h

open Classical in
/-- The classes of the program that the search from a class comes to. -/
noncomputable def reached (p : Program) (name : String) (c : ClassId) : Finset ClassId :=
  (Finset.range p.classes.size).filter fun d => Relation.ReflTransGen (p.Climbs name) c d

theorem mem_reached : d ∈ p.reached name c ↔
    d < p.classes.size ∧ Relation.ReflTransGen (p.Climbs name) c d := by
  classical
  rw [reached, Finset.mem_filter, Finset.mem_range]

/-- A class that the search leaves is not reached again, so fewer are left to be reached. -/
theorem card_reached_lt (h : p.MeetsNoCycle name c) (hstep : p.Climbs name c d) :
    (p.reached name d).card < (p.reached name c).card := by
  have hc : c ∈ p.reached name c :=
    mem_reached.mpr ⟨lt_of_superClass hstep.2, .refl⟩
  refine Finset.card_lt_card (Finset.ssubset_iff_subset_ne.mpr ⟨fun e he => ?_, fun heq => ?_⟩)
  · obtain ⟨hlt, he⟩ := mem_reached.mp he
    exact mem_reached.mpr ⟨hlt, .head hstep he⟩
  · obtain ⟨-, hback⟩ := mem_reached.mp (heq ▸ hc)
    exact h c .refl (.head' hstep hback)

/-- A chain that is long enough for the classes that are reached is searched to its end. -/
theorem searches_superChain (h : p.MeetsNoCycle name c) {bound : Nat}
    (hbound : (p.reached name c).card ≤ bound) :
    p.Searches name c ((p.superChain bound c).findSome? fun a => p.declaredField? a name) := by
  induction bound generalizing c with
  | zero =>
    -- the class is none of the program, so it declares nothing and extends nothing
    have hout : ¬c < p.classes.size := fun hlt => by
      have hc : c ∈ p.reached name c := mem_reached.mpr ⟨hlt, .refl⟩
      rw [Finset.card_eq_zero.mp (Nat.le_zero.mp hbound)] at hc
      exact absurd hc (Finset.notMem_empty c)
    have hnone : p.classAt c = default := by simp [classAt, hout]
    refine .top ?_ ?_
    · rw [declaredField?, hnone]
      rfl
    · rw [hnone]
      rfl
  | succ bound ih =>
    rw [superChain, List.findSome?_cons]
    cases hfield : p.declaredField? c name with
    | some f => exact .found hfield
    | none =>
      cases hsuper : (p.classAt c).superClass with
      | none => exact .top hfield hsuper
      | some parent =>
        have hstep : p.Climbs name c parent := ⟨hfield, hsuper⟩
        have hless := card_reached_lt h hstep
        exact .up hfield hsuper (ih (h.up hstep) (by omega))

/-- **A search that meets no cycle ends** with the field the name stands for. -/
theorem searches_resolveField? (h : p.MeetsNoCycle name c) :
    p.Searches name c (p.resolveField? c name) := by
  refine searches_superChain h ?_
  calc (p.reached name c).card ≤ (Finset.range p.classes.size).card :=
        Finset.card_le_card fun d hd => Finset.mem_range.mpr (mem_reached.mp hd).1
    _ = p.classes.size := Finset.card_range _

theorem searches_iff (h : p.MeetsNoCycle name c) {x : Option FieldId} :
    p.Searches name c x ↔ x = p.resolveField? c name :=
  ⟨fun hx => hx.unique (searches_resolveField? h), fun heq => heq ▸ searches_resolveField? h⟩

end Program

/-! ## 3. The two phases -/

theorem EndsOnce.ended {tokens : List LineToken} (h : EndsOnce tokens) : Reader.Ended tokens := by
  obtain ⟨front, line, rfl, -⟩ := h
  exact ⟨front, _, rfl, rfl⟩

theorem EndsOnce.ne_nil {tokens : List LineToken} (h : EndsOnce tokens) : tokens ≠ [] := by
  obtain ⟨t, rest, rfl⟩ := h.ended.cons
  exact List.cons_ne_nil t rest

/-- **A text has tokens and nothing is reported, or it has none and one error is reported**,
    whatever was reported before. -/
theorem lexing_cases (source : String) :
    (∃ tokens, EndsOnce tokens ∧ ∀ d, Diagnostics.lexing d source = (tokens, d)) ∨
      ∃ e : LexError, ∀ d, Diagnostics.lexing d source = ([], e.report d) := by
  have hlex : lex source = _ := lex_eq rfl
  have hlexing := fun d => lexing_eq d source
  cases hscan : scanText source.toList with
  | ok tokens =>
    rw [hscan] at hlex hlexing
    exact .inl ⟨tokens, endsOnce_of_lex hlex, hlexing⟩
  | error e =>
    rw [hscan] at hlexing
    exact .inr ⟨e, hlexing⟩

/-- **What a text is read as is what the two phases give**, whatever was reported before: the
    program, or what is reported. -/
theorem ofSource_phases (source : String) (d : Diagnostics) :
    match Program.ofSource source with
    | .ok p => ∃ tokens, d.lexing source = (tokens, d) ∧ d.parsing tokens = (some p, d)
    | .error (.lexical said) => d.lexing source = ([], d.pass said)
    | .error (.grammar said) =>
      ∃ tokens, d.lexing source = (tokens, d) ∧ d.parsing tokens = (none, d.pass said) := by
  obtain ⟨tokens, hends, hlexing⟩ | ⟨e, hlexing⟩ := lexing_cases source
  · obtain ⟨t, rest, rfl⟩ := hends.ended.cons
    have hlex : lex source = .ok (t :: rest) := by rw [lex, hlexing]
    obtain ⟨p, hparsing⟩ | ⟨e, -, hparsing⟩ := parsing_cases hends.ended
    · have hparsing : ∀ d, Diagnostics.parsing d (t :: rest) = (some p, d) := fun d => by
        simpa using hparsing d []
      rw [Program.ofSource, hlex]
      dsimp only
      rw [Program.ofTokens, hparsing]
      exact ⟨t :: rest, hlexing d, hparsing d⟩
    · have hparsing : ∀ d, Diagnostics.parsing d (t :: rest) = (none, e.report d) := fun d => by
        simpa using hparsing d []
      rw [Program.ofSource, hlex]
      dsimp only
      rw [Program.ofTokens, hparsing]
      exact ⟨t :: rest, hlexing d, (hparsing d).trans (congrArg (none, ·) (e.report_eq_pass d))⟩
  · have hlex : lex source = .error (e.report {}) := by rw [lex, hlexing]
    rw [Program.ofSource, hlex]
    exact (hlexing d).trans (congrArg ([], ·) (d.report_eq_pass _ _ _))

theorem lexing_reports_once (source : String) (d : Diagnostics) :
    ((d.lexing source).1 = [] ↔ (d.lexing source).2.errorCount = d.errorCount + 1) ∧
    ((d.lexing source).1 = [] → ∃ e : LexError, (d.lexing source).2 = e.report d) ∧
    ((d.lexing source).1 ≠ [] → (d.lexing source).2 = d ∧ EndsOnce (d.lexing source).1) ∧
    (d.lexing source).2.output = d.output := by
  obtain ⟨tokens, hends, hlexing⟩ | ⟨e, hlexing⟩ := lexing_cases source
  · rw [hlexing d]
    have hne := hends.ne_nil
    exact ⟨⟨fun h => absurd h hne, fun h => absurd h.symm (Nat.succ_ne_self _)⟩,
      fun h => absurd h hne, fun _ => ⟨rfl, hends⟩, rfl⟩
  · rw [hlexing d]
    exact ⟨⟨fun _ => rfl, fun _ => rfl⟩, fun _ => ⟨e, rfl⟩, fun h => absurd rfl h, rfl⟩

theorem parsing_reports_once {tokens : List LineToken} (h : EndsOnce tokens) (d : Diagnostics) :
    ((d.parsing tokens).1 = none ↔ (d.parsing tokens).2.errorCount = d.errorCount + 1) ∧
    ((d.parsing tokens).1.isSome ↔ (d.parsing tokens).2.errorCount = d.errorCount) ∧
    ((d.parsing tokens).1 = none → ∃ e : ReadError,
      e.found ∈ tokens ∧ (d.parsing tokens).2 = e.report d) ∧
    ((d.parsing tokens).1.isSome → (d.parsing tokens).2 = d) ∧
    (d.parsing tokens).2.output = d.output ∧
    ∀ behind, d.parsing (tokens ++ behind) = d.parsing tokens := by
  obtain ⟨p, hparsing⟩ | ⟨e, hfound, hparsing⟩ := parsing_cases h.ended
  · have hparsed : d.parsing tokens = (some p, d) := by simpa using hparsing d []
    rw [hparsed]
    exact ⟨⟨nofun, fun h => absurd h.symm (Nat.succ_ne_self _)⟩, ⟨fun _ => rfl, fun _ => rfl⟩,
      nofun, fun _ => rfl, rfl, hparsing d⟩
  · have hparsed : d.parsing tokens = (none, e.report d) := by simpa using hparsing d []
    rw [hparsed]
    exact ⟨⟨fun _ => rfl, fun _ => rfl⟩, ⟨nofun, fun h => absurd h (Nat.succ_ne_self _)⟩,
      fun _ => ⟨e, hfound, rfl⟩, nofun, rfl, hparsing d⟩

/-- **Lexing and parsing report one error or none.** Lexing gives no tokens and reports one error,
    or it gives tokens that end with their only end token and reports nothing. Parsing such tokens
    gives no program and reports one error, at one of the tokens, or it gives a program and reports
    nothing; what stands behind the tokens makes no difference. Neither of them writes any output,
    and what a text is read as does not depend on what was reported before. Both end: every loop
    over tokens does, and so does a search for a field that meets no cycle. -/
theorem phases_report_once :
    (∀ (source : String) (d : Diagnostics),
      ((d.lexing source).1 = [] ↔ (d.lexing source).2.errorCount = d.errorCount + 1) ∧
      ((d.lexing source).1 = [] → ∃ e : LexError, (d.lexing source).2 = e.report d) ∧
      ((d.lexing source).1 ≠ [] → (d.lexing source).2 = d ∧ EndsOnce (d.lexing source).1) ∧
      (d.lexing source).2.output = d.output) ∧
    (∀ (tokens : List LineToken) (d : Diagnostics), EndsOnce tokens →
      ((d.parsing tokens).1 = none ↔ (d.parsing tokens).2.errorCount = d.errorCount + 1) ∧
      ((d.parsing tokens).1.isSome ↔ (d.parsing tokens).2.errorCount = d.errorCount) ∧
      ((d.parsing tokens).1 = none → ∃ e : ReadError,
        e.found ∈ tokens ∧ (d.parsing tokens).2 = e.report d) ∧
      ((d.parsing tokens).1.isSome → (d.parsing tokens).2 = d) ∧
      (d.parsing tokens).2.output = d.output ∧
      ∀ behind, d.parsing (tokens ++ behind) = d.parsing tokens) ∧
    (∀ (source : String) (d : Diagnostics),
      match Program.ofSource source with
      | .ok p => ∃ tokens, d.lexing source = (tokens, d) ∧ d.parsing tokens = (some p, d)
      | .error (.lexical said) => d.lexing source = ([], d.pass said)
      | .error (.grammar said) =>
        ∃ tokens, d.lexing source = (tokens, d) ∧ d.parsing tokens = (none, d.pass said)) ∧
    (∀ s : ReaderState, EndsOnce s.tokens → Reader.LoopsEnd s) ∧
    ∀ (p : Program) (name : String) (c : ClassId), p.MeetsNoCycle name c →
      ∀ x, p.Searches name c x ↔ x = p.resolveField? c name :=
  ⟨lexing_reports_once, fun _ d htokens => parsing_reports_once htokens d, ofSource_phases,
    fun _ hs => Reader.loopsEnd_of_ended hs.ended, fun _ _ _ h _ => Program.searches_iff h⟩

/-- A class that ends before it is closed. -/
def truncated : String := "class A \x7b field int f;"

/-- The tokens of the class that is not closed. -/
def truncatedTokens : List LineToken :=
  [⟨.keyword .classDecl, 1⟩, ⟨.ident "A", 1⟩, ⟨.mark .leftBrace, 1⟩, ⟨.keyword .fieldDecl, 1⟩,
    ⟨.keyword (.prim .int), 1⟩, ⟨.ident "f", 1⟩, ⟨.mark .semicolon, 1⟩, ⟨.endOfFile, 1⟩]

/-- A class that inherits a field. -/
def inheriting : Program where
  classes := #[{ name := "A", superClass := some 1 }, { name := "B", fields := [0] }]
  fields := #[⟨"f", 1, .prim .int, false⟩]

theorem phases_report_once_truncated :
    ({} : Diagnostics).lexing truncated = (truncatedTokens, {}) ∧ EndsOnce truncatedTokens ∧
      (({} : Diagnostics).parsing truncatedTokens).1 = none ∧
      (({} : Diagnostics).parsing truncatedTokens).2.errorCount = 1 ∧
      (∃ e : ReadError, e.found ∈ truncatedTokens ∧
        (({} : Diagnostics).parsing truncatedTokens).2 = e.report {}) ∧
      ({} : Diagnostics).parsing (truncatedTokens ++ truncatedTokens) =
        ({} : Diagnostics).parsing truncatedTokens ∧
      Reader.LoopsEnd ⟨truncatedTokens, {}, {}⟩ ∧
      inheriting.MeetsNoCycle "f" 0 ∧ inheriting.Searches "f" 0 (some 0) := by
  obtain ⟨hlexing, hparsing, -, hloops, hsearch⟩ := phases_report_once
  have htext : truncated.toList = _ := String.toList_ofList
  have hlexed : (({} : Diagnostics).lexing truncated).1 = truncatedTokens := by
    rw [lexing_eq, htext]
    decide +kernel
  obtain ⟨hquiet, hends⟩ := (hlexing truncated {}).2.2.1 (by rw [hlexed]; nofun)
  rw [hlexed] at hends
  have hcount : (({} : Diagnostics).parsing truncatedTokens).2.errorCount = 1 := by decide +kernel
  obtain ⟨hfailed, -, herror, -, -, hbehind⟩ := hparsing truncatedTokens {} hends
  have hnone := hfailed.mpr hcount
  -- the only step of the search is from the first class to the second one
  have hstep : ∀ {c d}, inheriting.Climbs "f" c d → c = 0 ∧ d = 1 := by
    intro c d h
    obtain ⟨-, hsuper⟩ := h
    match c with
    | 0 => exact ⟨rfl, (Option.some.inj hsuper).symm⟩
    | 1 => cases hsuper
    | _ + 2 => cases hsuper
  have hcycle : inheriting.MeetsNoCycle "f" 0 := by
    intro d _ hback
    obtain ⟨e, hfirst, -⟩ := Relation.TransGen.head'_iff.mp hback
    obtain ⟨e', -, hlast⟩ := Relation.TransGen.tail'_iff.mp hback
    cases (hstep hfirst).1.symm.trans (hstep hlast).2
  have hfield : inheriting.resolveField? 0 "f" = some 0 := by decide +kernel
  exact ⟨Prod.ext hlexed hquiet, hends, hnone, hcount, herror hnone, hbehind _, hloops _ hends,
    hcycle, (hsearch _ _ _ hcycle _).mpr hfield.symm⟩

end ObjectFlow
