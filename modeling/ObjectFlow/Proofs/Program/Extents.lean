/-
  File:      ObjectFlow/Proofs/Program/Extents.lean
  Subject:   BOTH PASSES OVER A TEXT AGREE ON WHERE EACH BODY ENDS.

  The first pass counts the braces of a body without reading it; the second pass reads it. What is
  read as a body is exactly what was passed over, so the bodies of an accepted text lie apart, and
  each is read from its first token to its last.

  * `SkipsTo`: what the first pass leaves of the tokens from a body on;
  * `skipsTo_of_readBody`: what is read as a body is passed over to the same place;
  * `Lays`: the bodies the first pass leaves lie one behind the other;
  * `Extent`, `ReadsTo`: where bodies begin and end in a text, and how the second pass reads them;
  * `passes_agree_on_extents`: the agreement.
-/
import ObjectFlow.Proofs.Program.BraceLevels
import ObjectFlow.Proofs.Program.Reporting
import ObjectFlow.Proofs.Program.ReadBack

namespace ObjectFlow

namespace Reader

open Program

variable {m : MethodId} {p q : Program} {said : Diagnostics} {s t : ReaderState}
  {T rest rest' : List LineToken}

/-! ## 1. One body -/

/-- Passing over the body that `T` begins with leaves `rest`. -/
def SkipsTo (T rest : List LineToken) : Prop :=
  ∃ line inner, T = ⟨.mark .leftBrace, line⟩ :: inner ∧ skipBlock? 1 inner = some rest

theorem skipBody_iff : skipBody ⟨T, p, said⟩ = .ok ((), s) ↔
    SkipsTo T s.tokens ∧ s.program = p ∧ s.diagnostics = said := by
  rw [skipBody_eq_ok]
  constructor
  · rintro ⟨line, inner, rest, rfl, hskip, rfl⟩
    exact ⟨⟨line, inner, rfl, hskip⟩, rfl, rfl⟩
  · rintro ⟨⟨line, inner, rfl, hskip⟩, rfl, rfl⟩
    exact ⟨line, inner, s.tokens, rfl, hskip, rfl⟩

theorem SkipsTo.unique (h : SkipsTo T rest) (h' : SkipsTo T rest') : rest = rest' := by
  obtain ⟨line, inner, rfl, hskip⟩ := h
  obtain ⟨line', inner', heq, hskip'⟩ := h'
  cases heq
  exact Option.some.inj (hskip.symm.trans hskip')

theorem SkipsTo.suffix (h : SkipsTo T rest) : rest <:+ T := by
  obtain ⟨line, inner, rfl, hskip⟩ := h
  exact (skipBlock?_suffix hskip).trans (List.suffix_cons _ inner)

theorem SkipsTo.length_lt (h : SkipsTo T rest) : rest.length < T.length := by
  obtain ⟨line, inner, rfl, hskip⟩ := h
  exact Nat.lt_succ_of_le (skipBlock?_suffix hskip).length_le

/-- **What is read as a body is passed over to the same place.** -/
theorem skipsTo_of_readBody (h : readBody m ⟨T, q, said⟩ = .ok ((), t)) : SkipsTo T t.tokens := by
  obtain ⟨instrs, u, hinstrs, hupdate⟩ := run_bind.mp h
  cases hupdate
  obtain ⟨_, v, hopen, hbehind⟩ := run_bind.mp hinstrs
  obtain ⟨found, hopen⟩ := run_discard.mp hopen
  obtain ⟨line, inner, rfl, -, rfl⟩ := (expectOr_eq_ok (by nofun)).mp hopen
  have hopened : Level (skipBlock? 1 inner) 1 inner := rfl
  have hclosed : skipBlock? 0 u.tokens = skipBlock? 1 inner :=
    carries_behindOpen (s := ⟨inner, q, said⟩) hopened hbehind
  rw [skipBlock?] at hclosed
  exact ⟨line, inner, rfl, hclosed.symm⟩

/-- A body is read the same whatever was reported before. -/
theorem readBody_again (hT : Ended T) (h : readBody m ⟨T, q, said⟩ = .ok ((), t))
    (said' : Diagnostics) :
    readBody m ⟨T, q, said'⟩ = .ok ((), { t with diagnostics := said' }) := by
  have hend := looks_readBody (σ := ⟨T, [], said'⟩) m ⟨T, q, said⟩ (.self hT)
  rw [h] at hend
  obtain ⟨_, hrun⟩ := hend.of_ok
  simpa [ReaderState.followed] using hrun

/-! ## 2. The first pass -/

/-- A reader that is blind to what stands behind a text leaves a rest of the text. -/
theorem suffix_of_blind {α : Type} {passed : α → Nat} {r : Reader α} {post : α → α → Prop} {a : α}
    (h : Blind ⟨s.tokens, [], {}⟩ passed r r post) (hs : Ended s.tokens)
    (hrun : r s = .ok (a, t)) : t.tokens <:+ s.tokens ∧ Ended t.tokens := by
  obtain ⟨_, _, hrun', hrest, -⟩ | ⟨e, hrun', -⟩ := h.reports (.self hs)
  · cases hrun.symm.trans hrun'
    exact hrest
  · cases hrun.symm.trans hrun'

/-- **Bodies that lie one behind the other** between the tokens before them and those behind. -/
structure Lays (before : List LineToken) (bodies : List PendingBody) (behind : List LineToken) :
    Prop where
  suffix : behind <:+ before
  inside : ∀ b ∈ bodies, b.tokens <:+ before ∧ ∃ rest, SkipsTo b.tokens rest ∧ behind <:+ rest
  apart : bodies.Pairwise fun b c => ∃ rest, SkipsTo b.tokens rest ∧ c.tokens <:+ rest

namespace Lays

variable {before between behind : List LineToken} {bodies bodies' : List PendingBody}

theorem none (h : behind <:+ before) : Lays before [] behind :=
  ⟨h, fun _ hb => absurd hb List.not_mem_nil, .nil⟩

theorem one {b : PendingBody} (h : SkipsTo b.tokens behind) : Lays b.tokens [b] behind where
  suffix := h.suffix
  inside c hc := by
    cases List.mem_singleton.mp hc
    exact ⟨List.suffix_refl _, behind, h, List.suffix_refl _⟩
  apart := List.pairwise_singleton _ b

theorem append (h : Lays before bodies between) (h' : Lays between bodies' behind) :
    Lays before (bodies ++ bodies') behind where
  suffix := h'.suffix.trans h.suffix
  inside b hb := by
    rcases List.mem_append.mp hb with hb | hb
    · obtain ⟨hbefore, rest, hskip, hbehind⟩ := h.inside b hb
      exact ⟨hbefore, rest, hskip, h'.suffix.trans hbehind⟩
    · obtain ⟨hbetween, hrest⟩ := h'.inside b hb
      exact ⟨hbetween.trans h.suffix, hrest⟩
  apart := by
    refine List.pairwise_append.mpr ⟨h.apart, h'.apart, fun b hb c hc => ?_⟩
    obtain ⟨-, rest, hskip, hbetween⟩ := h.inside b hb
    exact ⟨rest, hskip, (h'.inside c hc).1.trans hbetween⟩

/-- What is read in front of bodies and behind them leaves none. -/
theorem around {front back : List LineToken} (h : Lays front bodies back) (hfront : front <:+ before)
    (hback : behind <:+ back) : Lays before bodies behind := by
  have hall := ((none hfront).append h).append (none hback)
  rwa [List.nil_append, List.append_nil] at hall

end Lays

/-- A body that a member has is left where it begins, and what is behind it goes on to the end. -/
theorem lays_readRest {header : MethodId × Bool} {body : Option PendingBody} (hs : Ended s.tokens)
    (hrun : readRest header s = .ok (body, t)) :
    Lays s.tokens body.toList t.tokens ∧ Ended t.tokens := by
  unfold readRest at hrun
  split at hrun
  · obtain ⟨_, u, hget, hrun⟩ := run_bind.mp hrun
    cases hget
    obtain ⟨_, v, hskip, hrun⟩ := run_bind.mp hrun
    cases hrun
    obtain ⟨tokens, p, said⟩ := s
    have hskips := (skipBody_iff.mp hskip).1
    exact ⟨Lays.one (b := ⟨header.1, tokens⟩) hskips,
      (suffix_of_blind looks_skipBody hs hskip).2⟩
  · obtain ⟨_, u, hsemicolon, hrun⟩ := run_bind.mp hrun
    cases hrun
    obtain ⟨hsuffix, hended⟩ := suffix_of_blind
      (advances_expectOr (by nofun) _).dropped hs hsemicolon
    exact ⟨.none hsuffix, hended⟩

theorem lays_readMember {owner : ClassId} {body : Option PendingBody} (hs : Ended s.tokens)
    (hrun : readMember owner s = .ok (body, t)) :
    Lays s.tokens body.toList t.tokens ∧ Ended t.tokens := by
  obtain ⟨header, u, hhead, hrest⟩ := run_bind.mp hrun
  obtain ⟨hsuffix, hended⟩ := suffix_of_blind (advances_readMemberHead owner) hs hhead
  cases header with
  | none =>
    cases hrest
    exact ⟨.none hsuffix, hended⟩
  | some header =>
    obtain ⟨hlays, hended⟩ := lays_readRest hended hrest
    exact ⟨hlays.around hsuffix (List.suffix_refl _), hended⟩

theorem lays_readMembers {owner : ClassId} {bound : Nat} {bodies : List PendingBody}
    (hs : Ended s.tokens) (hrun : readMembers owner bound s = .ok (bodies, t)) :
    Lays s.tokens bodies t.tokens ∧ Ended t.tokens := by
  induction bound generalizing s bodies with
  | zero =>
    cases hrun
    exact ⟨.none (List.suffix_refl _), hs⟩
  | succ bound ih =>
    obtain ⟨rfl, rfl⟩ | ⟨body, u, later, hbody, hlater, rfl⟩ := readMembers_cases hrun
    · exact ⟨.none (List.suffix_refl _), hs⟩
    · obtain ⟨hlays, hended⟩ := lays_readMember hs hbody
      obtain ⟨hlater, hended⟩ := ih hended hlater
      exact ⟨hlays.append hlater, hended⟩

theorem lays_readClass {bodies : List PendingBody} (hs : Ended s.tokens)
    (hrun : readClass s = .ok (bodies, t)) :
    Lays s.tokens bodies t.tokens ∧ Ended t.tokens := by
  obtain ⟨owner, u, hhead, hrest⟩ := run_bind.mp hrun
  obtain ⟨opening, v, w, closing, hopen, hmembers, hclose⟩ := readClassRest_cases hrest
  obtain ⟨hfront, hended⟩ := suffix_of_blind advances_readClassHead hs hhead
  obtain ⟨hopen, hended⟩ :=
    suffix_of_blind (advances_expect (by nofun)) hended hopen
  obtain ⟨hlays, hended⟩ := lays_readMembers hended hmembers
  obtain ⟨hclose, hended⟩ :=
    suffix_of_blind (advances_expect (by nofun)) hended hclose
  exact ⟨hlays.around (hopen.trans hfront) hclose, hended⟩

/-- **The bodies the first pass leaves lie one behind the other.** -/
theorem lays_readClasses {bound : Nat} {bodies : List PendingBody} (hs : Ended s.tokens)
    (hrun : readClasses bound s = .ok (bodies, t)) :
    Lays s.tokens bodies t.tokens ∧ Ended t.tokens := by
  induction bound generalizing s bodies with
  | zero =>
    cases hrun
    exact ⟨.none (List.suffix_refl _), hs⟩
  | succ bound ih =>
    obtain ⟨rfl, rfl⟩ | ⟨first, u, later, hfirst, hlater, rfl⟩ := readClasses_cases hrun
    · exact ⟨.none (List.suffix_refl _), hs⟩
    · obtain ⟨hlays, hended⟩ := lays_readClass hs hfirst
      obtain ⟨hlater, hended⟩ := ih hended hlater
      exact ⟨hlays.append hlater, hended⟩

/-! ## 3. The second pass -/

variable {tokens : List LineToken}

/-- The first pass takes what stands from `start` to `stop` in the text for a body. -/
def Extent (tokens : List LineToken) (start stop : Nat) : Prop :=
  start < stop ∧ stop ≤ tokens.length ∧ SkipsTo (tokens.drop start) (tokens.drop stop)

/-- **The second pass reads bodies of the text**, each from where it begins exactly to where the
    first pass saw it end, and reports nothing. -/
inductive ReadsTo (tokens : List LineToken) :
    List PendingBody → List (Nat × Nat) → Program → Program → Prop
  | nil (p : Program) : ReadsTo tokens [] [] p p
  | cons {b : PendingBody} {bodies : List PendingBody} {start stop : Nat}
      {extents : List (Nat × Nat)} {p q r : Program} (htokens : b.tokens = tokens.drop start)
      (hextent : Extent tokens start stop)
      (hread : ∀ said, readBody b.method ⟨tokens.drop start, p, said⟩ =
        .ok ((), ⟨tokens.drop stop, q, said⟩))
      (hrest : ReadsTo tokens bodies extents q r) :
      ReadsTo tokens (b :: bodies) ((start, stop) :: extents) p r

/-- A rest of the text begins as far from its end as it is long. -/
theorem eq_drop_of_suffix (h : T <:+ tokens) : T = tokens.drop (tokens.length - T.length) :=
  List.suffix_iff_eq_drop.mp h

/-- Where a body of the text begins and ends. -/
theorem SkipsTo.extent (h : SkipsTo T rest) (hT : T <:+ tokens) :
    Extent tokens (tokens.length - T.length) (tokens.length - rest.length) := by
  refine ⟨?_, Nat.sub_le _ _, ?_⟩
  · have hlt := h.length_lt
    have hle := hT.length_le
    omega
  · rw [← eq_drop_of_suffix hT, ← eq_drop_of_suffix (h.suffix.trans hT)]
    exact h

/-- Behind the beginning of a body the text goes on to its end. -/
theorem SkipsTo.ended (h : SkipsTo T rest) (hT : T <:+ tokens) (htokens : Ended tokens) :
    Ended T := by
  obtain ⟨front, last, rfl, hlast⟩ := htokens
  have hne : T ≠ [] := by
    obtain ⟨line, inner, rfl, -⟩ := h
    exact List.cons_ne_nil _ _
  have hsame : T.getLast hne = last := by simpa using hT.getLast hne
  exact ⟨T.dropLast, last, hsame ▸ (List.dropLast_append_getLast hne).symm, hlast⟩

theorem exists_readsTo {bodies : List PendingBody} (htokens : Ended tokens)
    (hinside : ∀ b ∈ bodies, b.tokens <:+ tokens)
    (hapart : bodies.Pairwise fun b c => ∃ rest, SkipsTo b.tokens rest ∧ c.tokens <:+ rest)
    (hrun : readBodies bodies s = .ok ((), t)) :
    ∃ extents, ReadsTo tokens bodies extents s.program t.program ∧
      extents.Pairwise (fun e f => e.2 ≤ f.1) ∧
      ∀ low, (∀ b ∈ bodies, low ≤ tokens.length - b.tokens.length) → ∀ e ∈ extents, low ≤ e.1 := by
  induction bodies generalizing s with
  | nil =>
    cases hrun
    exact ⟨[], .nil _, .nil, fun _ _ _ he => absurd he List.not_mem_nil⟩
  | cons b bodies ih =>
    obtain ⟨_, u, hset, hrun⟩ := run_bind.mp hrun
    cases hset
    obtain ⟨_, v, hbody, hrun⟩ := run_bind.mp hrun
    obtain ⟨hfirst, hapart⟩ := List.pairwise_cons.mp hapart
    have hskip := skipsTo_of_readBody hbody
    have hb := hinside b List.mem_cons_self
    obtain ⟨extents, hreads, hordered, hlow⟩ :=
      ih (fun c hc => hinside c (List.mem_cons_of_mem b hc)) hapart hrun
    refine ⟨(tokens.length - b.tokens.length, tokens.length - v.tokens.length) :: extents,
      .cons (eq_drop_of_suffix hb) (hskip.extent hb) ?_ hreads,
      List.pairwise_cons.mpr ⟨hlow _ fun c hc => ?_, hordered⟩, fun low hall e he => ?_⟩
    · rw [← eq_drop_of_suffix hb, ← eq_drop_of_suffix (hskip.suffix.trans hb)]
      exact readBody_again (hskip.ended hb htokens) hbody
    · -- the next body begins in what reading this one has left
      obtain ⟨rest, hrest, hc⟩ := hfirst c hc
      rw [hrest.unique hskip] at hc
      exact Nat.sub_le_sub_left hc.length_le _
    · rcases List.mem_cons.mp he with rfl | he
      · exact hall b List.mem_cons_self
      · exact hlow low (fun c hc => hall c (List.mem_cons_of_mem b hc)) e he

/-! ## 4. Both passes -/

/-- **Both passes agree on the extent of bodies.** If a body is passed over and also read from some
    token on, into whatever programs, both end at the same token. And in an accepted text the
    bodies that the first pass leaves lie apart, and the second pass reads each of them from where
    it begins to where it was seen to end. -/
theorem passes_agree_on_extents {tokens : List LineToken} (htokens : EndsOnce tokens) :
    (∀ (m : MethodId) (p q : Program) (d e : Diagnostics) (start : Nat) (s t : ReaderState),
      skipBody ⟨tokens.drop start, p, d⟩ = .ok ((), s) →
      readBody m ⟨tokens.drop start, q, e⟩ = .ok ((), t) →
      ∃ stop, Extent tokens start stop ∧ s.tokens = tokens.drop stop ∧
        t.tokens = tokens.drop stop) ∧
    (∀ program, ofTokens tokens = .ok program → ∃ bodies extents u,
      readClasses tokens.length ⟨tokens, {}, {}⟩ = .ok (bodies, u) ∧
      ReadsTo tokens bodies extents u.program program ∧
      extents.Pairwise fun e f => e.2 ≤ f.1) := by
  refine ⟨fun m p q d e start s t hskip hread => ?_, fun program haccepted => ?_⟩
  · have hskips := (skipBody_iff.mp hskip).1
    have hsame : t.tokens = s.tokens := (skipsTo_of_readBody hread).unique hskips
    have hstart := List.drop_suffix start tokens
    have hstop := eq_drop_of_suffix (hskips.suffix.trans hstart)
    refine ⟨tokens.length - s.tokens.length, ?_, hstop, hsame.trans hstop⟩
    have hextent := hskips.extent hstart
    have hlt := hskips.length_lt
    rw [List.length_drop] at hlt hextent
    have hbegin : tokens.length - (tokens.length - start) = start := by omega
    rwa [hbegin] at hextent
  · obtain ⟨s, hrun, rfl⟩ := ofTokens_eq_ok.mp haccepted
    obtain ⟨bodies, u, hclasses, hbodies⟩ := readProgram_eq_ok.mp hrun
    obtain ⟨hlays, -⟩ := lays_readClasses htokens.ended hclasses
    obtain ⟨extents, hreads, hordered, -⟩ :=
      exists_readsTo htokens.ended (fun b hb => (hlays.inside b hb).1) hlays.apart hbodies
    exact ⟨bodies, extents, u, hclasses, hreads, hordered⟩

/-- Two methods, the first one with braces inside its body. -/
def twoBodies : List LineToken :=
  ([.keyword .classDecl, .ident "A", .mark .leftBrace,
      .keyword .methodDecl, .keyword (.prim .void), .ident "f", .mark .leftParen,
        .keyword (.prim .int), .ident "x", .mark .rightParen, .mark .leftBrace,
        .keyword .switchJump, .mark .leftParen, .ident "x", .mark .rightParen, .mark .leftBrace,
          .keyword .defaultArm, .mark .colon, .ident "l", .mark .semicolon, .mark .rightBrace,
        .ident "l", .mark .colon, .keyword .returnJump, .mark .semicolon, .mark .rightBrace,
      .keyword .methodDecl, .keyword (.prim .void), .ident "g", .mark .leftParen,
        .mark .rightParen, .mark .leftBrace, .keyword .returnJump, .mark .semicolon,
        .mark .rightBrace, .mark .rightBrace, .endOfFile] : List Token).map (⟨·, 1⟩)

theorem endsOnce_twoBodies : EndsOnce twoBodies :=
  ⟨twoBodies.dropLast, 1, rfl, by decide⟩

set_option maxRecDepth 2000 in
/-- Both bodies are found and read, and passing over the first one from its brace on leads to where
    reading it does. -/
theorem passes_agree_on_extents_twoBodies :
    EndsOnce twoBodies ∧ ∃ program bodies extents u, ofTokens twoBodies = .ok program ∧
      readClasses twoBodies.length ⟨twoBodies, {}, {}⟩ = .ok (bodies, u) ∧ bodies.length = 2 ∧
      ReadsTo twoBodies bodies extents u.program program ∧
      extents.Pairwise (fun e f => e.2 ≤ f.1) ∧
      ∃ s t stop, skipBody ⟨twoBodies.drop 10, u.program, {}⟩ = .ok ((), s) ∧
        readBody 0 ⟨twoBodies.drop 10, u.program, {}⟩ = .ok ((), t) ∧ Extent twoBodies 10 stop ∧
        s.tokens = twoBodies.drop stop ∧ t.tokens = twoBodies.drop stop := by
  have hok : ∀ {ε α : Type} {x : Except ε α}, x.isOk = true → ∃ a, x = .ok a := by
    rintro ε α (e | a) h
    · cases h
    · exact ⟨a, rfl⟩
  have hends := endsOnce_twoBodies
  obtain ⟨hone, hall⟩ := passes_agree_on_extents hends
  obtain ⟨program, haccepted⟩ : ∃ program, ofTokens twoBodies = .ok program :=
    hok (by decide +kernel)
  obtain ⟨bodies, extents, u, hclasses, hreads, hordered⟩ := hall program haccepted
  have htest : (readClasses twoBodies.length ⟨twoBodies, {}, {}⟩).toOption.any (fun x =>
      decide (x.1.length = 2) && (skipBody ⟨twoBodies.drop 10, x.2.program, {}⟩).isOk &&
        (readBody 0 ⟨twoBodies.drop 10, x.2.program, {}⟩).isOk) = true := by
    decide +kernel
  rw [hclasses] at htest
  have htest : (decide (bodies.length = 2) && _ && _) = true := htest
  obtain ⟨htwo, hread⟩ := (Bool.and_eq_true _ _).mp htest
  obtain ⟨htwo, hskip⟩ := (Bool.and_eq_true _ _).mp htwo
  obtain ⟨⟨_, s⟩, hskip⟩ := hok hskip
  obtain ⟨⟨_, t⟩, hread⟩ := hok hread
  obtain ⟨stop, hextent, hs, ht⟩ := hone 0 u.program u.program {} {} 10 s t hskip hread
  exact ⟨hends, program, bodies, extents, u, haccepted, hclasses, of_decide_eq_true htwo, hreads,
    hordered, s, t, stop, hskip, hread, hextent, hs, ht⟩

end Reader

end ObjectFlow
