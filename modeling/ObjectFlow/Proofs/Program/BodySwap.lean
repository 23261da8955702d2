/-
  File:      ObjectFlow/Proofs/Program/BodySwap.lean
  Subject:   ANOTHER BODY FOR A METHOD: what the rest of the text is read to.

  A body is passed over while declarations are read. When it is replaced by another block, the same
  declarations are read, and the same bodies are left to be read but that one.

  * `Reader.Fallen`: reading goes on through the text, and each body that is left lies in the part
    that was passed, behind those that were left before it;
  * `Reader.Aligned`: two texts that are the same up to the block that is swapped, or behind it;
  * `readClasses_aligned`: the texts are read to the same declarations.
-/
import ObjectFlow.Proofs.Program.BodyMirroring
import ObjectFlow.Proofs.Program.DeclarationMirroring

namespace ObjectFlow

namespace Reader

open Program

/-! ## 1. Blocks that are passed over -/

/-- A block, and what follows it. -/
theorem skipBlock?_split {depth : Nat} {ts rest : List LineToken}
    (h : skipBlock? depth ts = some rest) : ∃ c, ts = c ++ rest ∧ skipBlock? depth c = some [] := by
  fun_induction skipBlock? depth ts with
  | case1 ts =>
    cases h
    exact ⟨[], rfl, by rw [skipBlock?]⟩
  | case2 => cases h
  | case3 => cases h
  | case4 depth t later ht ih =>
    obtain ⟨c, rfl, hc⟩ := ih h
    refine ⟨t :: c, rfl, ?_⟩
    rw [skipBlock?]
    simp only [ht, hc]
  | case5 depth t later ht ih =>
    obtain ⟨c, rfl, hc⟩ := ih h
    refine ⟨t :: c, rfl, ?_⟩
    rw [skipBlock?]
    simp only [ht, hc]
  | case6 depth t later h₁ h₂ h₃ ih =>
    obtain ⟨c, rfl, hc⟩ := ih h
    refine ⟨t :: c, rfl, ?_⟩
    rw [skipBlock?]
    split <;> simp_all

theorem skipBlock?_append {depth : Nat} {c : List LineToken} (h : skipBlock? depth c = some [])
    (rest : List LineToken) : skipBlock? depth (c ++ rest) = some rest := by
  fun_induction skipBlock? depth c with
  | case1 ts =>
    cases h
    rw [List.nil_append, skipBlock?]
  | case2 => cases h
  | case3 => cases h
  | case4 depth t later ht ih =>
    rw [List.cons_append, skipBlock?]
    simp only [ht, ih h]
  | case5 depth t later ht ih =>
    rw [List.cons_append, skipBlock?]
    simp only [ht, ih h]
  | case6 depth t later h₁ h₂ h₃ ih =>
    rw [List.cons_append, skipBlock?]
    split <;> simp_all

/-- Lines do not matter to where a block ends. -/
theorem skipBlock?_same {depth : Nat} {c c' : List LineToken} (hsame : List.Forall₂ SameToken c c')
    (h : skipBlock? depth c = some []) : skipBlock? depth c' = some [] := by
  fun_induction skipBlock? depth c generalizing c' with
  | case1 ts =>
    cases h
    cases hsame
    rw [skipBlock?]
  | case2 => cases h
  | case3 => cases h
  | case4 depth t later ht ih =>
    cases hsame with
    | cons htoken hsame =>
      rw [skipBlock?]
      simp only [htoken.trans ht, ih hsame h]
  | case5 depth t later ht ih =>
    cases hsame with
    | cons htoken hsame =>
      rw [skipBlock?]
      simp only [htoken.trans ht, ih hsame h]
  | case6 depth t later h₁ h₂ h₃ ih =>
    cases hsame with
    | cons htoken hsame =>
      have ih := ih hsame h
      rw [skipBlock?, htoken]
      split <;> simp_all

theorem forall₂_split {σ σ' : Type} {S : σ → σ' → Prop} {xs ys : List σ} {zs : List σ'}
    (h : List.Forall₂ S (xs ++ ys) zs) :
    ∃ xs' ys', zs = xs' ++ ys' ∧ List.Forall₂ S xs xs' ∧ List.Forall₂ S ys ys' := by
  induction xs generalizing zs with
  | nil => exact ⟨[], zs, rfl, .nil, h⟩
  | cons x xs ih =>
    cases h with
    | cons hx h =>
      obtain ⟨xs', ys', rfl, hxs, hys⟩ := ih h
      exact ⟨_ :: xs', ys', rfl, .cons hx hxs, hys⟩

variable {p : Program} {s s' : ReaderState} {said : Diagnostics} {t : Token}
  {tokens : List LineToken}

theorem expectOr_eq_ok {cause : ReadCause} (ht : t ≠ .endOfFile) {found : LineToken} :
    expectOr t cause ⟨tokens, p, said⟩ = .ok (found, s) ↔
      ∃ line rest, tokens = ⟨t, line⟩ :: rest ∧ found = ⟨t, line⟩ ∧ s = ⟨rest, p, said⟩ := by
  have hunfold : expectOr t cause ⟨tokens, p, said⟩ =
      if (firstToken tokens).token = t then .ok (firstToken tokens, ⟨dropToken tokens, p, said⟩)
      else .error (ReadError.report ⟨firstToken tokens, cause⟩ said) := by
    change (if decide ((firstToken tokens).token = t) = true then advance
      else (peek >>= fun found => fail found cause)) ⟨tokens, p, said⟩ = _
    by_cases h : (firstToken tokens).token = t
    · rw [if_pos h, decide_eq_true h]
      rfl
    · rw [if_neg h, decide_eq_false h]
      rfl
  rw [hunfold]
  constructor
  · intro h
    split at h
    · rename_i hfirst
      cases h
      cases tokens with
      | nil => exact absurd hfirst.symm ht
      | cons u rest =>
        obtain ⟨token, line⟩ := u
        obtain rfl : token = t := hfirst
        exact ⟨line, rest, rfl, rfl, by rw [dropToken, if_neg ht]⟩
    · cases h
  · rintro ⟨line, rest, rfl, rfl, rfl⟩
    rw [if_pos (show (firstToken (⟨t, line⟩ :: rest)).token = t from rfl), dropToken, if_neg ht]
    rfl

theorem skipBody_run (line : Nat) (inner : List LineToken) :
    skipBody ⟨⟨.mark .leftBrace, line⟩ :: inner, p, said⟩ =
      match skipBlock? 1 inner with
      | some rest => .ok ((), ⟨rest, p, said⟩)
      | none => .error (ReadError.report ⟨⟨.mark .leftBrace, line⟩, .openBody⟩ said) := by
  change (match skipBlock? 1 inner with
    | some rest => set (⟨rest, p, said⟩ : ReaderState)
    | none => fail ⟨.mark .leftBrace, line⟩ .openBody : Reader Unit) ⟨inner, p, said⟩ = _
  cases skipBlock? 1 inner <;> rfl

theorem skipBody_eq_ok : skipBody ⟨tokens, p, said⟩ = .ok ((), s) ↔ ∃ line inner rest,
    tokens = ⟨.mark .leftBrace, line⟩ :: inner ∧ skipBlock? 1 inner = some rest ∧
      s = ⟨rest, p, said⟩ := by
  constructor
  · intro h
    obtain ⟨opening, u, hopen, -⟩ := run_bind.mp h
    obtain ⟨line, inner, rfl, -, -⟩ :=
      (expectOr_eq_ok (t := .mark .leftBrace) (by rintro ⟨⟩)).mp hopen
    rw [skipBody_run] at h
    split at h
    · rename_i rest hskip
      cases h
      exact ⟨line, inner, rest, rfl, hskip, rfl⟩
    · cases h
  · rintro ⟨line, inner, rest, rfl, hskip, rfl⟩
    rw [skipBody_run, hskip]

/-! ## 2. Reading on -/

/-- A text that goes on to its end, while declarations are read. -/
structure Ready (s : ReaderState) : Prop where
  listed : s.program.VarsListed
  spelled : Spelled s.tokens
  ended : Ended s.tokens

theorem block_self {line : Nat} {inner rest : List LineToken} (hspelled : Spelled inner)
    (hskip : skipBlock? 1 inner = some rest) :
    Block (⟨.mark .leftBrace, line⟩ :: inner) (⟨.mark .leftBrace, line⟩ :: inner) := by
  obtain ⟨c, rfl, hc⟩ := skipBlock?_split hskip
  exact ⟨line, line, c ++ rest, c ++ rest, rfl, rfl, hspelled, c, c, rest, rest, rfl, rfl,
    List.forall₂_same.mpr fun _ _ => rfl, hc⟩

/-- **Reading goes on from `s` to `s'`**, and leaves bodies that lie in between: each one in front
    of the next, and for a method with a lower number. -/
structure Fallen (s : ReaderState) (bodies : List PendingBody) (s' : ReaderState) : Prop where
  ready : Ready s'
  methods : s.program.methods.size ≤ s'.program.methods.size
  tokens : s'.tokens <:+ s.tokens
  between : ∀ b ∈ bodies, s'.tokens.length < b.tokens.length ∧ b.tokens <:+ s.tokens ∧
    s.program.methods.size ≤ b.method ∧ b.method < s'.program.methods.size
  order : bodies.Pairwise fun b c => c.tokens.length < b.tokens.length ∧ b.method < c.method
  blocks : ∀ b ∈ bodies, Block b.tokens b.tokens

theorem Fallen.append {s₁ s₂ : ReaderState} {bs cs : List PendingBody} (h : Fallen s bs s₁)
    (h' : Fallen s₁ cs s₂) : Fallen s (bs ++ cs) s₂ where
  ready := h'.ready
  methods := Nat.le_trans h.methods h'.methods
  tokens := h'.tokens.trans h.tokens
  between b hb := by
    rcases List.mem_append.mp hb with hb | hb
    · obtain ⟨hafter, hbefore, hold, hnew⟩ := h.between b hb
      exact ⟨Nat.lt_of_le_of_lt h'.tokens.length_le hafter, hbefore, hold,
        Nat.lt_of_lt_of_le hnew h'.methods⟩
    · obtain ⟨hafter, hbefore, hold, hnew⟩ := h'.between b hb
      exact ⟨hafter, hbefore.trans h.tokens, Nat.le_trans h.methods hold, hnew⟩
  order := by
    refine List.pairwise_append.mpr ⟨h.order, h'.order, fun b hb c hc => ?_⟩
    obtain ⟨hafter, -, -, hnew⟩ := h.between b hb
    obtain ⟨-, hbefore, hold, -⟩ := h'.between c hc
    exact ⟨Nat.lt_of_le_of_lt hbefore.length_le hafter, Nat.lt_of_lt_of_le hnew hold⟩
  blocks b hb := (List.mem_append.mp hb).elim (h.blocks b) (h'.blocks b)

theorem Ready.fallen (h : Ready s) : Fallen s [] s where
  ready := h
  methods := Nat.le_refl _
  tokens := List.suffix_refl _
  between _ hb := absurd hb List.not_mem_nil
  order := .nil
  blocks _ hb := absurd hb List.not_mem_nil

/-- Two times the same part of a text. -/
def Twin (text : List LineToken) : TokenRel := fun ts ts' =>
  ts' = ts ∧ Spelled ts ∧ Ended ts ∧ ts <:+ text

theorem parallel_twin (text : List LineToken) : Parallel (Twin text) := by
  rintro ts _ ⟨rfl, hspelled, hended, hsuffix⟩
  obtain ⟨t, rest, rfl⟩ := hended.cons
  refine ⟨t, rest, t, rest, rfl, rfl, rfl, hspelled t List.mem_cons_self, fun hstop => ?_⟩
  refine ⟨rfl, hspelled.tail, hended.tail fun hend => ?_, (List.suffix_cons t rest).trans hsuffix⟩
  rw [hend] at hstop
  cases hstop

variable {α : Type} {k : Nat}

theorem run_discard {r : Reader α} : discard r s = .ok ((), s') ↔ ∃ a, r s = .ok (a, s') := by
  have heq : discard r = r >>= fun _ => pure () := rfl
  rw [heq, run_bind]
  constructor
  · intro ⟨a, t, hr, hdrop⟩
    cases hdrop
    exact ⟨a, hr⟩
  · intro ⟨a, hr⟩
    exact ⟨a, s', hr, rfl⟩

/-- What a reader says of two texts, it says of one. -/
theorem fallen_of_mirrors {r : Reader α} {post : Program → Program → α → α → Prop} {a : α}
    (h : Mirrors .declarations (Twin s.tokens) (Twin s.tokens) k s.program s.program r r post)
    (hs : Ready s)
    (hrun : r s = .ok (a, s')) :
    Fallen s [] s' ∧ s'.tokens.length + k ≤ s.tokens.length ∧ post s'.program s'.program a a := by
  obtain ⟨a', s'', hrun', hholds, hto, -, ⟨-, hspelled, hended, hsuffix⟩, hlen, -, hpost⟩ :=
    h s.diagnostics ⟨rfl, hs.listed⟩ ⟨rfl, hs.spelled, hs.ended, List.suffix_refl _⟩ hrun
  cases hrun.symm.trans hrun'
  have hto : s.program.methods.size ≤ s'.program.methods.size := hto
  exact ⟨⟨⟨hholds.2, hspelled, hended⟩, hto, hsuffix,
    fun b hb => absurd hb List.not_mem_nil, .nil, fun b hb => absurd hb List.not_mem_nil⟩, hlen,
    hpost⟩

theorem fallen_expectOr {cause : ReadCause} {found : LineToken} (hs : Ready s) (ht : t ≠ .endOfFile)
    (hrun : expectOr t cause s = .ok (found, s')) :
    Fallen s [] s' ∧ s'.program = s.program ∧ s'.tokens.length + 1 = s.tokens.length := by
  obtain ⟨tokens, p, said⟩ := s
  obtain ⟨line, rest, rfl, -, rfl⟩ := (expectOr_eq_ok ht).mp hrun
  refine ⟨⟨⟨hs.listed, hs.spelled.tail, hs.ended.tail ht⟩, Nat.le_refl _, List.suffix_cons _ _,
    fun b hb => absurd hb List.not_mem_nil, .nil, fun b hb => absurd hb List.not_mem_nil⟩, rfl, rfl⟩

theorem fallen_readMember {owner : ClassId} {body : Option PendingBody} (hs : Ready s)
    (hrun : readMember owner s = .ok (body, s')) :
    Fallen s body.toList s' ∧ s'.tokens.length < s.tokens.length := by
  obtain ⟨header, u, hhead, hrest⟩ := run_bind.mp hrun
  obtain ⟨hu, hless, -, hheader⟩ :=
    fallen_of_mirrors (mirrors_readMemberHead (parallel_twin _) owner) hs hhead
  have hless : u.tokens.length < s.tokens.length := hless
  cases header with
  | none =>
    cases hrest
    exact ⟨hu, hless⟩
  | some header =>
    obtain ⟨method, hasBody⟩ := header
    obtain ⟨hle, hlt⟩ := hheader _ rfl
    cases hasBody with
    | true =>
      obtain ⟨tokens, v, hget, hrest⟩ := run_bind.mp hrest
      cases hget
      obtain ⟨_, w, hskip, hrest⟩ := run_bind.mp hrest
      cases hrest
      obtain ⟨tokens, p, said⟩ := u
      obtain ⟨line, inner, rest, rfl, hinner, rfl⟩ := skipBody_eq_ok.mp hskip
      have hready := hu.ready
      have hsuffix := skipBlock?_suffix hinner
      have hlen : rest.length ≤ inner.length := hsuffix.length_le
      have htokens := hu.tokens
      have hshort : rest.length < s.tokens.length :=
        Nat.lt_of_le_of_lt (Nat.le_trans hlen (Nat.le_succ _)) hless
      refine ⟨⟨⟨hready.listed, fun t ht => ?_, ?_⟩, hu.methods,
        (hsuffix.trans (List.suffix_cons _ _)).trans htokens, fun b hb => ?_, ?_, fun b hb => ?_⟩,
        hshort⟩
      · exact hready.spelled.tail t (hsuffix.mem ht)
      · exact (hready.ended.tail (by rintro ⟨⟩)).of_skipBlock? hinner
      · obtain rfl := List.mem_singleton.mp hb
        exact ⟨Nat.lt_succ_of_le hlen, htokens, hle, hlt⟩
      · exact List.pairwise_singleton _ _
      · obtain rfl := List.mem_singleton.mp hb
        exact block_self hready.spelled.tail hinner
    | false =>
      obtain ⟨_, v, hsemicolon, hrest⟩ := run_bind.mp hrest
      cases hrest
      obtain ⟨found, hsemicolon⟩ := run_discard.mp hsemicolon
      have hend := (fallen_expectOr hu.ready (by rintro ⟨⟩) hsemicolon).1
      exact ⟨hu.append hend, Nat.lt_of_le_of_lt hend.tokens.length_le hless⟩

/-- Reading members ends before the next one, or reads it and goes on. -/
theorem readMembers_cases {owner : ClassId} {n : Nat} {bodies : List PendingBody}
    (hrun : readMembers owner (n + 1) s = .ok (bodies, s')) :
    (bodies = [] ∧ s' = s) ∨ ∃ body u later, readMember owner s = .ok (body, u) ∧
      readMembers owner n u = .ok (later, s') ∧ bodies = body.toList ++ later := by
  obtain ⟨closed, u, hclosed, hrun⟩ := run_bind.mp hrun
  cases hclosed
  split at hrun
  · cases hrun
    exact .inl ⟨rfl, rfl⟩
  · obtain ⟨ended, u, hended, hrun⟩ := run_bind.mp hrun
    cases hended
    split at hrun
    · cases hrun
    · obtain ⟨body, u, hbody, hrun⟩ := run_bind.mp hrun
      obtain ⟨later, v, hlater, hrun⟩ := run_bind.mp hrun
      cases hrun
      exact .inr ⟨body, u, later, hbody, hlater, rfl⟩

theorem fallen_readMembers {owner : ClassId} {n : Nat} {bodies : List PendingBody} (hs : Ready s)
    (hrun : readMembers owner n s = .ok (bodies, s')) : Fallen s bodies s' := by
  induction n generalizing s bodies with
  | zero =>
    cases hrun
    exact hs.fallen
  | succ n ih =>
    obtain ⟨rfl, rfl⟩ | ⟨body, u, later, hbody, hlater, rfl⟩ := readMembers_cases hrun
    · exact hs.fallen
    · have hu := (fallen_readMember hs hbody).1
      exact hu.append (ih hu.ready hlater)

theorem readClassRest_cases {owner : ClassId} {bodies : List PendingBody}
    (hrun : readClassRest owner s = .ok (bodies, s')) :
    ∃ opening u v closing, expect (.mark .leftBrace) s = .ok (opening, u) ∧
      readMembers owner u.tokens.length u = .ok (bodies, v) ∧
      expect (.mark .rightBrace) v = .ok (closing, s') := by
  obtain ⟨_, u, hopen, hrun⟩ := run_bind.mp hrun
  obtain ⟨opening, hopen⟩ := run_discard.mp hopen
  obtain ⟨n, w, hn, hrun⟩ := run_bind.mp hrun
  cases hn
  obtain ⟨bodies, v, hbodies, hrun⟩ := run_bind.mp hrun
  obtain ⟨_, w, hclose, hrun⟩ := run_bind.mp hrun
  cases hrun
  obtain ⟨closing, hclose⟩ := run_discard.mp hclose
  exact ⟨opening, u, v, closing, hopen, hbodies, hclose⟩

theorem fallen_readClassRest {owner : ClassId} {bodies : List PendingBody} (hs : Ready s)
    (hrun : readClassRest owner s = .ok (bodies, s')) : Fallen s bodies s' := by
  obtain ⟨opening, u, v, closing, hopen, hbodies, hclose⟩ := readClassRest_cases hrun
  have hu := (fallen_expectOr hs (by rintro ⟨⟩) hopen).1
  have hv := fallen_readMembers hu.ready hbodies
  have hw := (fallen_expectOr hv.ready (by rintro ⟨⟩) hclose).1
  simpa using hu.append (hv.append hw)

theorem fallen_readClass {bodies : List PendingBody} (hs : Ready s)
    (hrun : readClass s = .ok (bodies, s')) :
    Fallen s bodies s' ∧ s'.tokens.length < s.tokens.length := by
  obtain ⟨owner, u, hhead, hrest⟩ := run_bind.mp hrun
  obtain ⟨hu, hless, -⟩ := fallen_of_mirrors (twins_readClassHead (parallel_twin _)) hs hhead
  have hrest := fallen_readClassRest hu.ready hrest
  exact ⟨hu.append hrest, Nat.lt_of_le_of_lt hrest.tokens.length_le hless⟩

/-- Reading classes ends before the next one, or reads it and goes on. -/
theorem readClasses_cases {n : Nat} {bodies : List PendingBody}
    (hrun : readClasses (n + 1) s = .ok (bodies, s')) :
    (bodies = [] ∧ s' = s) ∨ ∃ first u later, readClass s = .ok (first, u) ∧
      readClasses n u = .ok (later, s') ∧ bodies = first ++ later := by
  obtain ⟨ended, u, hended, hrun⟩ := run_bind.mp hrun
  cases hended
  split at hrun
  · cases hrun
    exact .inl ⟨rfl, rfl⟩
  · obtain ⟨first, u, hfirst, hrun⟩ := run_bind.mp hrun
    obtain ⟨later, v, hlater, hrun⟩ := run_bind.mp hrun
    cases hrun
    exact .inr ⟨first, u, later, hfirst, hlater, rfl⟩

/-- **The bodies that are left when the classes have been read** follow each other in the text. -/
theorem fallen_readClasses {n : Nat} {bodies : List PendingBody} (hs : Ready s)
    (hrun : readClasses n s = .ok (bodies, s')) : Fallen s bodies s' := by
  induction n generalizing s bodies with
  | zero =>
    cases hrun
    exact hs.fallen
  | succ n ih =>
    obtain ⟨rfl, rfl⟩ | ⟨first, u, later, hfirst, hlater, rfl⟩ := readClasses_cases hrun
    · exact hs.fallen
    · have hu := (fallen_readClass hs hfirst).1
      exact hu.append (ih hu.ready hlater)

/-! ## 3. The same texts but for one block -/

/-- Two texts that each start with a block and go on with the same tokens. -/
def Swap (T T' : List LineToken) : Prop := ∃ line line' inner inner' rest rest',
  T = ⟨.mark .leftBrace, line⟩ :: inner ∧ T' = ⟨.mark .leftBrace, line'⟩ :: inner' ∧
    skipBlock? 1 inner = some rest ∧ skipBlock? 1 inner' = some rest' ∧
    List.Forall₂ SameToken rest rest'

/-- **The texts are the same up to `T` and `T'`**, or, behind the blocks these start with, to the
    end. -/
structure Aligned (T T' ts ts' : List LineToken) : Prop where
  spelled : Spelled ts
  ended : Ended ts
  same : (∃ u u', ts = u ++ T ∧ ts' = u' ++ T' ∧ List.Forall₂ SameToken u u') ∨
    ts.length < T.length ∧ List.Forall₂ SameToken ts ts'

/-- Reading from `s` to `s'` does not stop inside `T`: it starts behind the first token, or stops
    before it, or the block is one of the bodies that are left. -/
def Kept (T : List LineToken) (s : ReaderState) (bodies : List PendingBody) (s' : ReaderState) :
    Prop :=
  s.tokens.length < T.length ∨ T.length ≤ s'.tokens.length ∨ ∃ b ∈ bodies, b.tokens = T

/-- The same block is left, or the one that was swapped. -/
structure PendingMoved (T T' : List LineToken) (b b' : PendingBody) : Prop where
  method : b'.method = b.method
  block : Block b.tokens b'.tokens ∧ b.tokens ≠ T ∨ b.tokens = T ∧ b'.tokens = T'

variable {T T' ts ts' : List LineToken}

theorem Kept.append {s₁ s₂ : ReaderState} {bs cs : List PendingBody} (h : Kept T s (bs ++ cs) s₂)
    (hb : Fallen s bs s₁) (hc : Fallen s₁ cs s₂) : Kept T s bs s₁ ∧ Kept T s₁ cs s₂ := by
  rcases h with h | h | ⟨b, hmem, rfl⟩
  · exact ⟨.inl h, .inl (Nat.lt_of_le_of_lt hb.tokens.length_le h)⟩
  · exact ⟨.inr (.inl (Nat.le_trans h hc.tokens.length_le)), .inr (.inl h)⟩
  · rcases List.mem_append.mp hmem with hmem | hmem
    · exact ⟨.inr (.inr ⟨b, hmem, rfl⟩), .inl (hb.between b hmem).1⟩
    · exact ⟨.inr (.inl (hc.between b hmem).2.1.length_le), .inr (.inr ⟨b, hmem, rfl⟩)⟩

theorem Aligned.cases (hT : Swap T T') (h : Aligned T T' ts ts') :
    ∃ t rest t' rest', ts = t :: rest ∧ ts' = t' :: rest' ∧ SameToken t t' ∧
      (ts.length < T.length ∨ T.length ≤ rest.length → t.token ≠ .endOfFile →
        Aligned T T' rest rest') := by
  obtain ⟨hspelled, hended, ⟨u, u', rfl, rfl, hu⟩ | ⟨hlt, hsame⟩⟩ := h
  · cases hu with
    | nil =>
      obtain ⟨line, line', inner, inner', -, -, rfl, rfl, -⟩ := hT
      refine ⟨_, _, _, _, rfl, rfl, rfl, fun hkept => ?_⟩
      simp at hkept
    | cons htoken hu =>
      exact ⟨_, _, _, _, rfl, rfl, htoken, fun _ hend =>
        ⟨hspelled.tail, hended.tail hend, .inl ⟨_, _, rfl, rfl, hu⟩⟩⟩
  · obtain ⟨t, rest, rfl⟩ := hended.cons
    cases hsame with
    | cons htoken hsame =>
      exact ⟨_, _, _, _, rfl, rfl, htoken, fun _ hend =>
        ⟨hspelled.tail, hended.tail hend, .inr ⟨Nat.lt_of_succ_lt hlt, hsame⟩⟩⟩

theorem parallel_aligned (hT : Swap T T') : Parallel (Aligned T T') := by
  intro ts ts' h
  obtain ⟨t, rest, t', rest', rfl, rfl, htoken, hrest⟩ := h.cases hT
  refine ⟨t, rest, t', rest', rfl, rfl, htoken, h.spelled t List.mem_cons_self, fun hstop => ?_⟩
  refine hrest ?_ fun hend => ?_
  · obtain ⟨u, u', hu, -⟩ | ⟨hlt, -⟩ := h.same
    · cases u with
      | nil =>
        -- the block of `T` starts with a brace
        obtain ⟨line, -, inner, -, -, -, rfl, -⟩ := hT
        cases hu
        cases hstop
      | cons v u =>
        obtain ⟨-, rfl⟩ := List.cons.inj hu
        exact .inr (List.length_append ▸ Nat.le_add_left _ _)
    · exact .inl hlt
  · rw [hend] at hstop
    cases hstop

/-- A body is passed over on both sides: the same one, or the one that was swapped. -/
theorem aligned_skipBody (hT : Swap T T') (h : Aligned T T' s.tokens ts') {body : PendingBody}
    (hbody : body.tokens = s.tokens) (hkept : Kept T s [body] s')
    (hrun : skipBody s = .ok ((), s')) (said' : Diagnostics) :
    ∃ s₁', skipBody ⟨ts', s.program, said'⟩ = .ok ((), s₁') ∧ s₁'.program = s'.program ∧
      Aligned T T' s'.tokens s₁'.tokens ∧ s₁'.tokens.length ≤ ts'.length ∧
      PendingMoved T T' body ⟨body.method, ts'⟩ := by
  obtain ⟨tokens, p, said⟩ := s
  obtain ⟨method, _⟩ := body
  obtain rfl : _ = tokens := hbody
  obtain ⟨line, inner, rest, rfl, hskip, rfl⟩ := skipBody_eq_ok.mp hrun
  have hspelled := h.spelled.tail
  have hended := h.ended.tail (by rintro ⟨⟩)
  have hspelled' : Spelled rest := fun t ht => hspelled t ((skipBlock?_suffix hskip).mem ht)
  have hended' := hended.of_skipBlock? hskip
  -- the same block on both sides
  have hsame : ∀ {c c' rest₁ : List LineToken} {line₁ : Nat}, inner = c ++ rest →
      skipBlock? 1 c = some [] → List.Forall₂ SameToken c c' → Aligned T T' rest rest₁ →
      inner.length + 1 ≠ T.length → ∃ s₁',
        skipBody ⟨⟨.mark .leftBrace, line₁⟩ :: (c' ++ rest₁), p, said'⟩ = .ok ((), s₁') ∧
        s₁'.program = p ∧ Aligned T T' rest s₁'.tokens ∧
        s₁'.tokens.length ≤ (⟨.mark .leftBrace, line₁⟩ :: (c' ++ rest₁) : List LineToken).length ∧
        PendingMoved T T' ⟨method, ⟨.mark .leftBrace, line⟩ :: inner⟩
          ⟨method, ⟨.mark .leftBrace, line₁⟩ :: (c' ++ rest₁)⟩ := by
    intro c c' rest₁ line₁ hinner hc hcc hrest hlen
    refine ⟨⟨rest₁, p, said'⟩, ?_, rfl, hrest, ?_, rfl, .inl ⟨?_, fun heq => hlen ?_⟩⟩
    · rw [skipBody_run, skipBlock?_append (skipBlock?_same hcc hc)]
    · simp only [List.length_cons, List.length_append]
      omega
    · exact ⟨line, line₁, inner, c' ++ rest₁, rfl, rfl, hspelled, c, c', rest, rest₁, hinner, rfl,
        hcc, hc⟩
    · exact congrArg List.length heq
  obtain ⟨c, rfl, hc⟩ := skipBlock?_split hskip
  obtain ⟨u, u', hu, rfl, huu⟩ | ⟨hlt, hall⟩ := h.same
  · cases huu with
    | nil =>
      -- the blocks that were swapped
      obtain ⟨line₀, line₁, inner₀, inner₁, rest₀, rest₁, rfl, rfl, hskip₀, hskip₁, hrest⟩ := hT
      cases hu
      cases hskip.symm.trans hskip₀
      refine ⟨⟨rest₁, p, said'⟩, ?_, rfl, ⟨hspelled', hended', .inr ⟨?_, hrest⟩⟩, ?_, rfl,
        .inr ⟨rfl, rfl⟩⟩
      · rw [List.nil_append, skipBody_run, hskip₁]
      · simp only [List.length_cons, List.length_append]
        omega
      · exact Nat.le_trans (skipBlock?_suffix hskip₁).length_le (Nat.le_succ _)
    | @cons t t' u u' htoken huu =>
      obtain ⟨rfl, htail⟩ := List.cons.inj hu
      obtain ⟨token', line'⟩ := t'
      obtain rfl : token' = .mark .leftBrace := htoken
      -- the block ends in front of `T`
      have hfar : T.length ≤ rest.length := by
        rcases hkept with hkept | hkept | ⟨b, hb, hkept⟩
        · have := congrArg List.length hu
          simp only [List.length_append, List.length_cons] at this hkept
          omega
        · exact hkept
        · obtain rfl := List.mem_singleton.mp hb
          have hkept := congrArg List.length hkept
          have := congrArg List.length hu
          simp only [List.length_append, List.length_cons] at this hkept
          omega
      obtain ⟨w, rfl, rfl⟩ : ∃ w, u = c ++ w ∧ rest = w ++ T := by
        rcases List.append_eq_append_iff.mp htail with ⟨w, rfl, hw⟩ | ⟨w, rfl, hw⟩
        · exact ⟨w, rfl, hw⟩
        · have := congrArg List.length hw
          simp only [List.length_append] at this
          obtain rfl : w = [] := List.length_eq_zero_iff.mp (by omega)
          exact ⟨[], by simp, by simpa using hw.symm⟩
      obtain ⟨c', w', rfl, hcc, hww⟩ := forall₂_split huu
      rw [List.cons_append, List.append_assoc]
      refine hsame rfl hc hcc ⟨hspelled', hended', .inl ⟨w, w', rfl, rfl, hww⟩⟩ ?_
      simp only [List.length_append] at hfar ⊢
      omega
  · cases hall with
    | @cons t t' rest₀ rest₀' htoken hall =>
      obtain ⟨token', line'⟩ := t'
      obtain rfl : token' = .mark .leftBrace := htoken
      obtain ⟨c', rest', rfl, hcc, hrr⟩ := forall₂_split hall
      simp only [List.length_cons, List.length_append] at hlt
      refine hsame rfl hc hcc ⟨hspelled', hended', .inr ⟨by omega, hrr⟩⟩ ?_
      rw [List.length_append]
      exact Nat.ne_of_lt hlt

/-! ## 4. Members and classes -/

theorem aligned_expectOr (hT : Swap T T') (h : Aligned T T' s.tokens ts') {cause : ReadCause}
    {found : LineToken} (ht : t ≠ .endOfFile) (hkept : Kept T s [] s')
    (hrun : expectOr t cause s = .ok (found, s')) (said' : Diagnostics) :
    ∃ found' s₁', expectOr t cause ⟨ts', s.program, said'⟩ = .ok (found', s₁') ∧
      s₁'.program = s'.program ∧ Aligned T T' s'.tokens s₁'.tokens ∧
      s₁'.tokens.length < ts'.length := by
  obtain ⟨tokens, p, said⟩ := s
  obtain ⟨line, rest, rfl, -, rfl⟩ := (expectOr_eq_ok ht).mp hrun
  obtain ⟨_, _, ⟨t', line'⟩, rest', hcons, rfl, htoken, hrest⟩ := h.cases hT
  cases hcons
  obtain rfl : t' = t := htoken
  refine ⟨⟨t', line'⟩, ⟨rest', p, said'⟩, (expectOr_eq_ok ht).mpr ⟨line', rest', rfl, rfl, rfl⟩,
    rfl, hrest ?_ ht, Nat.lt_succ_self _⟩
  rcases hkept with hkept | hkept | ⟨b, hb, -⟩
  · exact .inl hkept
  · exact .inr hkept
  · exact absurd hb List.not_mem_nil

/-- The second text, from `ts'` on, is read to the same declarations as the first one, and the
    bodies `bodies'` are left. -/
def MovedTo (T T' : List LineToken) (bodies : List PendingBody) (s' : ReaderState)
    (ts' : List LineToken) (bodies' : List PendingBody) (s₁' : ReaderState) : Prop :=
  s₁'.program = s'.program ∧ Aligned T T' s'.tokens s₁'.tokens ∧
    s₁'.tokens.length ≤ ts'.length ∧ List.Forall₂ (PendingMoved T T') bodies bodies'

theorem readMember_aligned (hT : Swap T T') {owner : ClassId} {body : Option PendingBody}
    (hs : Ready s) (h : Aligned T T' s.tokens ts') (hkept : Kept T s body.toList s')
    (hrun : readMember owner s = .ok (body, s')) (said' : Diagnostics) :
    ∃ body' s₁', readMember owner ⟨ts', s.program, said'⟩ = .ok (body', s₁') ∧
      s₁'.program = s'.program ∧ Aligned T T' s'.tokens s₁'.tokens ∧
      s₁'.tokens.length < ts'.length ∧
      List.Forall₂ (PendingMoved T T') body.toList body'.toList := by
  obtain ⟨header, u, hhead, hrest⟩ := run_bind.mp hrun
  have hu := (fallen_of_mirrors (mirrors_readMemberHead (parallel_twin _) owner) hs hhead).1
  obtain ⟨header', u', hhead', hholds, -, -, halign, -, hlen, heq, -⟩ :=
    mirrors_readMemberHead (parallel_aligned hT) owner said' ⟨rfl, hs.listed⟩ h hhead
  obtain rfl : header = header' := heq
  obtain ⟨tokens', p', said₁⟩ := u'
  obtain rfl : u.program = p' := hholds.1
  cases header with
  | none =>
    cases hrest
    exact ⟨none, _, run_bind.mpr ⟨none, _, hhead', rfl⟩, rfl, halign, hlen, .nil⟩
  | some header =>
    obtain ⟨method, hasBody⟩ := header
    cases hasBody with
    | true =>
      obtain ⟨_, _, hget, hrest⟩ := run_bind.mp hrest
      cases hget
      obtain ⟨_, _, hskip, hrest⟩ := run_bind.mp hrest
      cases hrest
      have hkept' : Kept T u [⟨method, u.tokens⟩] s' := by
        rcases hkept with hkept | hkept | hkept
        · exact .inl (Nat.lt_of_le_of_lt hu.tokens.length_le hkept)
        · exact .inr (.inl hkept)
        · exact .inr (.inr hkept)
      obtain ⟨v', hskip', hsame, halign', hlen', hmoved⟩ :=
        aligned_skipBody hT halign rfl hkept' hskip said₁
      refine ⟨some ⟨method, tokens'⟩, v', run_bind.mpr ⟨some (method, true), _, hhead', ?_⟩, hsame,
        halign', Nat.lt_of_le_of_lt hlen' hlen, .cons hmoved .nil⟩
      exact run_bind.mpr ⟨_, _, rfl, run_bind.mpr ⟨(), v', hskip', rfl⟩⟩
    | false =>
      obtain ⟨_, _, hsemicolon, hrest⟩ := run_bind.mp hrest
      cases hrest
      obtain ⟨found, hsemicolon⟩ := run_discard.mp hsemicolon
      have hend := (fallen_expectOr hu.ready (by rintro ⟨⟩) hsemicolon).1
      have hkept' : Kept T s ([] ++ []) s' := hkept
      obtain ⟨found', v', hsemicolon', hsame, halign', hlen'⟩ :=
        aligned_expectOr hT halign (by rintro ⟨⟩) (hkept'.append hu hend).2 hsemicolon said₁
      refine ⟨none, v', run_bind.mpr ⟨some (method, false), _, hhead', ?_⟩, hsame, halign',
        Nat.lt_trans hlen' hlen, .nil⟩
      exact run_bind.mpr ⟨(), v', run_discard.mpr ⟨found', hsemicolon'⟩, rfl⟩

theorem readMembers_succ (owner : ClassId) (n : Nat) (s : ReaderState) :
    readMembers owner (n + 1) s =
      if (firstToken s.tokens).token = .mark .rightBrace then .ok ([], s)
      else if (firstToken s.tokens).token = .endOfFile then
        .error (ReadError.report ⟨firstToken s.tokens, .expected (.mark .rightBrace)⟩ s.diagnostics)
      else (do
        let body ← readMember owner
        return body.toList ++ (← readMembers owner n) : Reader (List PendingBody)) s := by
  change (if decide ((firstToken s.tokens).token = .mark .rightBrace) = true then pure []
    else atEnd >>= fun ended => if ended then _ else _ : Reader (List PendingBody)) s = _
  by_cases hclosed : (firstToken s.tokens).token = .mark .rightBrace
  · rw [if_pos hclosed, decide_eq_true hclosed]
    rfl
  · rw [if_neg hclosed, decide_eq_false hclosed]
    change (if decide ((firstToken s.tokens).token = .endOfFile) = true then _ else _ :
      Reader (List PendingBody)) s = _
    by_cases hended : (firstToken s.tokens).token = .endOfFile
    · rw [if_pos hended, decide_eq_true hended]
      rfl
    · rw [if_neg hended, decide_eq_false hended]
      rfl

theorem MovedTo.append {bodies later bodies' later' : List PendingBody} {v s₁ : ReaderState}
    {ts₁ : List LineToken} (h : List.Forall₂ (PendingMoved T T') bodies bodies')
    (hlen : ts₁.length ≤ ts'.length) (h' : MovedTo T T' later v ts₁ later' s₁) :
    MovedTo T T' (bodies ++ later) v ts' (bodies' ++ later') s₁ :=
  ⟨h'.1, h'.2.1, Nat.le_trans h'.2.2.1 hlen, List.rel_append h h'.2.2.2⟩

theorem readMembers_aligned (hT : Swap T T') {owner : ClassId} {n n' : Nat}
    {bodies : List PendingBody} (hs : Ready s) (h : Aligned T T' s.tokens ts')
    (hn : s.tokens.length ≤ n) (hn' : ts'.length ≤ n') (hkept : Kept T s bodies s')
    (hrun : readMembers owner n s = .ok (bodies, s')) (said' : Diagnostics) :
    ∃ bodies' s₁', readMembers owner n' ⟨ts', s.program, said'⟩ = .ok (bodies', s₁') ∧
      MovedTo T T' bodies s' ts' bodies' s₁' := by
  induction n generalizing s ts' n' bodies said' with
  | zero =>
    obtain ⟨t, rest, hcons⟩ := hs.ended.cons
    rw [hcons] at hn
    exact absurd hn (Nat.not_succ_le_zero _)
  | succ n ih =>
    obtain ⟨t, rest, t', rest', hcons, rfl, htoken, -⟩ := h.cases hT
    have hfirst : (firstToken (t' :: rest')).token = (firstToken s.tokens).token := by
      rw [hcons]
      exact htoken
    obtain ⟨n', rfl⟩ : ∃ k, n' = k + 1 :=
      Nat.exists_eq_add_one.mpr (Nat.lt_of_lt_of_le (Nat.succ_pos _) hn')
    rw [readMembers_succ] at hrun ⊢
    rw [hfirst]
    split at hrun
    · rename_i hclosed
      cases hrun
      rw [if_pos hclosed]
      exact ⟨[], _, rfl, rfl, h, Nat.le_refl _, .nil⟩
    · rename_i hclosed
      split at hrun
      · cases hrun
      · rename_i hended
        rw [if_neg hclosed, if_neg hended]
        obtain ⟨body, u, hbody, hrun⟩ := run_bind.mp hrun
        obtain ⟨later, v, hlater, hrun⟩ := run_bind.mp hrun
        cases hrun
        obtain ⟨hu, hless⟩ := fallen_readMember hs hbody
        obtain ⟨hkept, hkept'⟩ := hkept.append hu (fallen_readMembers hu.ready hlater)
        obtain ⟨body', u', hbody', hsame, halign, hlen, hmoved⟩ :=
          readMember_aligned hT hs h hkept hbody said'
        obtain ⟨later', v', hlater', hmoved'⟩ := ih hu.ready halign
          (Nat.le_of_lt_succ (Nat.lt_of_lt_of_le hless hn))
          (Nat.le_of_lt_succ (Nat.lt_of_lt_of_le hlen hn')) hkept' hlater u'.diagnostics
        refine ⟨body'.toList ++ later', v', ?_, hmoved'.append hmoved (Nat.le_of_lt hlen)⟩
        obtain ⟨tokens', p', said₁⟩ := u'
        obtain rfl : p' = u.program := hsame
        exact run_bind.mpr ⟨body', _, hbody', run_bind.mpr ⟨later', v', hlater', rfl⟩⟩

theorem readClassRest_aligned (hT : Swap T T') {owner : ClassId} {bodies : List PendingBody}
    (hs : Ready s) (h : Aligned T T' s.tokens ts') (hkept : Kept T s bodies s')
    (hrun : readClassRest owner s = .ok (bodies, s')) (said' : Diagnostics) :
    ∃ bodies' s₁', readClassRest owner ⟨ts', s.program, said'⟩ = .ok (bodies', s₁') ∧
      MovedTo T T' bodies s' ts' bodies' s₁' := by
  obtain ⟨opening, u, v, closing, hopen, hbodies, hclose⟩ := readClassRest_cases hrun
  have hu := (fallen_expectOr hs (by rintro ⟨⟩) hopen).1
  have hv := fallen_readMembers hu.ready hbodies
  have hw := (fallen_expectOr hv.ready (by rintro ⟨⟩) hclose).1
  have hkept : Kept T s ([] ++ (bodies ++ [])) s' := by simpa using hkept
  obtain ⟨hkept₁, hkept⟩ := hkept.append hu (hv.append hw)
  obtain ⟨hkept₂, hkept₃⟩ := hkept.append hv hw
  obtain ⟨opening', ⟨ts₁, p₁, said₁⟩, hopen', hsame₁, halign₁, hlen₁⟩ :=
    aligned_expectOr hT h (by rintro ⟨⟩) hkept₁ hopen said'
  obtain rfl : p₁ = u.program := hsame₁
  obtain ⟨bodies', ⟨ts₂, p₂, said₂⟩, hbodies', hsame₂, halign₂, hlen₂, hmoved⟩ :=
    readMembers_aligned hT hu.ready halign₁ (Nat.le_refl _) (Nat.le_refl _) hkept₂ hbodies said₁
  obtain rfl : p₂ = v.program := hsame₂
  obtain ⟨closing', s₁', hclose', hsame₃, halign₃, hlen₃⟩ :=
    aligned_expectOr hT halign₂ (by rintro ⟨⟩) hkept₃ hclose said₂
  refine ⟨bodies', s₁', ?_, hsame₃, halign₃, ?_, hmoved⟩
  · refine run_bind.mpr ⟨(), _, run_discard.mpr ⟨opening', hopen'⟩, ?_⟩
    refine run_bind.mpr ⟨_, _, rfl, run_bind.mpr ⟨bodies', _, hbodies', ?_⟩⟩
    exact run_bind.mpr ⟨(), s₁', run_discard.mpr ⟨closing', hclose'⟩, rfl⟩
  · exact Nat.le_of_lt (Nat.lt_trans hlen₃ (Nat.lt_of_le_of_lt hlen₂ hlen₁))

theorem readClass_aligned (hT : Swap T T') {bodies : List PendingBody} (hs : Ready s)
    (h : Aligned T T' s.tokens ts') (hkept : Kept T s bodies s')
    (hrun : readClass s = .ok (bodies, s')) (said' : Diagnostics) :
    ∃ bodies' s₁', readClass ⟨ts', s.program, said'⟩ = .ok (bodies', s₁') ∧
      s₁'.program = s'.program ∧ Aligned T T' s'.tokens s₁'.tokens ∧
      s₁'.tokens.length < ts'.length ∧ List.Forall₂ (PendingMoved T T') bodies bodies' := by
  obtain ⟨owner, u, hhead, hrest⟩ := run_bind.mp hrun
  have hu := (fallen_of_mirrors (twins_readClassHead (parallel_twin _)) hs hhead).1
  obtain ⟨owner', ⟨tokens', p', said₁⟩, hhead', hholds, -, -, halign, -, hlen, heq⟩ :=
    twins_readClassHead (parallel_aligned hT) said' ⟨rfl, hs.listed⟩ h hhead
  obtain rfl : owner = owner' := heq
  obtain rfl : u.program = p' := hholds.1
  have hkept : Kept T s ([] ++ bodies) s' := hkept
  obtain ⟨bodies', s₁', hrest', hsame, halign', hlen', hmoved⟩ :=
    readClassRest_aligned hT hu.ready halign
      (hkept.append hu (fallen_readClassRest hu.ready hrest)).2 hrest said₁
  exact ⟨bodies', s₁', run_bind.mpr ⟨owner, _, hhead', hrest'⟩, hsame, halign',
    Nat.lt_of_le_of_lt hlen' hlen, hmoved⟩

theorem readClasses_succ (n : Nat) (s : ReaderState) :
    readClasses (n + 1) s =
      if (firstToken s.tokens).token = .endOfFile then .ok ([], s)
      else (do
        let bodies ← readClass
        return bodies ++ (← readClasses n) : Reader (List PendingBody)) s := by
  change (if decide ((firstToken s.tokens).token = .endOfFile) = true then pure []
    else _ : Reader (List PendingBody)) s = _
  by_cases hended : (firstToken s.tokens).token = .endOfFile
  · rw [if_pos hended, decide_eq_true hended]
    rfl
  · rw [if_neg hended, decide_eq_false hended]
    rfl

/-- **Swapping one body leaves the declarations as they are**, and the other bodies. -/
theorem readClasses_aligned (hT : Swap T T') {n n' : Nat} {bodies : List PendingBody} (hs : Ready s)
    (h : Aligned T T' s.tokens ts') (hn : s.tokens.length ≤ n) (hn' : ts'.length ≤ n')
    (hkept : Kept T s bodies s') (hrun : readClasses n s = .ok (bodies, s')) (said' : Diagnostics) :
    ∃ bodies' s₁', readClasses n' ⟨ts', s.program, said'⟩ = .ok (bodies', s₁') ∧
      MovedTo T T' bodies s' ts' bodies' s₁' := by
  induction n generalizing s ts' n' bodies said' with
  | zero =>
    obtain ⟨t, rest, hcons⟩ := hs.ended.cons
    rw [hcons] at hn
    exact absurd hn (Nat.not_succ_le_zero _)
  | succ n ih =>
    obtain ⟨t, rest, t', rest', hcons, rfl, htoken, -⟩ := h.cases hT
    have hfirst : (firstToken (t' :: rest')).token = (firstToken s.tokens).token := by
      rw [hcons]
      exact htoken
    obtain ⟨n', rfl⟩ : ∃ k, n' = k + 1 :=
      Nat.exists_eq_add_one.mpr (Nat.lt_of_lt_of_le (Nat.succ_pos _) hn')
    rw [readClasses_succ] at hrun ⊢
    rw [hfirst]
    split at hrun
    · rename_i hended
      cases hrun
      rw [if_pos hended]
      exact ⟨[], _, rfl, rfl, h, Nat.le_refl _, .nil⟩
    · rename_i hended
      rw [if_neg hended]
      obtain ⟨first, u, hclass, hrun⟩ := run_bind.mp hrun
      obtain ⟨later, v, hlater, hrun⟩ := run_bind.mp hrun
      cases hrun
      obtain ⟨hu, hless⟩ := fallen_readClass hs hclass
      obtain ⟨hkept, hkept'⟩ := hkept.append hu (fallen_readClasses hu.ready hlater)
      obtain ⟨first', ⟨tokens', p', said₁⟩, hclass', hsame, halign, hlen, hmoved⟩ :=
        readClass_aligned hT hs h hkept hclass said'
      obtain rfl : p' = u.program := hsame
      obtain ⟨later', v', hlater', hmoved'⟩ := ih hu.ready halign
        (Nat.le_of_lt_succ (Nat.lt_of_lt_of_le hless hn))
        (Nat.le_of_lt_succ (Nat.lt_of_lt_of_le hlen hn')) hkept' hlater said₁
      refine ⟨first' ++ later', v', ?_, hmoved'.append hmoved (Nat.le_of_lt hlen)⟩
      exact run_bind.mpr ⟨first', _, hclass', run_bind.mpr ⟨later', v', hlater', rfl⟩⟩

end Reader

end ObjectFlow
