/-
  File:      ObjectFlow/Proofs/Program/Reading.lean
  Subject:   WHAT A READER ESTABLISHES ABOUT THE PROGRAM IT READS.

  A text is read in phases. A phase says what holds of the program all along and how the program
  may change; `Reads` says of one reader that it stays within the phase and that what it gives is
  right for the program it leaves behind. Facts about the program before a reader are carried
  over by the way it may change.

  * `Reads.bind`, `Reads.after`, `reads_guard`: readers one after the other;
  * `reads_commas`: readers in a list;
  * one lemma for each of the readers that both phases share.
-/
import ObjectFlow.Program.Reader
import ObjectFlow.Proofs.Program.Coherence

namespace ObjectFlow

/-! ## 1. Phases -/

/-- What holds of a program while part of a text is read, and how the program may change. -/
structure Phase where
  Holds : Program → Prop
  To : Program → Program → Prop
  refl : ∀ p, To p p
  trans : ∀ {p q r}, To p q → To q r → To p r

/-- The phase in which the program stays as it is. -/
def Phase.still : Phase where
  Holds _ := True
  To p q := q = p
  refl _ := rfl
  trans h h' := h'.trans h

/-- In the phase classes and subsignatures may be mentioned for the first time. -/
structure Phase.Mentions (φ : Phase) : Prop where
  internClass : ∀ {p}, φ.Holds p → ∀ name,
    φ.Holds (p.internClass name).2 ∧ φ.To p (p.internClass name).2
  internSubsig : ∀ {p}, φ.Holds p → ∀ text,
    φ.Holds (p.internSubsig text).2 ∧ φ.To p (p.internSubsig text).2

namespace Reader

/-- All names and signatures are spelled as the lexer spells them. -/
def Spelled (tokens : List LineToken) : Prop := ∀ t ∈ tokens, t.token.Spelled

variable {α β : Type} {φ : Phase} {p : Program}

/-- **A run of the reader on the program `p` stays in the phase**, and its result satisfies `post`
    in the program it leaves behind. -/
def Reads (φ : Phase) (p : Program) (r : Reader α) (post : Program → α → Prop) : Prop :=
  ∀ ⦃tokens d a s⦄, φ.Holds p → Spelled tokens → r ⟨tokens, p, d⟩ = .ok (a, s) →
    φ.Holds s.program ∧ φ.To p s.program ∧ Spelled s.tokens ∧ post s.program a

/-- The reader leaves the program `p` as it is. -/
abbrev Peeks (p : Program) (r : Reader α) (post : α → Prop) : Prop :=
  Reads .still p r fun _ a => post a

/-! ## 2. Readers one after the other -/

theorem run_bind {r : Reader α} {f : α → Reader β} {s t : ReaderState} {b : β} :
    (r >>= f) s = .ok (b, t) ↔ ∃ a u, r s = .ok (a, u) ∧ f a u = .ok (b, t) := by
  change (r s >>= fun x => f x.1 x.2) = _ ↔ _
  constructor
  · intro h
    cases hr : r s with
    | error e =>
      rw [hr] at h
      cases h
    | ok x =>
      rw [hr] at h
      exact ⟨x.1, x.2, rfl, h⟩
  · intro ⟨a, u, hr, hf⟩
    rw [hr]
    exact hf

theorem reads_pure {a : α} {post : Program → α → Prop} (h : post p a) : Reads φ p (pure a) post := by
  intro tokens d b s hp ht hrun
  cases hrun
  exact ⟨hp, φ.refl p, ht, h⟩

theorem reads_fail {found : LineToken} {cause : ReadCause} {post : Program → α → Prop} :
    Reads φ p (fail found cause) post := by
  intro tokens d a s _ _ hrun
  cases hrun

/-- What holds in the phase may be used. -/
theorem reads_of_holds {r : Reader α} {post : Program → α → Prop}
    (h : φ.Holds p → Reads φ p r post) : Reads φ p r post :=
  fun _ _ _ _ hp => h hp hp

theorem Reads.bind {r : Reader α} {f : α → Reader β} {mid : Program → α → Prop}
    {post : Program → β → Prop} (hr : Reads φ p r mid)
    (hf : ∀ q a, φ.Holds q → φ.To p q → mid q a → Reads φ q (f a) post) :
    Reads φ p (r >>= f) post := by
  intro tokens d b t hp ht hrun
  obtain ⟨a, u, hfirst, hrest⟩ := run_bind.mp hrun
  obtain ⟨hu, hpu, htu, hmid⟩ := hr hp ht hfirst
  obtain ⟨ht, hut, htt, hpost⟩ := hf u.program a hu hpu hmid hu htu hrest
  exact ⟨ht, φ.trans hpu hut, htt, hpost⟩

theorem reads_fail_bind {found : LineToken} {cause : ReadCause} {k : α → Reader β}
    {post : Program → β → Prop} : Reads φ p (fail found cause >>= k) post := by
  have hfail : Reads φ p (fail found cause) fun _ (_ : α) => False := reads_fail
  exact hfail.bind fun _ _ _ _ h => h.elim

/-- A reader that leaves the program alone does so in every phase. -/
theorem Reads.inPhase {r : Reader α} {post : α → Prop} (h : Peeks p r post) :
    Reads φ p r fun q a => q = p ∧ post a := by
  intro tokens d a s hp ht hrun
  obtain ⟨-, hsame, hs, hpost⟩ := h trivial ht hrun
  have hsame : s.program = p := hsame
  exact ⟨hsame ▸ hp, hsame ▸ φ.refl p, hs, hsame, hpost⟩

/-- The reader before `f` leaves the program alone, so that `f` runs on the same program. -/
theorem Reads.after {r : Reader α} {f : α → Reader β} {mid : α → Prop} {post : Program → β → Prop}
    (hr : Peeks p r mid) (hf : ∀ a, mid a → Reads φ p (f a) post) : Reads φ p (r >>= f) post :=
  hr.inPhase.bind fun _ a _ _ h => h.1 ▸ hf a h.2

theorem Reads.mono {r : Reader α} {post post' : Program → α → Prop} (hr : Reads φ p r post)
    (h : ∀ q a, φ.To p q → post q a → post' q a) : Reads φ p r post' := by
  intro tokens d a s hp ht hrun
  obtain ⟨hs, hps, hts, hpost⟩ := hr hp ht hrun
  exact ⟨hs, hps, hts, h _ _ hps hpost⟩

theorem Reads.map {r : Reader α} {post : Program → β → Prop} (f : α → β)
    (hr : Reads φ p r fun q a => post q (f a)) : Reads φ p (f <$> r) post := by
  rw [← bind_pure_comp]
  exact hr.bind fun _ _ _ _ ha => reads_pure ha

/-- The result of a reader may be dropped. -/
theorem Reads.dropped {r : Reader α} {post : Program → α → Prop} (hr : Reads φ p r post) :
    Reads φ p (discard r) fun q _ => ∃ a, post q a :=
  Reads.bind hr fun _ a _ _ ha => reads_pure ⟨a, ha⟩

/-- A check behind which reading goes on. -/
theorem reads_guard {c : Prop} [Decidable c] {found : LineToken} {cause : ReadCause}
    {k : Unit → Reader α} {post : Program → α → Prop} (h : ¬c → Reads φ p (k ()) post) :
    Reads φ p (if c then fail found cause >>= k else k ()) post := by
  split
  · exact reads_fail_bind
  · rename_i hc
    exact h hc

/-! ## 3. Tokens -/

/-- The tokens go on to the end of the text. -/
def Ended (ts : List LineToken) : Prop :=
  ∃ front last, ts = front ++ [last] ∧ last.token = .endOfFile

theorem Ended.tail {t : LineToken} {rest : List LineToken} (h : Ended (t :: rest))
    (ht : t.token ≠ .endOfFile) : Ended rest := by
  obtain ⟨front, last, heq, hlast⟩ := h
  cases front with
  | nil =>
    cases heq
    exact absurd hlast ht
  | cons u front =>
    cases heq
    exact ⟨front, last, rfl, hlast⟩

theorem Ended.cons {ts : List LineToken} (h : Ended ts) : ∃ t rest, ts = t :: rest := by
  obtain ⟨front, last, rfl, -⟩ := h
  cases front with
  | nil => exact ⟨last, [], rfl⟩
  | cons t front => exact ⟨t, front ++ [last], rfl⟩

theorem Ended.of_skipBlock? {depth : Nat} {ts rest : List LineToken} (h : Ended ts)
    (hskip : skipBlock? depth ts = some rest) : Ended rest := by
  fun_induction skipBlock? depth ts with
  | case1 ts =>
    cases hskip
    exact h
  | case2 => cases hskip
  | case3 => cases hskip
  | case4 depth t later ht ih => exact ih (h.tail (by rw [ht]; rintro ⟨⟩)) hskip
  | case5 depth t later ht ih => exact ih (h.tail (by rw [ht]; rintro ⟨⟩)) hskip
  | case6 depth t later hend _ _ ih => exact ih (h.tail hend) hskip

theorem skipBlock?_suffix {depth : Nat} {tokens rest : List LineToken}
    (h : skipBlock? depth tokens = some rest) : rest <:+ tokens := by
  fun_induction skipBlock? depth tokens with
  | case1 tokens =>
    cases h
    exact List.suffix_refl _
  | case2 => cases h
  | case3 => cases h
  | case4 depth t later _ ih => exact (ih h).trans (List.suffix_cons t later)
  | case5 depth t later _ ih => exact (ih h).trans (List.suffix_cons t later)
  | case6 depth t later _ _ _ ih => exact (ih h).trans (List.suffix_cons t later)

theorem spelled_firstToken {tokens : List LineToken} (h : Spelled tokens) :
    (firstToken tokens).token.Spelled := by
  cases tokens with
  | nil => trivial
  | cons t rest => exact h t List.mem_cons_self

theorem Spelled.dropToken {tokens : List LineToken} (h : Spelled tokens) :
    Spelled (dropToken tokens) := by
  cases tokens with
  | nil => exact h
  | cons t rest =>
    rw [Reader.dropToken]
    split
    · exact h
    · exact fun u hu => h u (List.mem_cons_of_mem t hu)

theorem peeks_peek : Peeks p peek fun t => t.token.Spelled := by
  intro tokens d a s _ ht hrun
  cases hrun
  exact ⟨trivial, rfl, ht, spelled_firstToken ht⟩

theorem peeks_advance : Peeks p advance fun t => t.token.Spelled := by
  intro tokens d a s _ ht hrun
  cases hrun
  exact ⟨trivial, rfl, ht.dropToken, spelled_firstToken ht⟩

theorem peeks_check (t : Token) : Peeks p (check t) fun _ => True :=
  peeks_peek.after fun _ _ => reads_pure trivial

theorem peeks_checkSecond (t : Token) : Peeks p (checkSecond t) fun _ => True := by
  intro tokens d a s _ ht hrun
  cases hrun
  exact ⟨trivial, rfl, ht, trivial⟩

theorem peeks_atEnd : Peeks p atEnd fun _ => True := peeks_check _

theorem peeks_remaining : Peeks p remaining fun _ => True := by
  intro tokens d a s _ ht hrun
  cases hrun
  exact ⟨trivial, rfl, ht, trivial⟩

theorem peeks_program : Peeks p program fun q => p = q := by
  intro tokens d a s _ ht hrun
  cases hrun
  exact ⟨trivial, rfl, ht, rfl⟩

theorem peeks_accept (t : Token) : Peeks p (accept t) fun _ => True := by
  refine (peeks_check t).after fun found _ => ?_
  dsimp only
  split
  · exact peeks_advance.dropped.after fun _ _ => reads_pure trivial
  · exact reads_pure trivial

theorem peeks_expectOr (t : Token) (cause : ReadCause) : Peeks p (expectOr t cause) fun _ => True := by
  refine (peeks_check t).after fun found _ => ?_
  split
  · exact peeks_advance.mono fun _ _ _ _ => trivial
  · exact peeks_peek.after fun _ _ => reads_fail

theorem peeks_expect (t : Token) : Peeks p (expect t) fun _ => True := peeks_expectOr t _

/-- A name that is read is the name of the token it is read from. -/
theorem peeks_identifier :
    Peeks p identifier fun x => IsName x.2 := by
  refine peeks_peek.after fun found hfound => ?_
  split
  · rename_i name hname
    rw [hname] at hfound
    exact peeks_advance.after fun _ _ => reads_pure hfound
  · exact reads_fail

/-- What is read with commas between, item by item. -/
theorem reads_commaList {item : Reader α} {post : Program → α → Prop}
    (hkept : ∀ q r a, φ.To q r → post q a → post r a) (hitem : ∀ q, φ.To p q → Reads φ q item post)
    (bound : Nat) : Reads φ p (commaList item bound) fun q items => ∀ a ∈ items, post q a := by
  induction bound generalizing p with
  | zero => exact reads_pure fun a ha => absurd ha List.not_mem_nil
  | succ bound ih =>
    refine (hitem p (φ.refl p)).bind fun q first _ hpq hfirst => ?_
    refine (peeks_accept _).after fun more _ => ?_
    split
    · refine (ih fun r hqr => hitem r (φ.trans hpq hqr)).bind fun r rest _ hqr hrest => ?_
      refine reads_pure fun a ha => ?_
      rcases List.mem_cons.mp ha with rfl | ha
      · exact hkept q r a hqr hfirst
      · exact hrest a ha
    · exact reads_pure fun a ha => List.mem_singleton.mp ha ▸ hfirst

theorem reads_commas {item : Reader α} {post : Program → α → Prop}
    (hkept : ∀ q r a, φ.To q r → post q a → post r a)
    (hitem : ∀ q, φ.To p q → Reads φ q item post) :
    Reads φ p (commas item) fun q items => ∀ a ∈ items, post q a :=
  peeks_remaining.after fun bound _ => reads_commaList hkept hitem bound

/-! ## 4. Changes of the program -/

theorem reads_update {f : Program → α × Program} {post : Program → α → Prop}
    (h : φ.Holds p → φ.Holds (f p).2 ∧ φ.To p (f p).2 ∧ post (f p).2 (f p).1) :
    Reads φ p (update f) post := by
  intro tokens d a s hp ht hrun
  cases hrun
  obtain ⟨hholds, hto, hpost⟩ := h hp
  exact ⟨hholds, hto, ht, hpost⟩

theorem reads_internClass (hφ : φ.Mentions) (name : String) :
    Reads φ p (internClass name) fun q c => c < q.classes.size ∧ (q.classAt c).name = name :=
  reads_update fun hp =>
    ⟨(hφ.internClass hp name).1, (hφ.internClass hp name).2, (p.internClass_spec name).2⟩

theorem reads_internSubsig (hφ : φ.Mentions) (text : String) :
    Reads φ p (update (·.internSubsig text)) fun q s =>
      p.Fills q ∧ s < q.subsigs.size ∧ q.subsigAt s = text :=
  reads_update fun hp =>
    ⟨(hφ.internSubsig hp text).1, (hφ.internSubsig hp text).2, p.internSubsig_spec text⟩

theorem known_arrayOf {ty : Ty} (h : ty.Known p) (n : Nat) : (arrayOf ty n).Known p := by
  induction n with
  | zero => exact h
  | succ n ih => exact ih

theorem Spelled.bracketPairs {tokens : List LineToken} (h : Spelled tokens) :
    Spelled (bracketPairs tokens).2 := by
  fun_induction Reader.bracketPairs tokens with
  | case1 _ _ rest n rest' heq ih =>
    rw [heq] at ih
    exact ih fun t ht => h t (List.mem_cons_of_mem _ (List.mem_cons_of_mem _ ht))
  | case2 => exact h

theorem reads_readBrackets {ty : Ty} (hty : ty.Known p) :
    Reads φ p (readBrackets ty) fun q ty => ty.Known q := by
  intro tokens d a s hp ht hrun
  cases hrun
  exact ⟨hp, φ.refl p, ht.bracketPairs, known_arrayOf hty _⟩

theorem reads_readType (hφ : φ.Mentions) : Reads φ p readType fun q ty => ty.Known q := by
  refine peeks_advance.after fun found hfound => ?_
  dsimp only
  split
  · rename_i t _
    have hknown : (Ty.prim t).Known p := trivial
    exact reads_readBrackets hknown
  · rename_i name hname
    rw [hname] at hfound
    have hname : Reads φ p (Ty.object <$> internClass name) fun q ty => ty.Known q :=
      ((reads_internClass hφ name).mono fun _ _ _ hc => ⟨hc.1, hc.2.symm ▸ hfound⟩).map Ty.object
    exact hname.bind fun _ _ _ _ hty => reads_readBrackets hty
  · exact reads_fail_bind

end Reader

end ObjectFlow
