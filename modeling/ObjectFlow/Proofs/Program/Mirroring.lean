/-
  File:      ObjectFlow/Proofs/Program/Mirroring.lean
  Subject:   TWO TEXTS READ SIDE BY SIDE.

  A text is read, and so is another one that has the same tokens as far as both are looked at.
  `Mirrors` says of two readers: when the first one succeeds, so does the second, and both leave
  programs, tokens and results that correspond. Which programs correspond is given by a `Duo`,
  which tokens do by a relation that is kept token by token (`Parallel`).

  * `Mirrors.bind`, `Mirrors.after`, `mirrors_guard`: readers one after the other;
  * `mirrors_commas`: readers in a list, each side with its own bound;
  * one lemma for each of the readers that declarations and bodies share.
-/
import ObjectFlow.Proofs.Program.Reading

namespace ObjectFlow

/-! ## 1. Programs and tokens that correspond -/

/-- The braces and the end, which only the readers of blocks pass. -/
def Token.isStop : Token → Bool
  | .mark .leftBrace | .mark .rightBrace | .endOfFile => true
  | _ => false

/-- What holds of two programs while two texts are read, and how each of them may change. -/
structure Duo where
  Holds : Program → Program → Prop
  To : Program → Program → Prop
  refl : ∀ p, To p p
  trans : ∀ {p q r}, To p q → To q r → To p r

/-- Both programs stay as they are. -/
def Duo.still : Duo where
  Holds _ _ := True
  To p q := q = p
  refl _ := rfl
  trans h h' := h'.trans h

/-- How types correspond that are read on both sides. -/
structure Duo.Types (δ : Duo) (T : Program → Program → Ty → Ty → Prop) : Prop where
  prim : ∀ {p q}, δ.Holds p q → ∀ t, T p q (.prim t) (.prim t)
  object : ∀ {p q}, δ.Holds p q → ∀ {name}, IsName name →
    δ.Holds (p.internClass name).2 (q.internClass name).2 ∧
      δ.To p (p.internClass name).2 ∧ δ.To q (q.internClass name).2 ∧
      T (p.internClass name).2 (q.internClass name).2 (.object (p.internClass name).1)
        (.object (q.internClass name).1)
  array : ∀ {p q ty ty'}, T p q ty ty' → T p q (.array ty) (.array ty')

namespace Reader

/-- A relation between the tokens still to come on both sides. -/
abbrev TokenRel := List LineToken → List LineToken → Prop

/-- **The tokens next to come are the same**, and the relation is kept when they are passed, unless
    it is a brace or the end that is passed. -/
def Parallel (R : TokenRel) : Prop :=
  ∀ ⦃ts ts'⦄, R ts ts' → ∃ t rest t' rest', ts = t :: rest ∧ ts' = t' :: rest' ∧
    t'.token = t.token ∧ t.token.Spelled ∧ (t.token.isStop = false → R rest rest')

/-- The next token is `t`. -/
def At (R : TokenRel) (t : Token) : TokenRel := fun ts ts' => R ts ts' ∧ (firstToken ts).token = t

/-- There are at most that many tokens to come on either side. -/
def Below (R : TokenRel) (n n' : Nat) : TokenRel :=
  fun ts ts' => R ts ts' ∧ ts.length ≤ n ∧ ts'.length ≤ n'

variable {α β α' β' : Type} {δ : Duo} {R R₁ R₂ : TokenRel} {p p' : Program} {j k n n' : Nat}

theorem Parallel.below (hR : Parallel R) (n n' : Nat) : Parallel (Below R n n') := by
  intro ts ts' ⟨h, hn, hn'⟩
  obtain ⟨t, rest, t', rest', rfl, rfl, heq, hspelled, hrest⟩ := hR h
  exact ⟨t, rest, t', rest', rfl, rfl, heq, hspelled, fun hstop => ⟨hrest hstop,
    Nat.le_of_succ_le hn, Nat.le_of_succ_le hn'⟩⟩

/-! ## 2. Readers side by side -/

/-- **When the first reader succeeds, so does the second**: the programs, the tokens that are left
    and the results correspond, and each side has passed at least `k` tokens. -/
def Mirrors (δ : Duo) (R R' : TokenRel) (k : Nat) (p p' : Program) (r : Reader α) (r' : Reader α')
    (post : Program → Program → α → α' → Prop) : Prop :=
  ∀ ⦃tokens tokens' d a s⦄ (d' : Diagnostics), δ.Holds p p' → R tokens tokens' →
    r ⟨tokens, p, d⟩ = .ok (a, s) → ∃ a' s', r' ⟨tokens', p', d'⟩ = .ok (a', s') ∧
      δ.Holds s.program s'.program ∧ δ.To p s.program ∧ δ.To p' s'.program ∧ R' s.tokens s'.tokens ∧
      s.tokens.length + k ≤ tokens.length ∧ s'.tokens.length + k ≤ tokens'.length ∧
      post s.program s'.program a a'

/-- Readers that correspond and leave their programs alone. -/
abbrev Glances (R R' : TokenRel) (k : Nat) (p p' : Program) (r : Reader α) (r' : Reader α')
    (post : α → α' → Prop) : Prop :=
  Mirrors .still R R' k p p' r r' fun _ _ a a' => post a a'

theorem mirrors_pure {a : α} {a' : α'} {post : Program → Program → α → α' → Prop}
    (h : post p p' a a') : Mirrors δ R R 0 p p' (pure a) (pure a') post := by
  intro tokens tokens' d b s d' hp hR hrun
  cases hrun
  exact ⟨a', ⟨tokens', p', d'⟩, rfl, hp, δ.refl p, δ.refl p', hR, Nat.le_refl _, Nat.le_refl _, h⟩

theorem mirrors_fail {found : LineToken} {cause : ReadCause} {r' : Reader α'}
    {post : Program → Program → α → α' → Prop} :
    Mirrors δ R R₁ k p p' (fail found cause) r' post := by
  intro tokens tokens' d a s d' _ _ hrun
  cases hrun

theorem mirrors_fail_bind {found : LineToken} {cause : ReadCause} {f : α → Reader β}
    {r' : Reader β'} {post : Program → Program → β → β' → Prop} :
    Mirrors δ R R₁ k p p' (fail found cause >>= f) r' post := by
  intro tokens tokens' d a s d' _ _ hrun
  cases hrun

/-- What holds of the programs may be used. -/
theorem mirrors_of_holds {r : Reader α} {r' : Reader α'}
    {post : Program → Program → α → α' → Prop}
    (h : δ.Holds p p' → Mirrors δ R R₁ k p p' r r' post) : Mirrors δ R R₁ k p p' r r' post :=
  fun _ _ _ _ _ _ hp => h hp _ hp

/-- One reader after another: each passes its tokens. -/
theorem Mirrors.bindBoth {r : Reader α} {r' : Reader α'} {f : α → Reader β} {f' : α' → Reader β'}
    {mid : Program → Program → α → α' → Prop} {post : Program → Program → β → β' → Prop}
    (hr : Mirrors δ R R₁ j p p' r r' mid)
    (hf : ∀ q q' a a', δ.Holds q q' → δ.To p q → δ.To p' q' → mid q q' a a' →
      Mirrors δ R₁ R₂ k q q' (f a) (f' a') post) :
    Mirrors δ R R₂ (j + k) p p' (r >>= f) (r' >>= f') post := by
  intro tokens tokens' d b t d' hp hR hrun
  obtain ⟨a, u, hfirst, hrest⟩ := run_bind.mp hrun
  obtain ⟨a', u', hfirst', hu, hpu, hpu', hR₁, hlen, hlen', hmid⟩ := hr d' hp hR hfirst
  obtain ⟨b', t', hrest', ht, hut, hut', hR₂, hlen₂, hlen₂', hpost⟩ :=
    hf u.program u'.program a a' hu hpu hpu' hmid u'.diagnostics hu hR₁ hrest
  exact ⟨b', t', run_bind.mpr ⟨a', u', hfirst', hrest'⟩, ht, δ.trans hpu hut, δ.trans hpu' hut',
    hR₂, by omega, by omega, hpost⟩

/-- Fewer tokens may be counted than were passed. -/
theorem Mirrors.relax {r : Reader α} {r' : Reader α'} {post : Program → Program → α → α' → Prop}
    (hr : Mirrors δ R R₁ k p p' r r' post) (h : j ≤ k) : Mirrors δ R R₁ j p p' r r' post := by
  intro tokens tokens' d a s d' hp hR hrun
  obtain ⟨a', s', hrun', hs, hto, hto', hR₁, hlen, hlen', hpost⟩ := hr d' hp hR hrun
  exact ⟨a', s', hrun', hs, hto, hto', hR₁, by omega, by omega, hpost⟩

/-- The tokens that the second of two readers passes are counted. -/
theorem Mirrors.bind {r : Reader α} {r' : Reader α'} {f : α → Reader β} {f' : α' → Reader β'}
    {mid : Program → Program → α → α' → Prop} {post : Program → Program → β → β' → Prop}
    (hr : Mirrors δ R R₁ j p p' r r' mid)
    (hf : ∀ q q' a a', δ.Holds q q' → δ.To p q → δ.To p' q' → mid q q' a a' →
      Mirrors δ R₁ R₂ k q q' (f a) (f' a') post) :
    Mirrors δ R R₂ k p p' (r >>= f) (r' >>= f') post :=
  (hr.bindBoth hf).relax (Nat.le_add_left k j)

/-- The tokens that the first of two readers passes may be counted. -/
theorem Mirrors.bindFirst {r : Reader α} {r' : Reader α'} {f : α → Reader β} {f' : α' → Reader β'}
    {mid : Program → Program → α → α' → Prop} {post : Program → Program → β → β' → Prop}
    (hr : Mirrors δ R R₁ k p p' r r' mid)
    (hf : ∀ q q' a a', δ.Holds q q' → δ.To p q → δ.To p' q' → mid q q' a a' →
      Mirrors δ R₁ R₂ 0 q q' (f a) (f' a') post) :
    Mirrors δ R R₂ k p p' (r >>= f) (r' >>= f') post :=
  hr.bindBoth hf

/-- Readers that leave their programs alone do so whatever programs correspond. -/
theorem Mirrors.inDuo {r : Reader α} {r' : Reader α'} {post : α → α' → Prop}
    (h : Glances R R₁ k p p' r r' post) :
    Mirrors δ R R₁ k p p' r r' fun q q' a a' => q = p ∧ q' = p' ∧ post a a' := by
  intro tokens tokens' d a s d' hp hR hrun
  obtain ⟨a', s', hrun', -, hsame, hsame', hR₁, hlen, hlen', hpost⟩ := h d' trivial hR hrun
  have hsame : s.program = p := hsame
  have hsame' : s'.program = p' := hsame'
  refine ⟨a', s', hrun', ?_, ?_, ?_, hR₁, hlen, hlen', hsame, hsame', hpost⟩
  · rw [hsame, hsame']
    exact hp
  · rw [hsame]
    exact δ.refl p
  · rw [hsame']
    exact δ.refl p'

theorem Mirrors.after {r : Reader α} {r' : Reader α'} {f : α → Reader β} {f' : α' → Reader β'}
    {mid : α → α' → Prop} {post : Program → Program → β → β' → Prop}
    (hr : Glances R R₁ j p p' r r' mid)
    (hf : ∀ a a', mid a a' → Mirrors δ R₁ R₂ k p p' (f a) (f' a') post) :
    Mirrors δ R R₂ k p p' (r >>= f) (r' >>= f') post := by
  refine hr.inDuo.bind fun q q' a a' _ _ _ h => ?_
  obtain ⟨rfl, rfl, hmid⟩ := h
  exact hf a a' hmid

theorem Mirrors.afterFirst {r : Reader α} {r' : Reader α'} {f : α → Reader β} {f' : α' → Reader β'}
    {mid : α → α' → Prop} {post : Program → Program → β → β' → Prop}
    (hr : Glances R R₁ k p p' r r' mid)
    (hf : ∀ a a', mid a a' → Mirrors δ R₁ R₂ 0 p p' (f a) (f' a') post) :
    Mirrors δ R R₂ k p p' (r >>= f) (r' >>= f') post := by
  refine hr.inDuo.bindFirst fun q q' a a' _ _ _ h => ?_
  obtain ⟨rfl, rfl, hmid⟩ := h
  exact hf a a' hmid

theorem Mirrors.mono {r : Reader α} {r' : Reader α'} {post post' : Program → Program → α → α' → Prop}
    (hr : Mirrors δ R R₁ k p p' r r' post)
    (h : ∀ q q' a a', δ.To p q → δ.To p' q' → post q q' a a' → post' q q' a a') :
    Mirrors δ R R₁ k p p' r r' post' := by
  intro tokens tokens' d a s d' hp hR hrun
  obtain ⟨a', s', hrun', hs, hto, hto', hR₁, hlen, hlen', hpost⟩ := hr d' hp hR hrun
  exact ⟨a', s', hrun', hs, hto, hto', hR₁, hlen, hlen', h _ _ _ _ hto hto' hpost⟩

/-- More may be known of the tokens than a reader needs. -/
theorem Mirrors.pre {r : Reader α} {r' : Reader α'} {post : Program → Program → α → α' → Prop}
    (hr : Mirrors δ R R₂ k p p' r r' post) (h : ∀ ts ts', R₁ ts ts' → R ts ts') :
    Mirrors δ R₁ R₂ k p p' r r' post :=
  fun _ _ _ _ _ d' hp hR => hr d' hp (h _ _ hR)

/-- Bounds for the tokens to come go down with the tokens that are passed. -/
theorem Mirrors.below {r : Reader α} {r' : Reader α'} {post : Program → Program → α → α' → Prop}
    (hr : Mirrors δ R R₁ k p p' r r' post) (n n' : Nat) :
    Mirrors δ (Below R (n + k) (n' + k)) (Below R₁ n n') k p p' r r' post := by
  intro tokens tokens' d a s d' hp ⟨hR, hn, hn'⟩ hrun
  obtain ⟨a', s', hrun', hs, hto, hto', hR₁, hlen, hlen', hpost⟩ := hr d' hp hR hrun
  exact ⟨a', s', hrun', hs, hto, hto', ⟨hR₁, by omega, by omega⟩, hlen, hlen', hpost⟩

/-- Some token is always to come. -/
theorem mirrors_below_zero (hR : Parallel R) (h : n = 0 ∨ n' = 0) {r : Reader α} {r' : Reader α'}
    {post : Program → Program → α → α' → Prop} :
    Mirrors δ (Below R n n') R₁ k p p' r r' post := by
  intro tokens tokens' d a s d' _ ⟨htokens, hn, hn'⟩ _
  obtain ⟨t, rest, t', rest', rfl, rfl, -⟩ := hR htokens
  rcases h with rfl | rfl
  · exact absurd hn (Nat.not_succ_le_zero _)
  · exact absurd hn' (Nat.not_succ_le_zero _)

theorem Mirrors.map {r : Reader α} {r' : Reader α'} {post : Program → Program → β → β' → Prop}
    (f : α → β) (f' : α' → β')
    (hr : Mirrors δ R R₁ k p p' r r' fun q q' a a' => post q q' (f a) (f' a')) :
    Mirrors δ R R₁ k p p' (f <$> r) (f' <$> r') post := by
  rw [← bind_pure_comp, ← bind_pure_comp]
  exact hr.bindFirst fun _ _ _ _ _ _ _ h => mirrors_pure h

theorem Mirrors.dropped {r : Reader α} {r' : Reader α'} {post : Program → Program → α → α' → Prop}
    (hr : Mirrors δ R R₁ k p p' r r' post) :
    Mirrors δ R R₁ k p p' (discard r) (discard r') fun q q' _ _ => ∃ a a', post q q' a a' :=
  Mirrors.bindFirst hr fun _ _ a a' _ _ _ h => mirrors_pure ⟨a, a', h⟩

/-- A check behind which reading goes on. -/
theorem mirrors_guard {c c' : Prop} [Decidable c] [Decidable c'] {found found' : LineToken}
    {cause cause' : ReadCause} {f : Unit → Reader α} {f' : Unit → Reader α'}
    {post : Program → Program → α → α' → Prop} (hcc : ¬c → ¬c')
    (h : ¬c → Mirrors δ R R₁ k p p' (f ()) (f' ()) post) :
    Mirrors δ R R₁ k p p' (if c then fail found cause >>= f else f ())
      (if c' then fail found' cause' >>= f' else f' ()) post := by
  split
  · exact mirrors_fail_bind
  · rename_i hc
    rw [if_neg (hcc hc)]
    exact h hc

/-! ## 3. Tokens -/

theorem dropToken_cons {t : LineToken} (h : t.token.isStop = false) (rest : List LineToken) :
    dropToken (t :: rest) = rest := by
  rw [dropToken, if_neg]
  intro heq
  rw [heq] at h
  cases h

/-- The next token is looked at. -/
theorem mirrors_peek {f : LineToken → Reader β} {f' : LineToken → Reader β'}
    {post : Program → Program → β → β' → Prop} (hR : Parallel R)
    (h : ∀ t line line', t.Spelled →
      Mirrors δ (At R t) R₁ k p p' (f ⟨t, line⟩) (f' ⟨t, line'⟩) post) :
    Mirrors δ R R₁ k p p' (peek >>= f) (peek >>= f') post := by
  intro tokens tokens' d b s d' hp htokens hrun
  obtain ⟨⟨t, line⟩, rest, ⟨t', line'⟩, rest', rfl, rfl, heq, hspelled, -⟩ := hR htokens
  obtain rfl : t' = t := heq
  exact h t' line line' hspelled d' hp ⟨htokens, rfl⟩ hrun

/-- A token that is known is passed. -/
theorem glances_advance (hR : Parallel R) {t : Token} (ht : t.isStop = false) :
    Glances (At R t) R 1 p p' advance advance fun a a' => a.token = t ∧ a'.token = t := by
  intro tokens tokens' d a s d' _ ⟨htokens, hfirst⟩ hrun
  obtain ⟨u, rest, u', rest', rfl, rfl, heq, -, hrest⟩ := hR htokens
  have hu : u.token = t := hfirst
  have hu' : u'.token = t := heq.trans hu
  have hdrop := dropToken_cons (hu.symm ▸ ht : u.token.isStop = false) rest
  have hdrop' := dropToken_cons (hu'.symm ▸ ht : u'.token.isStop = false) rest'
  cases hrun
  refine ⟨u', ⟨dropToken (u' :: rest'), p', d'⟩, rfl, trivial, rfl, rfl, ?_, ?_, ?_, hu, hu'⟩
  · rw [hdrop, hdrop']
    exact hrest (hu.symm ▸ ht)
  · rw [hdrop]
    exact Nat.le_refl _
  · rw [hdrop']
    exact Nat.le_refl _

/-- A token is passed that must not be a brace or the end. -/
theorem mirrors_advance {f : LineToken → Reader β} {f' : LineToken → Reader β'}
    {post : Program → Program → β → β' → Prop} (hR : Parallel R)
    (hstop : ∀ t line, t.isStop = true → ∃ found cause, f ⟨t, line⟩ = fail found cause)
    (h : ∀ t line line', t.Spelled → t.isStop = false →
      Mirrors δ R R₁ 0 p p' (f ⟨t, line⟩) (f' ⟨t, line'⟩) post) :
    Mirrors δ R R₁ 1 p p' (advance >>= f) (advance >>= f') post := by
  intro tokens tokens' d b s d' hp htokens hrun
  obtain ⟨⟨t, line⟩, rest, ⟨t', line'⟩, rest', rfl, rfl, heq, hspelled, hrest⟩ := hR htokens
  obtain rfl : t' = t := heq
  have hrun : f ⟨t', line⟩ ⟨dropToken (⟨t', line⟩ :: rest), p, d⟩ = .ok (b, s) := hrun
  cases ht : t'.isStop with
  | true =>
    obtain ⟨found, cause, hfail⟩ := hstop t' line ht
    rw [hfail] at hrun
    cases hrun
  | false =>
    rw [dropToken_cons ht] at hrun
    obtain ⟨b', s', hrun', hs, hto, hto', hR₁, hlen, hlen', hpost⟩ :=
      h t' line line' hspelled ht d' hp (hrest ht) hrun
    refine ⟨b', s', ?_, hs, hto, hto', hR₁, by simpa using hlen, by simpa using hlen', hpost⟩
    change f' ⟨t', line'⟩ ⟨dropToken (⟨t', line'⟩ :: rest'), p', d'⟩ = _
    rw [dropToken_cons (t := ⟨t', line'⟩) ht]
    exact hrun'

theorem glances_check (hR : Parallel R) (t : Token) :
    Glances R R 0 p p' (check t) (check t) fun a a' => a = a' := by
  refine mirrors_peek hR fun u line line' _ => ?_
  exact (mirrors_pure rfl).pre fun _ _ h => h.1

theorem glances_atEnd (hR : Parallel R) :
    Glances R R 0 p p' atEnd atEnd fun a a' => a = a' := glances_check hR _

/-- The next token is the wanted one, or it is not, on both sides. -/
theorem mirrors_check {f : Bool → Reader β} {f' : Bool → Reader β'}
    {post : Program → Program → β → β' → Prop} (hR : Parallel R) {t : Token}
    (htrue : Mirrors δ (At R t) R₁ k p p' (f true) (f' true) post)
    (hfalse : Mirrors δ R R₁ k p p' (f false) (f' false) post) :
    Mirrors δ R R₁ k p p' (check t >>= f) (check t >>= f') post := by
  intro tokens tokens' d b s d' hp htokens hrun
  obtain ⟨u, rest, u', rest', rfl, rfl, heq, -, -⟩ := hR htokens
  have hrun : f (decide (u.token = t)) ⟨u :: rest, p, d⟩ = .ok (b, s) := hrun
  change ∃ b' s', f' (decide (u'.token = t)) ⟨u' :: rest', p', d'⟩ = .ok (b', s') ∧ _
  rw [heq]
  by_cases hu : u.token = t
  · rw [decide_eq_true hu] at hrun ⊢
    exact htrue d' hp ⟨htokens, hu⟩ hrun
  · rw [decide_eq_false hu] at hrun ⊢
    exact hfalse d' hp htokens hrun

theorem accept_bind_eq (t : Token) (f : Bool → Reader β) : (accept t >>= f) =
    (check t >>= fun found => if found then (advance >>= fun _ => f true) else f false) := by
  simp only [accept, bind_assoc]
  congr 1
  funext found
  cases found <;> rfl

/-- A token is passed if it is the wanted one. -/
theorem mirrors_accept {f : Bool → Reader β} {f' : Bool → Reader β'}
    {post : Program → Program → β → β' → Prop} (hR : Parallel R) {t : Token} (ht : t.isStop = false)
    (htrue : Mirrors δ R R₁ 0 p p' (f true) (f' true) post)
    (hfalse : Mirrors δ R R₁ 1 p p' (f false) (f' false) post) :
    Mirrors δ R R₁ 1 p p' (accept t >>= f) (accept t >>= f') post := by
  rw [accept_bind_eq, accept_bind_eq]
  refine mirrors_check hR ?_ hfalse
  exact Mirrors.afterFirst (glances_advance hR ht) fun _ _ _ => htrue

/-- A token is passed if it is the wanted one; then one less is to come. -/
theorem mirrors_accept_below {f : Bool → Reader β} {f' : Bool → Reader β'}
    {post : Program → Program → β → β' → Prop} (hR : Parallel R) {t : Token} (ht : t.isStop = false)
    (htrue : Mirrors δ (Below R n n') R₁ 0 p p' (f true) (f' true) post)
    (hfalse : Mirrors δ (Below R (n + 1) (n' + 1)) R₁ 0 p p' (f false) (f' false) post) :
    Mirrors δ (Below R (n + 1) (n' + 1)) R₁ 0 p p' (accept t >>= f) (accept t >>= f') post := by
  rw [accept_bind_eq, accept_bind_eq]
  refine mirrors_check (hR.below _ _) ?_ hfalse
  have hadvance : Glances (At R t) R 1 p p' advance advance fun _ _ => True :=
    (glances_advance hR ht).mono fun _ _ _ _ _ _ _ => trivial
  exact ((hadvance.below n n').pre fun _ _ h => ⟨⟨h.1.1, h.2⟩, h.1.2⟩).after fun _ _ _ => htrue

theorem glances_accept (hR : Parallel R) {t : Token} (ht : t.isStop = false) :
    Glances R R 0 p p' (accept t) (accept t) fun a a' => a = a' := by
  refine mirrors_check hR ?_ (mirrors_pure rfl)
  exact Mirrors.after (glances_advance hR ht).dropped fun _ _ _ => mirrors_pure rfl

theorem glances_expectOr (hR : Parallel R) {t : Token} (ht : t.isStop = false) (cause : ReadCause) :
    Glances R R 1 p p' (expectOr t cause) (expectOr t cause) fun a a' =>
      a.token = t ∧ a'.token = t := by
  refine mirrors_check hR (glances_advance hR ht) ?_
  exact mirrors_peek hR fun _ _ _ _ => mirrors_fail

theorem glances_expect (hR : Parallel R) {t : Token} (ht : t.isStop = false) :
    Glances R R 1 p p' (expect t) (expect t) fun a a' => a.token = t ∧ a'.token = t :=
  glances_expectOr hR ht _

theorem glances_identifier (hR : Parallel R) :
    Glances R R 1 p p' identifier identifier fun x x' => IsName x.2 ∧ x.2 = x'.2 := by
  refine mirrors_peek hR fun t line line' hspelled => ?_
  cases t with
  | ident name =>
    exact Mirrors.afterFirst (glances_advance hR rfl) fun _ _ _ => mirrors_pure ⟨hspelled, rfl⟩
  | _ => exact mirrors_fail

/-- The number of tokens to come bounds them. -/
theorem mirrors_remaining {f : Nat → Reader β} {f' : Nat → Reader β'}
    {post : Program → Program → β → β' → Prop}
    (h : ∀ n n', Mirrors δ (Below R n n') R₁ k p p' (f n) (f' n') post) :
    Mirrors δ R R₁ k p p' (remaining >>= f) (remaining >>= f') post :=
  fun tokens tokens' _ _ _ d' hp htokens hrun =>
    h tokens.length tokens'.length d' hp ⟨htokens, Nat.le_refl _, Nat.le_refl _⟩ hrun

/-- What is read with commas between, item by item. -/
theorem mirrors_commaList (hR : Parallel R) {item : Reader α} {item' : Reader α'}
    {post : Program → Program → α → α' → Prop}
    (hkept : ∀ q q' r r' a a', δ.To q r → δ.To q' r' → post q q' a a' → post r r' a a')
    (hitem : ∀ q q', δ.To p q → δ.To p' q' → Mirrors δ R R j q q' item item' post) (n n' : Nat) :
    Mirrors δ (Below R n n') R 0 p p' (commaList item n) (commaList item' n')
      fun q q' => List.Forall₂ (post q q') := by
  induction n generalizing n' p p' with
  | zero => exact mirrors_below_zero hR (.inl rfl)
  | succ n ih =>
    cases n' with
    | zero => exact mirrors_below_zero hR (.inr rfl)
    | succ n' =>
      have hfirst := ((hitem p p' (δ.refl p) (δ.refl p')).relax (Nat.zero_le j)).below (n + 1) (n' + 1)
      refine hfirst.bind fun q q' a a' _ hpq hpq' ha => ?_
      refine mirrors_accept_below hR rfl ?_ ?_
      · refine (ih (fun r r' hqr hqr' => hitem r r' (δ.trans hpq hqr) (δ.trans hpq' hqr')) n').bind
          fun r r' items items' _ hqr hqr' hitems => mirrors_pure ?_
        exact .cons (hkept q q' r r' a a' hqr hqr' ha) hitems
      · exact (mirrors_pure (.cons ha .nil)).pre fun _ _ h => h.1

theorem mirrors_commas (hR : Parallel R) {item : Reader α} {item' : Reader α'}
    {post : Program → Program → α → α' → Prop}
    (hkept : ∀ q q' r r' a a', δ.To q r → δ.To q' r' → post q q' a a' → post r r' a a')
    (hitem : ∀ q q', δ.To p q → δ.To p' q' → Mirrors δ R R j q q' item item' post) :
    Mirrors δ R R 0 p p' (commas item) (commas item') fun q q' => List.Forall₂ (post q q') :=
  mirrors_remaining fun n n' => mirrors_commaList hR hkept hitem n n'

/-! ## 4. Programs -/

theorem mirrors_program {f : Program → Reader β} {f' : Program → Reader β'}
    {post : Program → Program → β → β' → Prop} (h : Mirrors δ R R₁ k p p' (f p) (f' p') post) :
    Mirrors δ R R₁ k p p' (program >>= f) (program >>= f') post := h

theorem mirrors_program_left {f : Program → Reader β} {r' : Reader β'}
    {post : Program → Program → β → β' → Prop} (h : Mirrors δ R R₁ k p p' (f p) r' post) :
    Mirrors δ R R₁ k p p' (program >>= f) r' post := h

theorem mirrors_update {f : Program → α × Program} {f' : Program → α' × Program}
    {post : Program → Program → α → α' → Prop}
    (h : δ.Holds p p' → δ.Holds (f p).2 (f' p').2 ∧ δ.To p (f p).2 ∧ δ.To p' (f' p').2 ∧
      post (f p).2 (f' p').2 (f p).1 (f' p').1) :
    Mirrors δ R R 0 p p' (update f) (update f') post := by
  intro tokens tokens' d a s d' hp hR hrun
  cases hrun
  obtain ⟨hholds, hto, hto', hpost⟩ := h hp
  exact ⟨_, ⟨tokens', (f' p').2, d'⟩, rfl, hholds, hto, hto', hR, Nat.le_refl _, Nat.le_refl _,
    hpost⟩

/-! ## 5. Types -/

theorem bracketPairs_parallel (hR : Parallel R) {ts ts' : List LineToken} (h : R ts ts') :
    (bracketPairs ts').1 = (bracketPairs ts).1 ∧ R (bracketPairs ts).2 (bracketPairs ts').2 ∧
      (bracketPairs ts).2.length ≤ ts.length ∧ (bracketPairs ts').2.length ≤ ts'.length := by
  fun_induction bracketPairs ts generalizing ts' with
  | case1 line line₁ rest n rest₁ heq ih =>
    obtain ⟨_, _, ⟨t', line'⟩, rest', hcons, rfl, htoken, -, hrest⟩ := hR h
    cases hcons
    obtain rfl : t' = .mark .leftBracket := htoken
    obtain ⟨_, _, ⟨t₁', line₁'⟩, rest₁', hcons, rfl, htoken₁, -, hrest₁⟩ := hR (hrest rfl)
    cases hcons
    obtain rfl : t₁' = .mark .rightBracket := htoken₁
    obtain ⟨hcount, htail, hlen, hlen'⟩ := ih (hrest₁ rfl)
    rw [heq] at hcount htail hlen
    dsimp only at hcount htail hlen
    have hunfold : bracketPairs (⟨.mark .leftBracket, line'⟩ :: ⟨.mark .rightBracket, line₁'⟩ ::
        rest₁') = ((bracketPairs rest₁').1 + 1, (bracketPairs rest₁').2) := rfl
    rw [hunfold]
    refine ⟨congrArg (· + 1) hcount, htail, ?_, ?_⟩
    · simp only [List.length_cons]
      omega
    · simp only [List.length_cons]
      omega
  | case2 ts hnot =>
    -- two tokens that are no pair on the left are none on the right
    have hnot' : bracketPairs ts' = (0, ts') := by
      unfold bracketPairs
      split
      · rename_i line' line₁' rest'
        obtain ⟨⟨t, line⟩, rest, _, _, rfl, hcons, htoken, -, hrest⟩ := hR h
        cases hcons
        obtain rfl : t = .mark .leftBracket := htoken.symm
        obtain ⟨⟨t₁, line₁⟩, rest₁, _, _, rfl, hcons, htoken₁, -, -⟩ := hR (hrest rfl)
        cases hcons
        obtain rfl : t₁ = .mark .rightBracket := htoken₁.symm
        exact absurd rfl (hnot line line₁ rest₁)
      · rfl
    rw [hnot']
    exact ⟨rfl, h, Nat.le_refl _, Nat.le_refl _⟩

theorem Duo.Types.arrayOf {T : Program → Program → Ty → Ty → Prop} (hT : δ.Types T) {ty ty' : Ty}
    (h : T p p' ty ty') (n : Nat) : T p p' (arrayOf ty n) (arrayOf ty' n) := by
  induction n with
  | zero => exact h
  | succ n ih => exact hT.array ih

theorem mirrors_readBrackets (hR : Parallel R) {T : Program → Program → Ty → Ty → Prop}
    (hT : δ.Types T) {ty ty' : Ty} (hty : T p p' ty ty') :
    Mirrors δ R R 0 p p' (readBrackets ty) (readBrackets ty') T := by
  intro tokens tokens' d a s d' hp htokens hrun
  obtain ⟨hcount, htail, hlen, hlen'⟩ := bracketPairs_parallel hR htokens
  cases hrun
  refine ⟨arrayOf ty' (bracketPairs tokens').1, ⟨(bracketPairs tokens').2, p', d'⟩, rfl, hp,
    δ.refl p, δ.refl p', htail, hlen, hlen', ?_⟩
  rw [hcount]
  exact Duo.Types.arrayOf hT hty _

theorem mirrors_readType (hR : Parallel R) {T : Program → Program → Ty → Ty → Prop}
    (hT : δ.Types T) : Mirrors δ R R 1 p p' readType readType T := by
  refine mirrors_of_holds fun hp => ?_
  refine mirrors_advance hR (fun t line ht => ?_) fun t line line' hspelled _ => ?_
  · cases t with
    | mark mark => exact ⟨_, _, rfl⟩
    | endOfFile => exact ⟨_, _, rfl⟩
    | _ => cases ht
  · cases t with
    | keyword word =>
      cases word with
      | prim t => exact mirrors_readBrackets hR hT (hT.prim hp t)
      | _ => exact mirrors_fail_bind
    | ident name =>
      have hname : Mirrors δ R R 0 p p' (Ty.object <$> internClass name)
          (Ty.object <$> internClass name) T :=
        Mirrors.map Ty.object Ty.object (mirrors_update fun hp => hT.object hp hspelled)
      exact hname.bind fun _ _ _ _ _ _ _ hty => mirrors_readBrackets hR hT hty
    | _ => exact mirrors_fail_bind

end Reader

end ObjectFlow
