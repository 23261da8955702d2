/-
  File:      ObjectFlow/Proofs/Program/Lookahead.lean
  Subject:   EVERY READER SUCCEEDS AND REPORTS NOTHING, OR FAILS AND REPORTS ONE ERROR; what stands
             behind a text is never looked at, and every loop over a text ends.

  A reader that finds something wrong reports it and gives up, and no reader reports and goes on.
  A text ends with its only end token, and that token is never passed. So a reader does the same
  when more tokens are put behind the text, or when something else was reported before, and every
  token an error names is one of the text.

  * `Reader.SameEnd`: how a run ends, with what it has reported, on a text and on the text with more
    behind it;
  * `Reader.Blind`: each run of the reader ends in this way;
  * `Blind.bind`, `Blind.after`, `blind_guard`: readers one after the other;
  * `Blind.reports`: what is reported, said of one run;
  * `Reader.Loops`: a loop that takes turns without any bound on their number;
  * `blind_unrolled`, `loops_of_unrolled`: a loop that has a turn for every token takes all the
    turns it wants;
  * one lemma for each of the readers that declarations and bodies share, and for each reader of
    declarations.
-/
import ObjectFlow.Proofs.Program.Reading

namespace ObjectFlow

/-! ## 1. Texts with more behind them -/

/-- A text, with what stands behind it and what has been reported when it is read once more. -/
structure Stretch where
  text : List LineToken
  behind : List LineToken
  said : Diagnostics

/-- The state of the other run: more tokens stand behind those still to come, and other things have
    been reported. -/
def ReaderState.followed (s : ReaderState) (σ : Stretch) : ReaderState :=
  { s with tokens := s.tokens ++ σ.behind, diagnostics := σ.said }

namespace Reader

/-- The tokens are the rest of the text. -/
def RestOf (text ts : List LineToken) : Prop := ts <:+ text ∧ Ended ts

namespace RestOf

variable {text ts : List LineToken} {t : LineToken}

theorem self (h : Ended text) : RestOf text text := ⟨List.suffix_refl text, h⟩

theorem cons (h : RestOf text ts) : ∃ t rest, ts = t :: rest ∧ t ∈ text := by
  obtain ⟨t, rest, rfl⟩ := h.2.cons
  exact ⟨t, rest, rfl, h.1.mem List.mem_cons_self⟩

theorem tail {rest : List LineToken} (h : RestOf text (t :: rest)) (ht : t.token ≠ .endOfFile) :
    RestOf text rest :=
  ⟨(List.suffix_cons t rest).trans h.1, h.2.tail ht⟩

theorem length_pos (h : RestOf text ts) : 0 < ts.length := by
  obtain ⟨t, rest, rfl, -⟩ := h.cons
  exact Nat.succ_pos rest.length

end RestOf

variable {α β : Type} {σ : Stretch} {said : Diagnostics} {j k : α → Nat} {n : Nat}
  {post mid : α → α → Prop}

/-- **How a run ends on a text and on the text with more behind it**, when `said` had been reported.
    It succeeds on both and reports nothing, with results that correspond and the same tokens of the
    text left, having passed as many tokens as `passed` says; or it fails on both and reports one
    error, at a token of the text. -/
inductive SameEnd (σ : Stretch) (said : Diagnostics) (passed : α → Nat) (n : Nat)
    (post : α → α → Prop) :
    Except Diagnostics (α × ReaderState) → Except Diagnostics (α × ReaderState) → Prop
  | ok {a a' : α} {s : ReaderState} (hrest : RestOf σ.text s.tokens) (hsaid : s.diagnostics = said)
      (hlength : s.tokens.length + passed a ≤ n) (hpost : post a a') :
      SameEnd σ said passed n post (.ok (a, s)) (.ok (a', s.followed σ))
  | error {e : ReadError} (hfound : e.found ∈ σ.text) :
      SameEnd σ said passed n post (.error (e.report said)) (.error (e.report σ.said))

/-- **The reader is blind to what stands behind the text** and to what was reported: with more
    tokens and other reports, the other reader does what it does. -/
def Blind (σ : Stretch) (passed : α → Nat) (r r' : Reader α) (post : α → α → Prop) : Prop :=
  ∀ s, RestOf σ.text s.tokens →
    SameEnd σ s.diagnostics passed s.tokens.length post (r s) (r' (s.followed σ))

/-- One reader, and one result that satisfies `post`. -/
abbrev Looks (σ : Stretch) (r : Reader α) (post : α → Prop) : Prop :=
  Blind σ (fun _ => 0) r r fun a a' => a' = a ∧ post a

/-- The reader passes a token at least. -/
abbrev Advances (σ : Stretch) (r : Reader α) (post : α → Prop) : Prop :=
  Blind σ (fun _ => 1) r r fun a a' => a' = a ∧ post a

theorem SameEnd.of_ok {x' : Except Diagnostics (α × ReaderState)} {a : α} {s : ReaderState}
    (h : SameEnd σ said k n post (.ok (a, s)) x') : ∃ a', x' = .ok (a', s.followed σ) := by
  cases h with
  | ok => exact ⟨_, rfl⟩

theorem SameEnd.of_error {x' : Except Diagnostics (α × ReaderState)} {reported : Diagnostics}
    (h : SameEnd σ said k n post (.error reported) x') : ∃ e : ReadError, e.found ∈ σ.text ∧
      reported = e.report said ∧ x' = .error (e.report σ.said) := by
  cases h with
  | error hfound => exact ⟨_, hfound, rfl, rfl⟩

/-- **A reader that succeeds has reported nothing, and one that fails has reported one error**, at a
    token of the text. -/
theorem Blind.reports {r r' : Reader α} (h : Blind σ k r r' post) {s : ReaderState}
    (hs : RestOf σ.text s.tokens) :
    (∃ a t, r s = .ok (a, t) ∧ RestOf σ.text t.tokens ∧ t.diagnostics = s.diagnostics) ∨
      ∃ e : ReadError, r s = .error (e.report s.diagnostics) ∧ e.found ∈ σ.text := by
  have hend := h s hs
  generalize r s = x, r' (s.followed σ) = x' at hend
  cases hend with
  | ok hrest hsaid => exact .inl ⟨_, _, rfl, hrest, hsaid⟩
  | error hfound => exact .inr ⟨_, rfl, hfound⟩

/-! ## 2. Readers one after the other -/

theorem SameEnd.mono {x x' : Except Diagnostics (α × ReaderState)} {post' : α → α → Prop} {m : Nat}
    (h : SameEnd σ said j n post x x') (hlength : ∀ a l, l + j a ≤ n → l + k a ≤ m)
    (hpost : ∀ a a', post a a' → post' a a') : SameEnd σ said k m post' x x' := by
  cases h with
  | ok hrest hsaid hn ha => exact .ok hrest hsaid (hlength _ _ hn) (hpost _ _ ha)
  | error hfound => exact .error hfound

theorem SameEnd.bind {r r' : Reader α} {f f' : α → Reader β} {passed : β → Nat}
    {last : β → β → Prop} {s s' : ReaderState} {m : Nat} (h : SameEnd σ said j n mid (r s) (r' s'))
    (hf : ∀ a a' t, mid a a' → RestOf σ.text t.tokens → t.tokens.length + j a ≤ n →
      SameEnd σ t.diagnostics passed m last (f a t) (f' a' (t.followed σ))) :
    SameEnd σ said passed m last ((r >>= f) s) ((r' >>= f') s') := by
  change SameEnd σ said passed m last (r s >>= fun y => f y.1 y.2) (r' s' >>= fun y => f' y.1 y.2)
  generalize r s = x, r' s' = x' at h
  cases h with
  | ok hrest hsaid hlength ha => exact hsaid ▸ hf _ _ _ ha hrest hlength
  | error hfound => exact .error hfound

theorem Blind.bind {r r' : Reader α} {f f' : α → Reader β} {passed : β → Nat}
    {last : β → β → Prop} (hr : Blind σ j r r' mid)
    (hf : ∀ a a', mid a a' → Blind σ passed (f a) (f' a') last) :
    Blind σ passed (r >>= f) (r' >>= f') last :=
  fun s hs => (hr s hs).bind fun a a' t ha ht hlength =>
    (hf a a' ha t ht).mono (fun _ _ h => by omega) fun _ _ h => h

/-- The token that the first of two readers passes may be counted. -/
theorem Blind.bindFirst {r r' : Reader α} {f f' : α → Reader β} {passed : β → Nat}
    {last : β → β → Prop} (hr : Blind σ (fun _ => 1) r r' mid) (hpassed : ∀ b, passed b ≤ 1)
    (hf : ∀ a a', mid a a' → Blind σ (fun _ => 0) (f a) (f' a') last) :
    Blind σ passed (r >>= f) (r' >>= f') last :=
  fun s hs => (hr s hs).bind fun a a' t ha ht hlength =>
    (hf a a' ha t ht).mono (fun b _ h => by have := hpassed b; omega) fun _ _ h => h

/-- One reader goes first, with one result. -/
theorem Blind.after {r : Reader α} {f f' : α → Reader β} {mid : α → Prop} {passed : β → Nat}
    {last : β → β → Prop} (hr : Blind σ j r r fun a a' => a' = a ∧ mid a)
    (hf : ∀ a, mid a → Blind σ passed (f a) (f' a) last) :
    Blind σ passed (r >>= f) (r >>= f') last := by
  refine hr.bind fun a a' h => ?_
  obtain ⟨rfl, ha⟩ := h
  exact hf _ ha

theorem Blind.afterFirst {r : Reader α} {f f' : α → Reader β} {mid : α → Prop} {passed : β → Nat}
    {last : β → β → Prop} (hr : Advances σ r mid) (hpassed : ∀ b, passed b ≤ 1)
    (hf : ∀ a, mid a → Blind σ (fun _ => 0) (f a) (f' a) last) :
    Blind σ passed (r >>= f) (r >>= f') last := by
  refine hr.bindFirst hpassed fun a a' h => ?_
  obtain ⟨rfl, ha⟩ := h
  exact hf _ ha

theorem Blind.mono {r r' : Reader α} {post' : α → α → Prop} (hr : Blind σ j r r' post)
    (hlength : ∀ a, k a ≤ j a) (hpost : ∀ a a', post a a' → post' a a') :
    Blind σ k r r' post' :=
  fun s hs => (hr s hs).mono (fun a _ h => by have := hlength a; omega) hpost

theorem blind_pure {a a' : α} (hpassed : k a = 0) (h : post a a') :
    Blind σ k (pure a) (pure a') post :=
  fun s hs => .ok hs rfl (by rw [hpassed]; exact Nat.le_refl _) h

theorem looks_pure {a : α} {post : α → Prop} (h : post a) : Looks σ (pure a) post :=
  blind_pure rfl ⟨rfl, h⟩

theorem blind_fail {found : LineToken} (hfound : found ∈ σ.text) (cause : ReadCause) :
    Blind σ k (fail found cause) (fail found cause) post :=
  fun _ _ => .error hfound

theorem blind_fail_bind {found : LineToken} (hfound : found ∈ σ.text) {cause : ReadCause}
    {f f' : β → Reader α} : Blind σ k (fail found cause >>= f) (fail found cause >>= f') post :=
  fun _ _ => .error hfound

/-- A check behind which reading goes on. -/
theorem blind_guard {c : Prop} [Decidable c] {found : LineToken} (hfound : found ∈ σ.text)
    {cause : ReadCause} {f f' : Unit → Reader α} (h : Blind σ k (f ()) (f' ()) post) :
    Blind σ k (if c then fail found cause >>= f else f ())
      (if c then fail found cause >>= f' else f' ()) post := by
  by_cases hc : c
  · rw [if_pos hc, if_pos hc]
    exact blind_fail_bind hfound
  · rw [if_neg hc, if_neg hc]
    exact h

/-- What a reader gives may be changed. -/
theorem Blind.map {r r' : Reader α} {last : β → β → Prop} {passed : β → Nat} (f : α → β)
    (hr : Blind σ (fun a => passed (f a)) r r' fun a a' => last (f a) (f a')) :
    Blind σ passed (f <$> r) (f <$> r') last := by
  intro s hs
  have h := hr s hs
  change SameEnd _ _ _ _ _ (r s >>= fun y => .ok (f y.1, y.2)) (r' _ >>= fun y => .ok (f y.1, y.2))
  generalize r s = x, r' (s.followed σ) = x' at h
  cases h with
  | ok hrest hsaid hlength ha => exact .ok hrest hsaid hlength ha
  | error hfound => exact .error hfound

theorem Looks.mapped {r : Reader α} {post : α → Prop} (hr : Looks σ r post) (f : α → β) :
    Looks σ (f <$> r) fun _ => True :=
  Blind.map f (hr.mono (fun _ => Nat.le_refl 0) fun _ _ h => ⟨congrArg f h.1, trivial⟩)

theorem Looks.dropped {r : Reader α} {post : α → Prop} (hr : Looks σ r post) :
    Looks σ (discard r) fun _ => True :=
  hr.after fun _ _ => looks_pure trivial

theorem Advances.dropped {r : Reader α} {post : α → Prop} (hr : Advances σ r post) :
    Advances σ (discard r) fun _ => True :=
  hr.afterFirst (fun _ => Nat.le_refl 1) fun _ _ => looks_pure trivial

theorem Advances.looks {r : Reader α} {post : α → Prop} (hr : Advances σ r post) : Looks σ r post :=
  hr.mono (fun _ => Nat.zero_le 1) fun _ _ h => h

/-! ## 3. Tokens -/

/-- What a reader does depends on the next token, which is one of the text. -/
theorem blind_next {r r' : Reader α} (h : ∀ t rest p said, RestOf σ.text (t :: rest) → t ∈ σ.text →
    SameEnd σ said k (rest.length + 1) post (r ⟨t :: rest, p, said⟩)
      (r' ⟨t :: (rest ++ σ.behind), p, σ.said⟩)) :
    Blind σ k r r' post := by
  intro s hs
  obtain ⟨tokens, p, said⟩ := s
  obtain ⟨t, rest, rfl, ht⟩ := RestOf.cons hs
  exact h t rest p said hs ht

/-- A token other than the end is passed. -/
theorem sameEnd_advance {t : LineToken} {rest : List LineToken} (hs : RestOf σ.text (t :: rest))
    (ht : t.token ≠ .endOfFile) (p : Program) (said : Diagnostics) :
    SameEnd σ said (fun _ => 1) (rest.length + 1) (fun u u' => u' = u ∧ u = t)
      (advance ⟨t :: rest, p, said⟩) (advance ⟨t :: (rest ++ σ.behind), p, σ.said⟩) := by
  have hdrop : ∀ more, dropToken (t :: more) = more := fun more => if_neg ht
  change SameEnd _ _ _ _ _ (.ok (t, ⟨dropToken (t :: rest), p, said⟩))
    (.ok (t, ⟨dropToken (t :: (rest ++ σ.behind)), p, σ.said⟩))
  rw [hdrop, hdrop]
  exact .ok (s := ⟨rest, p, said⟩) (hs.tail ht) rfl (Nat.le_refl _) ⟨rfl, rfl⟩

/-- A reader that looks at the whole state. -/
theorem blind_get {f f' : ReaderState → Reader α} (h : ∀ s, RestOf σ.text s.tokens →
    SameEnd σ s.diagnostics k s.tokens.length post (f s s) (f' (s.followed σ) (s.followed σ))) :
    Blind σ k (get >>= f) (get >>= f') post := h

theorem looks_peek : Looks σ peek (· ∈ σ.text) :=
  blind_next fun _ _ _ _ hs ht => .ok hs rfl (Nat.le_refl _) ⟨rfl, ht⟩

/-- The next token is read. The end is read without being passed. -/
theorem blind_advance {f f' : LineToken → Reader α} (hk : ∀ a, k a ≤ 1)
    (hend : ∀ t ∈ σ.text, t.token = .endOfFile → Blind σ k (f t) (f' t) post)
    (hf : ∀ t ∈ σ.text, t.token ≠ .endOfFile → Blind σ (fun _ => 0) (f t) (f' t) post) :
    Blind σ k (advance >>= f) (advance >>= f') post := by
  refine blind_next fun t rest p said hs ht => ?_
  by_cases htoken : t.token = .endOfFile
  · have hdrop : ∀ more, dropToken (t :: more) = t :: more := fun more => if_pos htoken
    change SameEnd _ _ _ _ _ (f t ⟨dropToken (t :: rest), p, said⟩)
      (f' t ⟨dropToken (t :: (rest ++ σ.behind)), p, σ.said⟩)
    rw [hdrop, hdrop]
    exact hend t ht htoken ⟨t :: rest, p, said⟩ hs
  · refine (sameEnd_advance hs htoken p said).bind fun u u' s hu hrest hlength => ?_
    obtain ⟨rfl, rfl⟩ := hu
    exact (hf _ ht htoken s hrest).mono (fun a _ h => by have := hk a; omega) fun _ _ h => h

theorem looks_advance : Looks σ advance (· ∈ σ.text) := by
  have hpass : Looks σ (advance >>= pure) (· ∈ σ.text) :=
    blind_advance (fun _ => Nat.zero_le 1) (fun _ ht _ => looks_pure ht) fun _ ht _ => looks_pure ht
  rwa [bind_pure] at hpass

theorem looks_check (t : Token) : Looks σ (check t) fun _ => True :=
  looks_peek.after fun _ _ => looks_pure trivial

theorem looks_atEnd : Looks σ atEnd fun _ => True := looks_check _

theorem looks_accept (t : Token) : Looks σ (accept t) fun _ => True := by
  refine (looks_check t).after fun found _ => ?_
  cases found with
  | true => exact looks_advance.dropped.after fun _ _ => looks_pure trivial
  | false => exact looks_pure trivial

theorem advances_expectOr {t : Token} (ht : t ≠ .endOfFile) (cause : ReadCause) :
    Advances σ (expectOr t cause) (· ∈ σ.text) := by
  refine blind_next fun u rest p said hs hu => ?_
  change SameEnd _ _ _ _ _
    ((if decide (u.token = t) then advance else peek >>= fun found => fail found cause)
      ⟨u :: rest, p, said⟩)
    ((if decide (u.token = t) then advance else peek >>= fun found => fail found cause)
      ⟨u :: (rest ++ σ.behind), p, σ.said⟩)
  by_cases htoken : u.token = t
  · rw [decide_eq_true htoken]
    refine (sameEnd_advance hs (htoken.symm ▸ ht) p said).mono (fun _ _ h => h) fun v v' h => ?_
    obtain ⟨rfl, rfl⟩ := h
    exact ⟨rfl, hu⟩
  · rw [decide_eq_false htoken]
    exact .error hu

theorem advances_expect {t : Token} (ht : t ≠ .endOfFile) : Advances σ (expect t) (· ∈ σ.text) :=
  advances_expectOr ht _

theorem advances_identifier : Advances σ identifier (·.1 ∈ σ.text) := by
  refine blind_next fun t rest p said hs ht => ?_
  obtain ⟨token, line⟩ := t
  cases token with
  | ident name =>
    change SameEnd _ _ _ _ _ ((advance >>= fun u => pure (u, name)) _)
      ((advance >>= fun u => pure (u, name)) _)
    refine (sameEnd_advance hs (by nofun) p said).bind fun u u' s hu hrest hlength => ?_
    obtain ⟨rfl, rfl⟩ := hu
    exact .ok hrest rfl hlength ⟨rfl, ht⟩
  | _ => exact .error ht

/-! ## 4. Programs -/

theorem blind_program {f f' : Program → Reader α} (h : ∀ p, Blind σ k (f p) (f' p) post) :
    Blind σ k (program >>= f) (program >>= f') post :=
  fun s hs => h s.program s hs

theorem looks_update (f : Program → α × Program) : Looks σ (update f) fun _ => True :=
  fun _ hs => .ok hs rfl (Nat.le_refl _) ⟨rfl, trivial⟩

/-! ## 5. Loops -/

/-- **How a loop ends that takes turns**, each of them with what the one before it gave, for as
    long as they ask for another one. -/
inductive Loops (turn : α → Reader (α × Bool)) :
    α → ReaderState → Except Diagnostics (α × ReaderState) → Prop
  | finished {a b : α} {s t : ReaderState} (h : turn a s = .ok ((b, false), t)) :
      Loops turn a s (.ok (b, t))
  | again {a b : α} {s t : ReaderState} {x : Except Diagnostics (α × ReaderState)}
      (h : turn a s = .ok ((b, true), t)) (hrest : Loops turn b t x) : Loops turn a s x
  | failed {a : α} {s : ReaderState} {said : Diagnostics} (h : turn a s = .error said) :
      Loops turn a s (.error said)

theorem Loops.unique {turn : α → Reader (α × Bool)} {a : α} {s : ReaderState}
    {x y : Except Diagnostics (α × ReaderState)} (hx : Loops turn a s x) (hy : Loops turn a s y) :
    x = y := by
  induction hx with
  | finished h =>
    cases hy with
    | finished h' =>
      cases h.symm.trans h'
      rfl
    | again h' => cases h.symm.trans h'
    | failed h' => cases h.symm.trans h'
  | again h _ ih =>
    cases hy with
    | finished h' => cases h.symm.trans h'
    | again h' hrest =>
      cases h.symm.trans h'
      exact ih hrest
    | failed h' => cases h.symm.trans h'
  | failed h =>
    cases hy with
    | finished h' => cases h.symm.trans h'
    | again h' => cases h.symm.trans h'
    | failed h' =>
      cases h.symm.trans h'
      rfl

/-- The loop with a bound takes a turn and goes on with one turn less. -/
def Unrolls (loop : Nat → α → Reader α) (turn : α → Reader (α × Bool)) : Prop :=
  ∀ n a, loop (n + 1) a = turn a >>= fun x => if x.2 then loop n x.1 else pure x.1

/-- A turn that asks for another one has passed a token. -/
def BlindTurn (σ : Stretch) (turn turn' : α → Reader (α × Bool)) (inv : α → α → Prop) : Prop :=
  ∀ a a', inv a a' → Blind σ (fun x => x.2.toNat) (turn a) (turn' a') fun x x' =>
    inv x.1 x'.1 ∧ x'.2 = x.2

section Unrolled

variable {loop loop' : Nat → α → Reader α} {turn turn' : α → Reader (α × Bool)}
  {inv : α → α → Prop}

/-- **A loop with a turn for every token of the text does the same with any more turns**, whatever
    stands behind the text. -/
theorem blind_unrolled (hloop : Unrolls loop turn) (hloop' : Unrolls loop' turn')
    (hturn : BlindTurn σ turn turn' inv) (n n' : Nat) {a a' : α} (ha : inv a a') {s : ReaderState}
    (hs : RestOf σ.text s.tokens) (hn : s.tokens.length ≤ n) (hn' : s.tokens.length ≤ n') :
    SameEnd σ s.diagnostics (fun _ => 0) s.tokens.length inv (loop n a s)
      (loop' n' a' (s.followed σ)) := by
  have hpos := hs.length_pos
  induction n generalizing n' a a' s with
  | zero => omega
  | succ n ih =>
    obtain ⟨n', rfl⟩ := Nat.exists_eq_add_one_of_ne_zero (by omega : n' ≠ 0)
    rw [hloop, hloop']
    refine (hturn a a' ha s hs).bind fun x x' t hx hrest hlength => ?_
    obtain ⟨hinv, hmore⟩ := hx
    rw [hmore]
    cases hgo : x.2 with
    | true =>
      rw [hgo] at hlength
      have hless : t.tokens.length + 1 ≤ s.tokens.length := hlength
      exact (ih n' hinv hrest (by omega) (by omega) hrest.length_pos).mono
        (fun _ _ h => by omega) fun _ _ h => h
    | false => exact .ok hrest rfl (by omega) hinv

/-- **A loop with a turn for every token of the text takes all the turns it wants.** -/
theorem loops_of_unrolled (hloop : Unrolls loop turn) (hturn : BlindTurn σ turn turn' inv) (n : Nat)
    {a a' : α} (ha : inv a a') {s : ReaderState} (hs : RestOf σ.text s.tokens)
    (hn : s.tokens.length ≤ n) : Loops turn a s (loop n a s) := by
  induction n generalizing a a' s with
  | zero =>
    have hpos := hs.length_pos
    omega
  | succ n ih =>
    have hend := hturn a a' ha s hs
    rw [hloop]
    change Loops turn a s (turn a s >>= fun y => (if y.1.2 then loop n y.1.1 else pure y.1.1) y.2)
    cases hrun : turn a s with
    | error said => exact .failed hrun
    | ok y =>
      obtain ⟨⟨b, more⟩, t⟩ := y
      rw [hrun] at hend
      generalize turn' a' (s.followed σ) = x' at hend
      cases hend with
      | ok hrest _ hlength hb =>
        cases more with
        | true =>
          have hless : t.tokens.length + 1 ≤ s.tokens.length := hlength
          exact .again hrun (ih hb.1 hrest (by omega))
        | false => exact .finished hrun

end Unrolled

/-- The loop with a bound lists what its turns add to a list. -/
def Lists (loop : Nat → Reader (List β)) (turn : List β → Reader (List β × Bool)) : Prop :=
  Unrolls (fun n sofar => (sofar ++ ·) <$> loop n) turn

section Lists

variable {loop : Nat → Reader (List β)} {turn : List β → Reader (List β × Bool)}
  {inv : List β → List β → Prop}

theorem blind_lists (hloop : Lists loop turn) (hturn : BlindTurn σ turn turn inv)
    (hinv : inv [] []) (n n' : Nat) {s : ReaderState} (hs : RestOf σ.text s.tokens)
    (hn : s.tokens.length ≤ n) (hn' : s.tokens.length ≤ n') :
    SameEnd σ s.diagnostics (fun _ => 0) s.tokens.length inv (loop n s)
      (loop n' (s.followed σ)) := by
  have hend := blind_unrolled hloop hloop hturn n n' hinv hs hn hn'
  simpa using hend

theorem loops_of_lists (hloop : Lists loop turn) (hturn : BlindTurn σ turn turn inv)
    (hinv : inv [] []) {n : Nat} {s : ReaderState} (hs : RestOf σ.text s.tokens)
    (hn : s.tokens.length ≤ n) : Loops turn [] s (loop n s) := by
  have hloops := loops_of_unrolled hloop hturn n hinv hs hn
  simpa using hloops

end Lists

/-- A reader in a loop that has a turn for every token still to come. -/
theorem blind_remaining {loop loop' : Nat → Reader α} {f f' : α → Reader β} {passed : β → Nat}
    {last : β → β → Prop}
    (hloop : ∀ n n' s, RestOf σ.text s.tokens → s.tokens.length ≤ n → s.tokens.length ≤ n' →
      SameEnd σ s.diagnostics (fun _ => 0) s.tokens.length mid (loop n s) (loop' n' (s.followed σ)))
    (hf : ∀ a a', mid a a' → Blind σ passed (f a) (f' a') last) :
    Blind σ passed (remaining >>= fun n => loop n >>= f) (remaining >>= fun n => loop' n >>= f')
      last := by
  intro s hs
  have hmore : s.tokens.length ≤ (s.followed σ).tokens.length := by
    simp [ReaderState.followed]
  exact (hloop _ _ s hs (Nat.le_refl _) hmore).bind fun a a' t ha ht hlength =>
    (hf a a' ha t ht).mono (fun _ _ h => by omega) fun _ _ h => h

/-- A turn of a loop over items with commas between. -/
def commaTurn (item : Reader α) (sofar : List α) : Reader (List α × Bool) := do
  let next ← item
  let more ← accept (.mark .comma)
  return (sofar ++ [next], more)

theorem lists_commaList (item : Reader α) : Lists (commaList item) (commaTurn item) := by
  intro n sofar
  simp only [commaList, commaTurn, map_bind, bind_assoc, pure_bind]
  refine bind_congr fun next => bind_congr fun more => ?_
  cases more with
  | true => simp
  | false => simp

theorem blindTurn_comma {item : Reader α} (hitem : Advances σ item fun _ => True) :
    BlindTurn σ (commaTurn item) (commaTurn item) fun sofar sofar' => sofar' = sofar := by
  rintro sofar _ rfl
  refine hitem.afterFirst (fun x => Bool.toNat_le x.2) fun next _ => ?_
  refine (looks_accept _).after fun more _ => ?_
  exact blind_pure rfl ⟨rfl, rfl⟩

theorem looks_commas {item : Reader α} (hitem : Advances σ item fun _ => True) :
    Looks σ (commas item) fun _ => True := by
  have hcommas : commas item = remaining >>= fun n => commaList item n >>= pure := by
    simp only [commas, bind_pure]
  rw [hcommas]
  exact blind_remaining (fun n n' _ => blind_lists (lists_commaList item) (blindTurn_comma hitem)
    rfl n n') fun items items' h => blind_pure rfl ⟨h, trivial⟩

/-! ## 6. Types -/

theorem bracketPairs_followed {text ts : List LineToken} (h : RestOf text ts)
    (more : List LineToken) :
    bracketPairs (ts ++ more) = ((bracketPairs ts).1, (bracketPairs ts).2 ++ more) ∧
      RestOf text (bracketPairs ts).2 ∧ (bracketPairs ts).2.length ≤ ts.length := by
  fun_induction bracketPairs ts with
  | case1 line line' rest n rest' heq ih =>
    obtain ⟨hpairs, hrest, hlength⟩ := ih ((h.tail (by rintro ⟨⟩)).tail (by rintro ⟨⟩))
    rw [heq] at hpairs hrest hlength
    refine ⟨?_, hrest, by simp only [List.length_cons] at hlength ⊢; omega⟩
    rw [List.cons_append, List.cons_append, bracketPairs, hpairs]
  | case2 ts hnot =>
    refine ⟨?_, h, Nat.le_refl _⟩
    -- the two tokens that would be a pair are tokens of the text
    unfold bracketPairs
    split
    · rename_i line line' rest heq
      obtain ⟨t, us, rfl, -⟩ := h.cons
      obtain ⟨rfl, hsecond⟩ := List.cons.inj heq
      obtain ⟨u, us, rfl, -⟩ := (h.tail (by rintro ⟨⟩)).cons
      obtain ⟨rfl, -⟩ := List.cons.inj hsecond
      exact absurd rfl (hnot line line' us)
    · rfl

theorem looks_readBrackets (ty : Ty) : Looks σ (readBrackets ty) fun _ => True := by
  intro s hs
  obtain ⟨hpairs, hrest, hlength⟩ := bracketPairs_followed hs σ.behind
  change SameEnd _ _ _ _ _ (.ok (arrayOf ty (bracketPairs s.tokens).1, _))
    (.ok (arrayOf ty (bracketPairs (s.tokens ++ σ.behind)).1,
      ⟨(bracketPairs (s.tokens ++ σ.behind)).2, s.program, σ.said⟩))
  rw [hpairs]
  exact .ok (s := { s with tokens := (bracketPairs s.tokens).2 }) hrest rfl hlength ⟨rfl, trivial⟩

theorem advances_readType : Advances σ readType fun _ => True := by
  refine blind_advance (fun _ => Nat.le_refl 1) (fun t ht hend => ?_) fun t ht _ => ?_
  · dsimp only
    rw [hend]
    exact blind_fail_bind ht
  · obtain ⟨token, line⟩ := t
    cases token with
    | keyword word =>
      cases word with
      | prim ty => exact looks_readBrackets _
      | _ => exact blind_fail_bind ht
    | ident name =>
      exact ((looks_update _).mapped Ty.object).after fun ty _ => looks_readBrackets ty
    | _ => exact blind_fail_bind ht

/-! ## 7. Members -/

theorem advances_readField (owner : ClassId) (isStatic : Bool) :
    Advances σ (readField owner isStatic) fun _ => True := by
  refine advances_readType.afterFirst (fun _ => Nat.le_refl 1) fun ty _ => ?_
  refine advances_identifier.after fun (found, name) hfound => ?_
  refine (advances_expect (by nofun)).dropped.after fun _ _ => ?_
  exact blind_program fun p => blind_guard hfound (looks_update _)

theorem advances_readParam : Advances σ readParam fun _ => True := by
  refine advances_readType.afterFirst (fun _ => Nat.le_refl 1) fun ty _ => ?_
  exact advances_identifier.after fun _ _ => looks_pure trivial

theorem looks_readParams : Looks σ readParams fun _ => True := by
  have hclose : ∀ params : List (String × Ty), Looks σ
      (discard (expect (.mark .rightParen)) >>= fun _ => pure params) fun _ => True := fun params =>
    (advances_expect (by nofun)).dropped.after fun _ _ => looks_pure trivial
  refine (advances_expect (by nofun)).dropped.after fun _ _ => ?_
  refine (looks_check _).after fun empty _ => ?_
  cases empty with
  | true => exact hclose []
  | false => exact (looks_commas advances_readParam).after fun params _ => hclose params

theorem looks_enterMethod (d : MethodDecl) (params : List (String × Ty)) :
    Looks σ (enterMethod d params) fun _ => True := by
  refine (looks_update _).after fun method _ => ?_
  cases d.isStatic with
  | true => exact (looks_update _).after fun _ _ => looks_pure trivial
  | false =>
    refine (looks_update _).after fun _ _ => ?_
    exact (looks_update _).after fun _ _ => looks_pure trivial

theorem looks_readHeader (owner : ClassId) (isStatic isAbstract : Bool) {start : LineToken}
    (hstart : start ∈ σ.text) :
    Looks σ (readHeader owner isStatic isAbstract start) fun _ => True := by
  refine advances_readType.after fun retType _ => ?_
  refine advances_identifier.after fun (found, name) hfound => ?_
  refine looks_readParams.after fun params _ => ?_
  refine blind_program fun p => (looks_update _).after fun id _ => ?_
  refine blind_guard hfound ?_
  refine (looks_check _).after fun hasBody _ => ?_
  refine blind_guard hstart ?_
  exact (looks_enterMethod _ params).after fun method _ => looks_pure trivial

theorem advances_readMemberHead (owner : ClassId) :
    Advances σ (readMemberHead owner) fun _ => True := by
  refine (looks_accept _).after fun isStatic _ => ?_
  refine (looks_accept _).after fun isAbstract _ => ?_
  refine (looks_accept _).after fun isField _ => ?_
  cases isField with
  | true =>
    exact (advances_readField owner isStatic).afterFirst (fun _ => Nat.le_refl 1) fun _ _ =>
      looks_pure trivial
  | false =>
    refine (advances_expectOr (by nofun) _).afterFirst (fun _ => Nat.le_refl 1)
      fun start hstart => ?_
    exact (looks_readHeader owner isStatic isAbstract hstart).mapped some

/-! ## 8. Bodies that are left -/

/-- The end of a block does not depend on what stands behind the text. -/
theorem skipBlock?_followed {text ts : List LineToken} (h : RestOf text ts) (depth : Nat)
    (more : List LineToken) :
    skipBlock? depth (ts ++ more) = (skipBlock? depth ts).map (· ++ more) := by
  fun_induction skipBlock? depth ts with
  | case1 ts => rw [skipBlock?, Option.map_some]
  | case2 => exact absurd h.length_pos (Nat.lt_irrefl 0)
  | case3 depth t later ht =>
    rw [List.cons_append, skipBlock?, ht]
    rfl
  | case4 depth t later ht ih =>
    rw [List.cons_append, skipBlock?, ht]
    exact ih (h.tail (by rw [ht]; nofun))
  | case5 depth t later ht ih =>
    rw [List.cons_append, skipBlock?, ht]
    exact ih (h.tail (by rw [ht]; nofun))
  | case6 depth t later hend hopen hclose ih =>
    rw [List.cons_append, skipBlock?]
    split
    · rename_i ht
      exact absurd ht hend
    · rename_i ht
      exact absurd ht hopen
    · rename_i ht
      exact absurd ht hclose
    · exact ih (h.tail hend)

theorem looks_skipBody : Looks σ skipBody fun _ => True := by
  refine (advances_expect (by nofun)).after fun opening hopening => ?_
  refine blind_get fun s hs => ?_
  have hfollowed : skipBlock? 1 (s.followed σ).tokens =
    (skipBlock? 1 s.tokens).map (· ++ σ.behind) := skipBlock?_followed hs 1 σ.behind
  rw [hfollowed]
  cases hskip : skipBlock? 1 s.tokens with
  | none => exact .error hopening
  | some rest =>
    have hsuffix := skipBlock?_suffix hskip
    exact .ok (s := { s with tokens := rest }) ⟨hsuffix.trans hs.1, hs.2.of_skipBlock? hskip⟩ rfl
      hsuffix.length_le ⟨rfl, trivial⟩

end Reader

/-- The body with more tokens behind the text it is part of. -/
def PendingBody.followed (b : PendingBody) (more : List LineToken) : PendingBody :=
  { b with tokens := b.tokens ++ more }

namespace Reader

variable {α : Type} {σ : Stretch}

/-- The same bodies are left; each of them is the rest of the text from its brace on. -/
def SameLeft (σ : Stretch) (bodies bodies' : List PendingBody) : Prop :=
  bodies' = bodies.map (·.followed σ.behind) ∧ ∀ b ∈ bodies, RestOf σ.text b.tokens

theorem SameLeft.nil : SameLeft σ [] [] := ⟨rfl, fun _ h => absurd h List.not_mem_nil⟩

theorem SameLeft.append {bs bs' cs cs' : List PendingBody} (h : SameLeft σ bs bs')
    (hc : SameLeft σ cs cs') : SameLeft σ (bs ++ cs) (bs' ++ cs') :=
  ⟨by rw [h.1, hc.1, List.map_append], fun b hb => (List.mem_append.mp hb).elim (h.2 b) (hc.2 b)⟩

theorem blind_readRest (header : MethodId × Bool) :
    Blind σ (fun _ => 0) (readRest header) (readRest header) fun b b' =>
      SameLeft σ b.toList b'.toList := by
  obtain ⟨method, hasBody⟩ := header
  cases hasBody with
  | true =>
    refine blind_get fun s hs => ?_
    refine (looks_skipBody s hs).bind fun _ _ t _ ht hlength => ?_
    refine .ok ht rfl hlength ⟨rfl, fun b hb => ?_⟩
    obtain rfl := List.mem_singleton.mp hb
    exact hs
  | false => exact (advances_expectOr (by nofun) _).dropped.after fun _ _ => blind_pure rfl .nil

theorem blind_readMember (owner : ClassId) :
    Blind σ (fun _ => 1) (readMember owner) (readMember owner) fun b b' =>
      SameLeft σ b.toList b'.toList := by
  refine (advances_readMemberHead owner).afterFirst (fun _ => Nat.le_refl 1) fun header _ => ?_
  cases header with
  | none => exact blind_pure rfl .nil
  | some header => exact blind_readRest header

/-- A turn of the loop over the members of a class. -/
def memberTurn (owner : ClassId) (sofar : List PendingBody) : Reader (List PendingBody × Bool) := do
  if ← check (.mark .rightBrace) then
    return (sofar, false)
  if ← atEnd then
    fail (← peek) (.expected (.mark .rightBrace))
  let body ← readMember owner
  return (sofar ++ body.toList, true)

theorem lists_readMembers (owner : ClassId) : Lists (readMembers owner) (memberTurn owner) := by
  intro n sofar
  simp only [readMembers, memberTurn, map_bind, bind_assoc]
  refine bind_congr fun closed => ?_
  cases closed with
  | true => simp
  | false =>
    simp only [Bool.false_eq_true, if_false, map_bind, bind_assoc]
    refine bind_congr fun ended => ?_
    cases ended with
    | true => simp
    | false => simp

theorem blindTurn_member (owner : ClassId) :
    BlindTurn σ (memberTurn owner) (memberTurn owner) (SameLeft σ) := by
  intro sofar sofar' hsofar
  refine (looks_check _).after fun closed _ => ?_
  cases closed with
  | true => exact blind_pure rfl ⟨hsofar, rfl⟩
  | false =>
    refine looks_atEnd.after fun ended _ => ?_
    cases ended with
    | true => exact looks_peek.after fun found hfound => blind_fail_bind hfound
    | false =>
      refine (blind_readMember owner).bindFirst (fun x => Bool.toNat_le x.2) fun b b' hb => ?_
      exact blind_pure rfl ⟨hsofar.append hb, rfl⟩

/-! ## 9. Classes -/

theorem advances_readClassName : Advances σ readClassName fun _ => True :=
  advances_identifier.afterFirst (fun _ => Nat.le_refl 1) fun _ _ => looks_update _

theorem looks_readSupertypes (isInterface : Bool) :
    Looks σ (readSupertypes isInterface) fun _ => True := by
  have hnames : Looks σ (commas readClassName) fun _ => True := looks_commas advances_readClassName
  cases isInterface with
  | true =>
    refine (looks_accept _).after fun extended _ => ?_
    cases extended with
    | true => exact hnames.after fun names _ => looks_pure trivial
    | false => exact looks_pure trivial
  | false =>
    -- what follows the superclass, if there is one
    have hinterfaces : ∀ superClass : Option ClassId, Looks σ
        (do
          let interfaces ←
            if ← accept (.keyword .implementsClause) then commas readClassName else pure []
          return (superClass, interfaces)) fun _ => True := by
      intro superClass
      refine (looks_accept _).after fun implementing _ => ?_
      cases implementing with
      | true => exact hnames.after fun names _ => looks_pure trivial
      | false => exact looks_pure trivial
    refine (looks_accept _).after fun extended _ => ?_
    cases extended with
    | true =>
      have hclass : Looks σ (some <$> readClassName) fun _ => True :=
        advances_readClassName.looks.mapped some
      exact hclass.after fun superClass _ => hinterfaces superClass
    | false => exact hinterfaces none

theorem advances_readNamedClass (isAbstract isInterface : Bool) :
    Advances σ (readNamedClass isAbstract isInterface) fun _ => True := by
  refine advances_identifier.afterFirst (fun _ => Nat.le_refl 1) fun (found, name) hfound => ?_
  refine (looks_update _).after fun owner _ => ?_
  refine blind_program fun p => blind_guard hfound ?_
  refine (looks_readSupertypes isInterface).after fun (superClass, interfaces) _ => ?_
  exact (looks_update _).after fun _ _ => looks_pure trivial

theorem advances_readClassHead : Advances σ readClassHead fun _ => True := by
  refine (looks_accept _).after fun isAbstract _ => ?_
  refine (looks_accept _).after fun isInterface _ => ?_
  cases isInterface with
  | true => exact advances_readNamedClass isAbstract true
  | false =>
    exact (advances_expectOr (by nofun) _).dropped.after fun _ _ =>
      advances_readNamedClass isAbstract false

theorem blind_readClassRest (owner : ClassId) :
    Blind σ (fun _ => 0) (readClassRest owner) (readClassRest owner) (SameLeft σ) := by
  refine (advances_expect (by nofun)).dropped.after fun _ _ => ?_
  refine blind_remaining (fun n n' _ => blind_lists (lists_readMembers owner)
    (blindTurn_member owner) .nil n n') fun bodies bodies' hbodies => ?_
  exact (advances_expect (by nofun)).dropped.after fun _ _ => blind_pure rfl hbodies

theorem blind_readClass : Blind σ (fun _ => 1) readClass readClass (SameLeft σ) :=
  advances_readClassHead.afterFirst (fun _ => Nat.le_refl 1) fun owner _ =>
    blind_readClassRest owner

/-- A turn of the loop over the classes of a text. -/
def classTurn (sofar : List PendingBody) : Reader (List PendingBody × Bool) := do
  if ← atEnd then
    return (sofar, false)
  let bodies ← readClass
  return (sofar ++ bodies, true)

theorem lists_readClasses : Lists readClasses classTurn := by
  intro n sofar
  simp only [readClasses, classTurn, map_bind, bind_assoc]
  refine bind_congr fun ended => ?_
  cases ended with
  | true => simp
  | false => simp

theorem blindTurn_class : BlindTurn σ classTurn classTurn (SameLeft σ) := by
  intro sofar sofar' hsofar
  refine looks_atEnd.after fun ended _ => ?_
  cases ended with
  | true => exact blind_pure rfl ⟨hsofar, rfl⟩
  | false =>
    refine blind_readClass.bindFirst (fun x => Bool.toNat_le x.2) fun bodies bodies' hbodies => ?_
    exact blind_pure rfl ⟨hsofar.append hbodies, rfl⟩

end Reader

end ObjectFlow
