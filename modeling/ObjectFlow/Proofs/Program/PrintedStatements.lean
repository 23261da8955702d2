/-
  File:      ObjectFlow/Proofs/Program/PrintedStatements.lean
  Subject:   THE TOKENS OF A PRINTED STATEMENT ARE READ AS THE STATEMENT.

  The tokens come from a program `p`; they are read into a program `q` that holds the declarations
  of `p` and the variables of the method under the same numbers (`Program.Hosts`).

  * `Reader.Takes`: on some tokens a reader succeeds;
  * `StmtOf.Unambiguous`: the two ways a statement could be printed and mean something else are
    excluded;
  * one lemma for each reader of statements, up to `takes_readStmt`.
-/
import ObjectFlow.Proofs.Program.PrintedBody
import ObjectFlow.Proofs.Program.StatementMirroring

namespace ObjectFlow

namespace Program

/-! ## 1. Programs that take up the body of a method -/

/-- **The program `q` takes up a method of `p`**: the declarations are the same, and so are the
    variables the method has so far. -/
structure Hosts (d p : Program) (m : MethodId) (q : Program) : Prop extends Kin d p q where
  vars : (q.methodAt m).vars <+: (p.methodAt m).vars
  varName : ∀ v ∈ (q.methodAt m).vars, q.varName v = p.varName v
  varTy : ∀ v ∈ (q.methodAt m).vars, (p.varTy v).Alike p q (q.varTy v)

/-- The method has all its variables. -/
def HasVars (p : Program) (m : MethodId) (q : Program) : Prop :=
  (q.methodAt m).vars = (p.methodAt m).vars

variable {d p q r : Program} {m : MethodId}

/-- Variables that are there are not lost. -/
theorem HasVars.writes (h : HasVars p m q) (hr : Hosts d p m r) (hw : q.Writes m r) :
    HasVars p m r := by
  have h : (q.methodAt m).vars = (p.methodAt m).vars := h
  have hold : (p.methodAt m).vars <+: (r.methodAt m).vars := by
    rw [hw.new, h]
    exact List.prefix_append _ _
  exact hr.vars.eq_of_length_le hold.length_le

namespace Hosts

theorem varByName?_eq (h : Hosts d p m q) (hvars : HasVars p m q) (name : String) :
    q.varByName? m name = p.varByName? m name := by
  have hvars : (q.methodAt m).vars = (p.methodAt m).vars := hvars
  rw [varByName?, varByName?, ← hvars]
  refine List.find?_congr fun v hv => ?_
  rw [h.varName v (List.mem_reverse.mp hv)]

/-- The name of a variable stands for the variable. -/
theorem varByName?_named (h : Hosts d p m q) (hvars : HasVars p m q) {v : VarId}
    (hv : p.Named m v) : q.varByName? m (p.varName v) = some v := by
  rw [h.varByName?_eq hvars]
  exact hv

/-- Classes and subsignatures may be mentioned. -/
theorem mentions (h : Hosts d p m q) (hf : q.Fills r) (hr : r.Filled)
    (hsame : r.methods = q.methods ∧ r.vars = q.vars) : Hosts d p m r ∧ q.Writes m r := by
  have hat : r.methodAt m = q.methodAt m := by rw [methodAt, methodAt, hsame.1]
  have hvar : ∀ v, r.varAt v = q.varAt v := fun v => by rw [varAt, varAt, hsame.2]
  refine ⟨⟨h.toKin.fills (.refl p) h.leftFilled hf hr, ?_, fun v hv => ?_, fun v hv => ?_⟩,
    writes_of_sameVars hf hsame.1 hsame.2⟩
  · rw [hat]
    exact h.vars
  · rw [Program.varName, hvar]
    exact h.varName v (hat ▸ hv)
  · rw [Program.varTy, Program.varTy, hvar]
    exact (h.varTy v (hat ▸ hv)).grows (.refl p) hf.toGrows

end Hosts

end Program

/-- A body is read into a program that takes up the method `m` of `p`. -/
def Phase.hosting (d p : Program) (m : MethodId) : Phase where
  Holds := Program.Hosts d p m
  To := Program.Writes m
  refl := Program.Writes.refl
  trans := Program.Writes.trans

theorem mentions_hosting (d p : Program) (m : MethodId) : (Phase.hosting d p m).Mentions where
  internClass {q} h name :=
    Program.Hosts.mentions h (q.internClass_spec name).1 (h.rightFilled.internClass name).1
      (q.internClass_same name)
  internSubsig {q} h text :=
    Program.Hosts.mentions h (q.internSubsig_spec text).1 (h.rightFilled.internSubsig text).1
      (q.internSubsig_same text)

namespace Reader

open Program

/-! ## 2. Readers that succeed -/

variable {α β : Type} {φ : Phase} {q : Program} {ts ts₁ ts₂ : List Token} {t u : Token}

/-- **On the tokens `ts` the reader succeeds**: it leaves the tokens `ts'`, it stays in the phase,
    and its result satisfies `post` in the program it leaves behind. -/
def Takes (φ : Phase) (q : Program) (ts ts' : List Token) (r : Reader α)
    (post : Program → α → Prop) : Prop :=
  ∀ ⦃tokens⦄ (said : Diagnostics), φ.Holds q → tokens.map LineToken.token = ts →
    ∃ a s, r ⟨tokens, q, said⟩ = .ok (a, s) ∧ φ.Holds s.program ∧ φ.To q s.program ∧
      s.tokens.map LineToken.token = ts' ∧ post s.program a

/-- The reader succeeds and leaves the program as it is. -/
abbrev Sees (q : Program) (ts ts' : List Token) (r : Reader α) (post : α → Prop) : Prop :=
  Takes .still q ts ts' r fun _ a => post a

theorem takes_pure {a : α} {post : Program → α → Prop} (h : post q a) :
    Takes φ q ts ts (pure a) post :=
  fun tokens said hq htokens => ⟨a, ⟨tokens, q, said⟩, rfl, hq, φ.refl q, htokens, h⟩

theorem Takes.bind {r : Reader α} {f : α → Reader β} {mid : Program → α → Prop}
    {post : Program → β → Prop} (hr : Takes φ q ts ts₁ r mid)
    (hf : ∀ q' a, φ.Holds q' → φ.To q q' → mid q' a → Takes φ q' ts₁ ts₂ (f a) post) :
    Takes φ q ts ts₂ (r >>= f) post := by
  intro tokens said hq htokens
  obtain ⟨a, u, hrun, hu, hqu, htokens', hmid⟩ := hr said hq htokens
  obtain ⟨b, s, hrun', hs, hus, htokens'', hpost⟩ :=
    hf u.program a hu hqu hmid u.diagnostics hu htokens'
  exact ⟨b, s, run_bind.mpr ⟨a, u, hrun, hrun'⟩, hs, φ.trans hqu hus, htokens'', hpost⟩

/-- A reader that leaves the program alone does so in every phase. -/
theorem Takes.inPhase {r : Reader α} {post : α → Prop} (h : Sees q ts ts₁ r post) :
    Takes φ q ts ts₁ r fun q' a => q' = q ∧ post a := by
  intro tokens said hq htokens
  obtain ⟨a, s, hrun, -, hsame, htokens', hpost⟩ := h said trivial htokens
  have hsame : s.program = q := hsame
  exact ⟨a, s, hrun, hsame ▸ hq, hsame ▸ φ.refl q, htokens', hsame, hpost⟩

theorem Takes.after {r : Reader α} {f : α → Reader β} {mid : α → Prop}
    {post : Program → β → Prop} (hr : Sees q ts ts₁ r mid)
    (hf : ∀ a, mid a → Takes φ q ts₁ ts₂ (f a) post) : Takes φ q ts ts₂ (r >>= f) post :=
  hr.inPhase.bind fun _ a _ _ h => h.1 ▸ hf a h.2

theorem Takes.mono {r : Reader α} {post post' : Program → α → Prop} (hr : Takes φ q ts ts₁ r post)
    (h : ∀ q' a, φ.To q q' → post q' a → post' q' a) : Takes φ q ts ts₁ r post' := by
  intro tokens said hq htokens
  obtain ⟨a, s, hrun, hs, hqs, htokens', hpost⟩ := hr said hq htokens
  exact ⟨a, s, hrun, hs, hqs, htokens', h _ _ hqs hpost⟩

theorem Takes.map {r : Reader α} {post : Program → β → Prop} (f : α → β)
    (hr : Takes φ q ts ts₁ r fun q' a => post q' (f a)) : Takes φ q ts ts₁ (f <$> r) post := by
  rw [← bind_pure_comp]
  exact hr.bind fun _ _ _ _ ha => takes_pure ha

theorem Takes.dropped {r : Reader α} {post : Program → α → Prop} (hr : Takes φ q ts ts₁ r post) :
    Takes φ q ts ts₁ (discard r) fun q' _ => ∃ a, post q' a :=
  Takes.bind hr fun _ a _ _ ha => takes_pure ⟨a, ha⟩

/-- A check that is passed. -/
theorem takes_guard {c : Prop} [Decidable c] {found : LineToken} {cause : ReadCause}
    {f : Unit → Reader α} {post : Program → α → Prop} (hc : ¬c)
    (h : Takes φ q ts ts₁ (f ()) post) :
    Takes φ q ts ts₁ (if c then fail found cause >>= f else f ()) post := by
  rw [if_neg hc]
  exact h

theorem takes_program {f : Program → Reader α} {post : Program → α → Prop}
    (h : Takes φ q ts ts₁ (f q) post) : Takes φ q ts ts₁ (program >>= f) post := h

theorem takes_update {f : Program → α × Program} {post : Program → α → Prop}
    (h : φ.Holds q → φ.Holds (f q).2 ∧ φ.To q (f q).2 ∧ post (f q).2 (f q).1) :
    Takes φ q ts ts (update f) post := by
  intro tokens said hq htokens
  obtain ⟨hholds, hto, hpost⟩ := h hq
  exact ⟨(f q).1, ⟨tokens, (f q).2, said⟩, rfl, hholds, hto, htokens, hpost⟩

/-! ## 3. Tokens -/

section Tokens

variable {post : Program → β → Prop}

/-- The next token is looked at. -/
theorem takes_peek {f : LineToken → Reader β}
    (h : ∀ line, Takes φ q (t :: ts) ts₁ (f ⟨t, line⟩) post) :
    Takes φ q (t :: ts) ts₁ (peek >>= f) post := by
  intro tokens said hq htokens
  obtain ⟨⟨token, line⟩, rest, rfl, rfl, -⟩ := List.map_eq_cons_iff.mp htokens
  exact h line said hq htokens

/-- The next token is passed. -/
theorem takes_advance (ht : t ≠ .endOfFile) {f : LineToken → Reader β}
    (h : ∀ line, Takes φ q ts ts₁ (f ⟨t, line⟩) post) :
    Takes φ q (t :: ts) ts₁ (advance >>= f) post := by
  intro tokens said hq htokens
  obtain ⟨⟨token, line⟩, rest, rfl, rfl, hrest⟩ := List.map_eq_cons_iff.mp htokens
  have hdrop : dropToken (⟨token, line⟩ :: rest) = rest := by rw [dropToken, if_neg ht]
  change ∃ a s, f ⟨token, line⟩ ⟨dropToken (⟨token, line⟩ :: rest), q, said⟩ = .ok (a, s) ∧ _
  rw [hdrop]
  exact h line said hq hrest

theorem takes_check {f : Bool → Reader β}
    (h : Takes φ q (t :: ts) ts₁ (f (decide (t = u))) post) :
    Takes φ q (t :: ts) ts₁ (check u >>= f) post := by
  rw [check, bind_assoc]
  exact takes_peek fun _ => h

/-- A token that is wanted is passed. -/
theorem takes_accept (ht : t ≠ .endOfFile) {f : Bool → Reader β}
    (h : Takes φ q ts ts₁ (f true) post) : Takes φ q (t :: ts) ts₁ (accept t >>= f) post := by
  rw [accept_bind_eq]
  refine takes_check ?_
  rw [decide_eq_true rfl, if_pos rfl]
  exact takes_advance ht fun _ => h

/-- A token that is not wanted is left. -/
theorem takes_decline (ht : t ≠ u) {f : Bool → Reader β}
    (h : Takes φ q (t :: ts) ts₁ (f false) post) :
    Takes φ q (t :: ts) ts₁ (accept u >>= f) post := by
  rw [accept_bind_eq]
  refine takes_check ?_
  rw [decide_eq_false ht, if_neg (by decide)]
  exact h

theorem takes_expectOr (ht : t ≠ .endOfFile) {cause : ReadCause} {f : LineToken → Reader β}
    (h : ∀ line, Takes φ q ts ts₁ (f ⟨t, line⟩) post) :
    Takes φ q (t :: ts) ts₁ (expectOr t cause >>= f) post := by
  rw [expectOr, bind_assoc]
  refine takes_check ?_
  rw [decide_eq_true rfl, if_pos rfl]
  exact takes_advance ht h

/-- A token that must be there is passed. -/
theorem takes_token (ht : t ≠ .endOfFile) {cause : ReadCause} {f : Unit → Reader β}
    (h : Takes φ q ts ts₁ (f ()) post) :
    Takes φ q (t :: ts) ts₁ (discard (expectOr t cause) >>= f) post := by
  have heq : (discard (expectOr t cause) >>= f) = expectOr t cause >>= fun _ => f () := by
    change ((expectOr t cause >>= fun _ => pure ()) >>= f) = _
    rw [bind_assoc]
    rfl
  rw [heq]
  exact takes_expectOr ht fun _ => h

/-- A token that was looked at is passed. -/
theorem takes_pass (ht : t ≠ .endOfFile) {f : Unit → Reader β}
    (h : Takes φ q ts ts₁ (f ()) post) :
    Takes φ q (t :: ts) ts₁ (discard advance >>= f) post := by
  have heq : (discard advance >>= f) = advance >>= fun _ => f () := rfl
  rw [heq]
  exact takes_advance ht fun _ => h

theorem takes_identifier {name : String} {f : LineToken × String → Reader β}
    (h : ∀ found, Takes φ q ts ts₁ (f (found, name)) post) :
    Takes φ q (.ident name :: ts) ts₁ (identifier >>= f) post := by
  rw [identifier, bind_assoc]
  refine takes_peek fun line => ?_
  dsimp only
  rw [bind_assoc]
  exact takes_advance (by rintro ⟨⟩) fun line => h ⟨.ident name, line⟩

theorem takes_readLabel {name : String} {f : LineToken → Reader β}
    (h : ∀ line, Takes φ q ts ts₁ (f ⟨.ident name, line⟩) post) :
    Takes φ q (.ident name :: ts) ts₁ (readLabel >>= f) post := by
  rw [readLabel, bind_assoc]
  refine takes_peek fun line => ?_
  exact takes_advance (by rintro ⟨⟩) h

theorem takes_remaining {f : Nat → Reader β} (h : Takes φ q ts ts₁ (f ts.length) post) :
    Takes φ q ts ts₁ (remaining >>= f) post := by
  intro tokens said hq htokens
  have hlength : tokens.length = ts.length := by rw [← htokens, List.length_map]
  change ∃ a s, f tokens.length ⟨tokens, q, said⟩ = .ok (a, s) ∧ _
  rw [hlength]
  exact h said hq htokens

end Tokens

/-! ## 4. Types -/

/-- The brackets behind a type, as many as there are. -/
def bracketTokens : Nat → List Token
  | 0 => []
  | n + 1 => .mark .leftBracket :: .mark .rightBracket :: bracketTokens n

/-- No pair of brackets comes next. -/
def NoBrackets (ts : List Token) : Prop :=
  ∀ rest, ts ≠ .mark .leftBracket :: .mark .rightBracket :: rest

theorem bracketPairs_eq {n : Nat} {tokens : List LineToken}
    (h : tokens.map LineToken.token = bracketTokens n ++ ts) (hts : NoBrackets ts) :
    (bracketPairs tokens).1 = n ∧ (bracketPairs tokens).2.map LineToken.token = ts := by
  induction n generalizing tokens with
  | zero =>
    have hnone : bracketPairs tokens = (0, tokens) := by
      unfold bracketPairs
      split
      · exact absurd h.symm (hts _)
      · rfl
    rw [hnone]
    exact ⟨rfl, h⟩
  | succ n ih =>
    obtain ⟨⟨left, line⟩, rest, rfl, hleft, hrest⟩ := List.map_eq_cons_iff.mp h
    obtain ⟨⟨right, line'⟩, rest', rfl, hright, hrest'⟩ := List.map_eq_cons_iff.mp hrest
    obtain rfl : left = .mark .leftBracket := hleft
    obtain rfl : right = .mark .rightBracket := hright
    obtain ⟨hcount, hleave⟩ := ih hrest'
    exact ⟨congrArg (· + 1) hcount, hleave⟩

theorem takes_readBrackets (n : Nat) (hts : NoBrackets ts) (ty : Ty) :
    Sees q (bracketTokens n ++ ts) ts (readBrackets ty) fun ty' => ty' = arrayOf ty n := by
  intro tokens said _ htokens
  obtain ⟨hcount, hleave⟩ := bracketPairs_eq htokens hts
  refine ⟨arrayOf ty (bracketPairs tokens).1, ⟨(bracketPairs tokens).2, q, said⟩, rfl, trivial, rfl,
    hleave, ?_⟩
  rw [hcount]

theorem arrayOf_array (ty : Ty) (n : Nat) : arrayOf (.array ty) n = arrayOf ty (n + 1) := by
  induction n with
  | zero => rfl
  | succ n ih =>
    rw [arrayOf, ih]
    rfl

theorem alike_arrayOf {p : Program} {ty ty' : Ty} (h : ty.Alike p q ty') (n : Nat) :
    (arrayOf ty n).Alike p q (arrayOf ty' n) := by
  induction n with
  | zero => exact h
  | succ n ih => exact ih

variable {d p : Program} {m : MethodId}

/-- **The tokens of a type are read as a type of that name.** -/
theorem takes_readType (hφ : φ.Mentions) {ty : Ty} (hty : ty.Known p) (hts : NoBrackets ts) :
    Takes φ q (p.tyTokens ty ++ ts) ts readType fun q' ty' =>
      ty'.Known q' ∧ ty.Alike p q' ty' := by
  -- a type is a type without brackets, and then brackets
  suffices h : ∀ n, Takes φ q (p.tyTokens ty ++ (bracketTokens n ++ ts)) ts readType fun q' ty' =>
      ty'.Known q' ∧ (arrayOf ty n).Alike p q' ty' from h 0
  induction ty with
  | prim t =>
    intro n
    refine takes_advance (by rintro ⟨⟩) fun line => ?_
    have hbrackets := takes_readBrackets (q := q) n hts (.prim t)
    refine hbrackets.inPhase.mono fun q' ty' _ h => ?_
    obtain ⟨rfl, rfl⟩ := h
    have hknown : (Ty.prim t).Known q' := trivial
    have halike : (Ty.prim t).Alike p q' (.prim t) := rfl
    exact ⟨known_arrayOf hknown n, alike_arrayOf halike n⟩
  | object c =>
    intro n
    refine takes_advance (by rintro ⟨⟩) fun line => ?_
    have hclass : Takes φ q (bracketTokens n ++ ts) (bracketTokens n ++ ts)
        (Ty.object <$> internClass (p.classAt c).name) fun q' ty' =>
          ty'.Known q' ∧ (Ty.object c).Alike p q' ty' := by
      refine Takes.map Ty.object (takes_update fun hq => ?_)
      obtain ⟨-, hc, hname⟩ := q.internClass_spec (p.classAt c).name
      obtain ⟨hholds, hto⟩ := hφ.internClass hq (p.classAt c).name
      exact ⟨hholds, hto, ⟨hc, hname.symm ▸ hty.2⟩, hty.1, hc, hname⟩
    refine hclass.bind fun q' ty' _ _ hty' => ?_
    refine (takes_readBrackets n hts ty').inPhase.mono fun q'' ty'' _ h => ?_
    obtain ⟨rfl, rfl⟩ := h
    exact ⟨known_arrayOf hty'.1 n, alike_arrayOf hty'.2 n⟩
  | array elem ih =>
    intro n
    have ih := ih hty (n + 1)
    rw [← arrayOf_array] at ih
    rw [tyTokens, List.append_assoc]
    exact ih

/-! ## 5. Variables, fields and methods -/

section Parts

variable {post : Program → β → Prop}

theorem takes_lookupVar (h : Hosts d p m q) (hvars : HasVars p m q) {v : VarId} (hv : p.Named m v)
    (found : LineToken) {f : VarId → Reader β} (hf : Takes φ q ts ts₁ (f v) post) :
    Takes φ q ts ts₁ (lookupVar m found (p.varName v) >>= f) post := by
  rw [lookupVar, bind_assoc]
  refine takes_program ?_
  rw [h.varByName?_named hvars hv]
  exact hf

/-- The name of a variable is read as the variable. -/
theorem takes_readVar (h : Hosts d p m q) (hvars : HasVars p m q) {v : VarId} (hv : p.Named m v)
    {f : VarId → Reader β} (hf : Takes φ q ts ts₁ (f v) post) :
    Takes φ q (p.varToken v :: ts) ts₁ (readVar m >>= f) post := by
  rw [readVar, bind_assoc]
  exact takes_identifier fun found => takes_lookupVar h hvars hv found hf

theorem sees_readArgs (h : Hosts d p m q) (hvars : HasVars p m q) {vs : List VarId}
    (hvs : ∀ v ∈ vs, p.Named m v) (hne : vs ≠ []) (ht : t ≠ .mark .comma) {n : Nat}
    (hn : (p.argTokens vs ++ t :: ts).length ≤ n) :
    Sees q (p.argTokens vs ++ t :: ts) (t :: ts) (commaList (readVar m) n) fun a => a = vs := by
  induction vs generalizing n with
  | nil => exact absurd rfl hne
  | cons v vs ih =>
    obtain ⟨n, rfl⟩ : ∃ k, n = k + 1 := by
      refine Nat.exists_eq_add_one.mpr (Nat.lt_of_lt_of_le ?_ hn)
      rw [List.length_append]
      exact Nat.lt_of_lt_of_le (Nat.succ_pos ts.length) (Nat.le_add_left _ _)
    have hv := hvs v List.mem_cons_self
    have hlater : ∀ w ∈ vs, p.Named m w := fun w hw => hvs w (List.mem_cons_of_mem v hw)
    cases vs with
    | nil => exact takes_readVar h hvars hv (takes_decline ht (takes_pure rfl))
    | cons w vs =>
      refine takes_readVar h hvars hv (takes_accept (by rintro ⟨⟩) ?_)
      have hn : (p.argTokens (w :: vs) ++ t :: ts).length ≤ n := by
        simp only [argTokens, List.cons_append, List.length_cons] at hn
        omega
      refine (ih hlater (List.cons_ne_nil w vs) hn).after fun args hargs => takes_pure ?_
      rw [hargs]

/-- What is written in the parentheses of a call is read as the arguments. -/
theorem sees_readArguments (ts : List Token) (h : Hosts d p m q) (hvars : HasVars p m q)
    {vs : List VarId} (hvs : ∀ v ∈ vs, p.Named m v) :
    Sees q (.mark .leftParen :: (p.argTokens vs ++ .mark .rightParen :: ts)) ts
      (readArguments m vs.length) fun args => args = vs := by
  have hclose : Sees q (.mark .rightParen :: ts) ts
      (do
        let close ← expect (.mark .rightParen)
        if vs.length ≠ vs.length then
          fail close (.argumentCount vs.length vs.length)
        return vs) fun args => args = vs :=
    takes_expectOr (by rintro ⟨⟩) fun line => takes_guard (fun hne => hne rfl) (takes_pure rfl)
  refine takes_token (by rintro ⟨⟩) ?_
  cases vs with
  | nil => exact takes_check hclose
  | cons v vs =>
    have hfirst : ∃ later,
        p.argTokens (v :: vs) ++ .mark .rightParen :: ts = p.varToken v :: later := by
      cases vs with
      | nil => exact ⟨_, rfl⟩
      | cons w vs => exact ⟨_, rfl⟩
    have hargs : Sees q (p.argTokens (v :: vs) ++ .mark .rightParen :: ts) (.mark .rightParen :: ts)
        (commas (readVar m)) fun args => args = v :: vs :=
      takes_remaining (sees_readArgs h hvars hvs (List.cons_ne_nil v vs) (by rintro ⟨⟩)
        (Nat.le_refl _))
    obtain ⟨later, hlater⟩ := hfirst
    rw [hlater] at hargs ⊢
    refine takes_check ?_
    rw [decide_eq_false (by rintro ⟨⟩), if_neg (by decide)]
    refine Takes.after hargs fun args heq => ?_
    rw [heq]
    exact hclose

/-- A class that declares a field finds it. -/
theorem resolveField?_declared (hp : p.Coherent) {f : FieldId} (hf : f < p.fields.size) :
    p.resolveField? (p.fieldAt f).owner (p.fieldAt f).name = some f := by
  have hfield := hp.fields f hf
  obtain ⟨n, hn⟩ := Nat.exists_eq_add_one.mpr (Nat.lt_of_le_of_lt (Nat.zero_le _) hfield.owner)
  rw [resolveField?, ancestors, hn, superChain, List.findSome?_cons, hfield.declared]

/-- A field access is read as the access of that field, if no variable hides the class it may go
    through. -/
theorem takes_readFieldAccess (h : Hosts d p m q) (hvars : HasVars p m q) {base : Option VarId}
    {f : FieldId} (haccess : p.FieldAccess m base f)
    (hopen : base = none → p.varByName? m (p.baseName none f) = none) (found : LineToken)
    {g : Option VarId × FieldId → Reader β} (hg : Takes φ q ts ts₁ (g (base, f)) post) :
    Takes φ q (.ident (p.fieldAt f).name :: ts) ts₁
      (readFieldAccess m found (p.baseName base f) >>= g) post := by
  rw [readFieldAccess, bind_assoc]
  refine takes_identifier fun fieldFound => ?_
  -- from the class of the base on
  have hfield : ∀ c, q.resolveField? c (p.fieldAt f).name = some f → Takes φ q ts ts₁
      (accessedField fieldFound (p.fieldAt f).name base c >>= g) post := by
    intro c hc
    rw [accessedField, bind_assoc]
    refine takes_program ?_
    rw [hc]
    dsimp only
    rw [if_neg]
    · exact hg
    · rw [h.fieldAt_eq, haccess.kind]
      simp
  simp only [fieldBase, bind_assoc]
  refine takes_program ?_
  cases base with
  | some b =>
    obtain ⟨hnamed, c, hc, hresolve⟩ := haccess.found b rfl
    have hmem : b ∈ (q.methodAt m).vars := by
      have hvars : (q.methodAt m).vars = (p.methodAt m).vars := hvars
      exact hvars ▸ hnamed.mem
    obtain ⟨c', hc', hclass⟩ := Ty.Alike.class? (h.varTy b hmem) hc
    rw [baseName, h.varByName?_named hvars hnamed]
    dsimp only
    rw [hc']
    exact hfield c' (h.resolveField? hclass hresolve)
  | none =>
    have hlt : f < d.fields.size := by
      rw [← h.left.sameFields]
      exact haccess.field
    have hsame : p.fieldAt f = d.fieldAt f := h.left.fieldAt hlt
    have howner : (p.fieldAt f).owner < d.classes.size := by
      rw [hsame]
      exact (h.declared.fields f hlt).owner
    have hclass : p.classByName? (p.baseName none f) = some (p.fieldAt f).owner :=
      h.leftFilled.coherent.names.classByName?_eq_some_iff.mpr
        ⟨Nat.lt_of_lt_of_le howner h.left.classes, rfl⟩
    have hresolve : q.resolveField? (p.fieldAt f).owner (p.fieldAt f).name = some f := by
      refine h.right.resolveField? h.declared howner ?_
      rw [hsame]
      exact resolveField?_declared h.declared hlt
    rw [h.varByName?_eq hvars, hopen rfl, h.classByName? hclass howner]
    exact hfield _ hresolve

/-- **A printed signature is read as the method it names**, if its subsignature has the canonical
    spelling. -/
theorem takes_readMethodRef (hφ : φ.Mentions) {r : MethodRef} {arity : Nat}
    (href : p.RefKnown r arity)
    (hcanonical : normalSubsig (p.subsigAt r.subsig) = p.subsigAt r.subsig) :
    Takes φ q (p.refToken r :: ts) ts readMethodRef fun q' x =>
      r.Alike p q' x.1 ∧ x.2 = arity := by
  refine takes_advance (by rintro ⟨⟩) fun line => ?_
  obtain ⟨text, subsig, -, hcut, -⟩ := href.written
  dsimp only [refToken]
  rw [String.toList_ofList, cutSignature?_printed hcut]
  dsimp only
  rw [normalSubsig_space, hcanonical, href.arity]
  have hclass : Takes φ q ts ts (internClass (p.classAt r.owner).name) fun q' c =>
      ClassAlike p q' r.owner c := takes_update fun hq => by
    obtain ⟨-, hc, hname⟩ := q.internClass_spec (p.classAt r.owner).name
    obtain ⟨hholds, hto⟩ := hφ.internClass hq (p.classAt r.owner).name
    exact ⟨hholds, hto, href.owner, hc, hname⟩
  refine hclass.bind fun q' c _ _ hc => ?_
  have hsubsig : Takes φ q' ts ts (update (·.internSubsig (p.subsigAt r.subsig))) fun r' s =>
      q'.Fills r' ∧ s < r'.subsigs.size ∧ r'.subsigAt s = p.subsigAt r.subsig :=
    takes_update fun hq => by
      obtain ⟨hholds, hto⟩ := hφ.internSubsig hq (p.subsigAt r.subsig)
      exact ⟨hholds, hto, q'.internSubsig_spec (p.subsigAt r.subsig)⟩
  refine hsubsig.bind fun r' s _ _ ⟨hf, hs, htext⟩ => takes_pure ⟨?_, rfl⟩
  exact ⟨hc.grows (.refl p) hf.toGrows, href.subsig, hs, htext⟩

end Parts

end Reader

/-! ## 6. Statements that can be read back -/

/-- **The text of the statement means the statement**: no variable of the method has the name of
    the class that a static field is accessed through, and the subsignature of a call is in its
    canonical spelling. -/
def StmtOf.Unambiguous {τ : Type} (p : Program) (m : MethodId) : StmtOf τ → Prop
  | .loadField _ base f | .storeField base f _ =>
    base = none → p.varByName? m (p.baseName none f) = none
  | .call i => normalSubsig (p.subsigAt i.target.subsig) = p.subsigAt i.target.subsig
  | _ => True

instance {τ : Type} (p : Program) (m : MethodId) :
    (stmt : StmtOf τ) → Decidable (stmt.Unambiguous p m)
  | .loadField _ base f | .storeField base f _ =>
    inferInstanceAs (Decidable (base = none → p.varByName? m (p.baseName none f) = none))
  | .call i =>
    inferInstanceAs (Decidable
      (normalSubsig (p.subsigAt i.target.subsig) = p.subsigAt i.target.subsig))
  | .alloc .. | .assign .. | .loadArray .. | .storeArray .. | .branch .. | .jump _ | .switch ..
  | .ret _ | .nop => inferInstanceAs (Decidable True)

namespace Reader

open Program

/-- The label is the one that is printed for the target. -/
def Marks (target : Nat) (label : LineToken) : Prop := label.token = labelToken target

variable {β : Type} {d p q : Program} {m : MethodId} {ts : List Token}

theorem takes_readInvoke (ts : List Token) (h : Hosts d p m q) (hvars : HasVars p m q) {i : Invoke}
    (hi : (StmtOf.call i : Stmt).Known p m) (hplain : (StmtOf.call i : Stmt).Unambiguous p m) :
    Takes (.hosting d p m) q
      ((i.base.map fun b => [p.varToken b, .mark .dot]).getD [] ++ p.refToken i.target ::
        .mark .leftParen :: (p.argTokens i.args ++ .mark .rightParen :: ts)) ts
      (readInvoke m i.kind i.result) fun q' i' => StmtOf.Alike p q' Marks (.call i) (.call i') := by
  obtain ⟨kind, target, base, args, result⟩ := i
  obtain ⟨hnamed, hkind, href⟩ := hi
  have hargs : ∀ v ∈ args, p.Named m v := fun v hv => hnamed v (by simp [StmtOf.uses, hv])
  have htarget : Takes (.hosting d p m) q
      (p.refToken target :: .mark .leftParen :: (p.argTokens args ++ .mark .rightParen :: ts)) ts
      (readTarget m kind base result) fun q' i' =>
        StmtOf.Alike p q' Marks (.call ⟨kind, target, base, args, result⟩) (.call i') := by
    refine (takes_readMethodRef (mentions_hosting d p m) href hplain).bind fun q' x hq' hqq' hx => ?_
    obtain ⟨target', arity⟩ := x
    obtain ⟨halike, harity⟩ := hx
    obtain rfl : arity = args.length := harity
    refine (sees_readArguments ts hq' (hvars.writes hq' hqq') hargs).after fun args' hargs' => ?_
    subst hargs'
    exact takes_pure (.call halike)
  unfold readInvoke
  cases base with
  | some b =>
    have hreceiver : kind.hasReceiver = true := hkind.symm
    rw [hreceiver]
    have hb := hnamed b (by simp [StmtOf.uses])
    exact takes_readVar h hvars hb (takes_token (by rintro ⟨⟩) htarget)
  | none =>
    have hreceiver : kind.hasReceiver = false := hkind.symm
    rw [hreceiver]
    exact htarget

/-! ## 7. Assignments -/

/-- A statement that assigns to a variable is read by what is assigned. -/
theorem takes_assigned {φ : Phase} {ts₁ : List Token} {post : Program → StmtOf LineToken → Prop}
    (h : Hosts d p m q) (hvars : HasVars p m q) {x : VarId} (hx : p.Named m x)
    (hsource : Takes φ q ts ts₁ (readSource m x) post) :
    Takes φ q (p.varToken x :: .mark .assign :: ts) ts₁ (readAssignment m) post := by
  refine takes_identifier fun found => takes_decline (by rintro ⟨⟩) ?_
  refine takes_lookupVar h hvars hx found (takes_decline (by rintro ⟨⟩) ?_)
  exact takes_token (by rintro ⟨⟩) hsource

theorem takes_readAlloc (ts : List Token) (hvars : HasVars p m q) {x : VarId} {ty : Ty}
    {length : Option VarId} (hty : ty.Known p) (hlength : length.isSome → ∃ elem, ty = .array elem)
    (hnamed : ∀ v ∈ length, p.Named m v) :
    ∃ source, p.coreTokens (.alloc x ty length) = p.varToken x :: .mark .assign :: source ∧
      Takes (.hosting d p m) q (source ++ .mark .semicolon :: ts) (.mark .semicolon :: ts)
        (readSource m x) fun q' s => StmtOf.Alike p q' Marks (.alloc x ty length) s := by
  cases length with
  | none =>
    refine ⟨.keyword .newObject :: p.tyTokens ty, by cases ty <;> rfl, ?_⟩
    refine takes_peek fun line => takes_pass (by rintro ⟨⟩) ?_
    refine (takes_readType (mentions_hosting d p m) hty (by rintro _ ⟨⟩)).bind fun q' ty' _ _ hty' => ?_
    exact takes_decline (by rintro ⟨⟩) (takes_pure (.alloc hty'.2))
  | some v =>
    obtain ⟨elem, rfl⟩ := hlength rfl
    refine ⟨.keyword .newObject ::
      (p.tyTokens elem ++ [.mark .leftBracket, p.varToken v, .mark .rightBracket]), rfl, ?_⟩
    rw [List.cons_append, List.append_assoc]
    refine takes_peek fun line => takes_pass (by rintro ⟨⟩) ?_
    have hbrackets : NoBrackets ([.mark .leftBracket, p.varToken v, .mark .rightBracket] ++
        .mark .semicolon :: ts) := by rintro _ ⟨⟩
    have helem : elem.Known p := hty
    refine (takes_readType (mentions_hosting d p m) helem hbrackets).bind
      fun q' ty' hq' hqq' hty' => ?_
    refine takes_accept (by rintro ⟨⟩) ?_
    refine takes_readVar hq' (hvars.writes hq' hqq') (hnamed v rfl) ?_
    refine takes_token (by rintro ⟨⟩) (takes_pure ?_)
    have harray : (Ty.array elem).Alike p q' (.array ty') := hty'.2
    exact .alloc harray

theorem takes_readExp (h : Hosts d p m q) (hvars : HasVars p m q) {x : VarId} {rhs : Exp}
    (hrhs : (StmtOf.assign x rhs : Stmt).Known p m) :
    Takes (.hosting d p m) q (p.expTokens rhs ++ .mark .semicolon :: ts) (.mark .semicolon :: ts)
      (readSource m x) fun q' s => StmtOf.Alike p q' Marks (.assign x rhs) s := by
  have hnamed := hrhs.vars
  cases rhs with
  | var v =>
    have hv := hnamed v (by simp [StmtOf.uses])
    refine takes_peek fun line => ?_
    refine takes_identifier fun found => takes_decline (by rintro ⟨⟩) ?_
    refine takes_lookupVar h hvars hv found (takes_decline (by rintro ⟨⟩) ?_)
    exact takes_peek fun line => takes_pure .var
  | int value => exact takes_peek fun line => takes_pass (by rintro ⟨⟩) (takes_pure .int)
  | binary op left right =>
    have hleft := hnamed left (by simp [StmtOf.uses])
    have hright := hnamed right (by simp [StmtOf.uses])
    refine takes_peek fun line => ?_
    refine takes_identifier fun found => takes_decline (by rintro ⟨⟩) ?_
    refine takes_lookupVar h hvars hleft found (takes_decline (by rintro ⟨⟩) ?_)
    refine takes_peek fun line => takes_pass (by rintro ⟨⟩) ?_
    exact takes_readVar h hvars hright (takes_pure .binary)
  | cast ty v =>
    have hv := hnamed v (by simp [StmtOf.uses])
    have hty : ty.Known p := hrhs.fits
    rw [expTokens, List.cons_append, List.append_assoc]
    refine takes_peek fun line => takes_pass (by rintro ⟨⟩) ?_
    have hbrackets : NoBrackets ([.mark .rightParen, p.varToken v] ++ .mark .semicolon :: ts) := by
      rintro _ ⟨⟩
    refine (takes_readType (mentions_hosting d p m) hty hbrackets).bind
      fun q' ty' hq' hqq' hty' => ?_
    refine takes_token (by rintro ⟨⟩) ?_
    exact takes_readVar hq' (hvars.writes hq' hqq') hv (takes_pure (.cast hty'.2))

/-! ## 8. Statements -/

theorem sees_readCases (arms : List (Int32 × Nat)) {n : Nat}
    (hn : (arms.flatMap caseTokens ++ .keyword .defaultArm :: ts).length ≤ n) :
    Sees q (arms.flatMap caseTokens ++ .keyword .defaultArm :: ts) (.keyword .defaultArm :: ts)
      (readCases n) (List.Forall₂ (fun a b => b.1 = a.1 ∧ Marks a.2 b.2) arms) := by
  induction arms generalizing n with
  | nil =>
    obtain ⟨n, rfl⟩ : ∃ k, n = k + 1 :=
      Nat.exists_eq_add_one.mpr (Nat.lt_of_lt_of_le (Nat.succ_pos _) hn)
    exact takes_decline (by rintro ⟨⟩) (takes_pure .nil)
  | cons arm arms ih =>
    obtain ⟨n, rfl⟩ : ∃ k, n = k + 1 :=
      Nat.exists_eq_add_one.mpr (Nat.lt_of_lt_of_le (Nat.succ_pos _) hn)
    refine takes_accept (by rintro ⟨⟩) (takes_advance (by rintro ⟨⟩) fun line => ?_)
    refine takes_token (by rintro ⟨⟩) (takes_readLabel fun line' => takes_token (by rintro ⟨⟩) ?_)
    have hn : (arms.flatMap caseTokens ++ .keyword .defaultArm :: ts).length ≤ n := by
      simp only [List.flatMap_cons, caseTokens, List.cons_append, List.nil_append,
        List.length_cons] at hn
      omega
    exact (ih hn).after fun arms' harms => takes_pure (.cons ⟨rfl, rfl⟩ harms)

theorem takes_readSwitch {φ : Phase} (h : Hosts d p m q) (hvars : HasVars p m q) {on : VarId}
    (hon : p.Named m on) (arms : List (Int32 × Nat)) (otherwise : Nat) :
    Takes φ q (p.stmtTokens (.switch on arms otherwise) ++ ts) ts (readStmt m) fun q' s =>
      StmtOf.Alike p q' Marks (.switch on arms otherwise) s := by
  have htokens : p.stmtTokens (.switch on arms otherwise) ++ ts =
      .keyword .switchJump :: .mark .leftParen :: p.varToken on :: .mark .rightParen ::
        .mark .leftBrace :: (arms.flatMap caseTokens ++ .keyword .defaultArm :: .mark .colon ::
          labelToken otherwise :: .mark .semicolon :: .mark .rightBrace :: ts) := by
    simp [stmtTokens, coreTokens, endTokens]
  rw [htokens]
  refine takes_peek fun line => takes_pass (by rintro ⟨⟩) (takes_token (by rintro ⟨⟩) ?_)
  refine takes_readVar h hvars hon (takes_token (by rintro ⟨⟩) (takes_token (by rintro ⟨⟩) ?_))
  refine takes_remaining ?_
  refine (sees_readCases arms (Nat.le_refl _)).after fun arms' harms => ?_
  refine takes_token (by rintro ⟨⟩) (takes_token (by rintro ⟨⟩) ?_)
  refine takes_readLabel fun line' => takes_token (by rintro ⟨⟩) (takes_token (by rintro ⟨⟩) ?_)
  exact takes_pure (.switch rfl harms)

/-- **The tokens of a printed statement are read as the statement.** -/
theorem takes_readStmt (ts : List Token) (h : Hosts d p m q) (hvars : HasVars p m q) {stmt : Stmt}
    (hstmt : stmt.Known p m) (hplain : stmt.Unambiguous p m) :
    Takes (.hosting d p m) q (p.stmtTokens stmt ++ ts) ts (readStmt m) fun q' s =>
      stmt.Alike p q' Marks s := by
  have hnamed := hstmt.vars
  have hfits := hstmt.fits
  -- the semicolon behind most statements
  have hend : ∀ {q' : Program} {s : StmtOf LineToken}, stmt.Alike p q' Marks s →
      Takes (.hosting d p m) q' (.mark .semicolon :: ts) ts
        (discard (expect (.mark .semicolon)) >>= fun _ => pure s) fun q' s =>
          stmt.Alike p q' Marks s := fun hs => takes_token (by rintro ⟨⟩) (takes_pure hs)
  -- a statement that starts with a name
  have hassign : ∀ {name : String} {later : List Token}, Takes (.hosting d p m) q
      (.ident name :: later) (.mark .semicolon :: ts) (readAssignment m)
        (fun q' s => stmt.Alike p q' Marks s) →
      Takes (.hosting d p m) q (.ident name :: later) ts (readStmt m) fun q' s =>
        stmt.Alike p q' Marks s := fun hread =>
    takes_peek fun line => hread.bind fun q' s _ _ hs => hend hs
  unfold stmtTokens
  rw [List.append_assoc]
  cases stmt with
  | alloc x ty length =>
    have hx := hnamed x (by simp [StmtOf.defined?])
    obtain ⟨source, htokens, hsource⟩ := takes_readAlloc (x := x) ts hvars hfits.1 hfits.2
      fun v hv => hnamed v (by simp [StmtOf.uses, Option.mem_def.mp hv])
    rw [htokens]
    exact hassign (takes_assigned h hvars hx hsource)
  | assign x rhs =>
    have hx := hnamed x (by simp [StmtOf.defined?])
    exact hassign (takes_assigned h hvars hx (takes_readExp h hvars hstmt))
  | loadField x base f =>
    have hx := hnamed x (by simp [StmtOf.defined?])
    refine hassign (takes_assigned h hvars hx (takes_peek fun line => ?_))
    refine takes_identifier fun found => takes_accept (by rintro ⟨⟩) ?_
    exact takes_readFieldAccess h hvars hfits hplain found (takes_pure .loadField)
  | storeField base f y =>
    have hy := hnamed y (by simp [StmtOf.uses])
    refine hassign (takes_identifier fun found => takes_accept (by rintro ⟨⟩) ?_)
    refine takes_readFieldAccess h hvars hfits hplain found (takes_token (by rintro ⟨⟩) ?_)
    exact takes_readVar h hvars hy (takes_pure .storeField)
  | loadArray x base index =>
    have hx := hnamed x (by simp [StmtOf.defined?])
    have hbase := hnamed base (by simp [StmtOf.uses])
    have hindex := hnamed index (by simp [StmtOf.uses])
    refine hassign (takes_assigned h hvars hx (takes_peek fun line => ?_))
    refine takes_identifier fun found => takes_decline (by rintro ⟨⟩) ?_
    refine takes_lookupVar h hvars hbase found (takes_accept (by rintro ⟨⟩) ?_)
    exact takes_readVar h hvars hindex (takes_token (by rintro ⟨⟩) (takes_pure .loadArray))
  | storeArray base index y =>
    have hbase := hnamed base (by simp [StmtOf.uses])
    have hindex := hnamed index (by simp [StmtOf.uses])
    have hy := hnamed y (by simp [StmtOf.uses])
    refine hassign (takes_identifier fun found => takes_decline (by rintro ⟨⟩) ?_)
    refine takes_lookupVar h hvars hbase found (takes_accept (by rintro ⟨⟩) ?_)
    refine takes_readVar h hvars hindex (takes_token (by rintro ⟨⟩) (takes_token (by rintro ⟨⟩) ?_))
    exact takes_readVar h hvars hy (takes_pure .storeArray)
  | call i =>
    have hinvoke := takes_readInvoke (.mark .semicolon :: ts) h hvars hstmt hplain
    have htokens : p.invokeTokens i ++ endTokens (.call i) ++ ts =
        .keyword (.invoke i.kind) ::
        ((i.base.map fun b => [p.varToken b, .mark .dot]).getD [] ++
        p.refToken i.target :: .mark .leftParen ::
        (p.argTokens i.args ++ .mark .rightParen :: .mark .semicolon :: ts)) := by
      simp [invokeTokens, endTokens]
    cases hresult : i.result with
    | none =>
      rw [hresult] at hinvoke
      rw [coreTokens, hresult, ← List.append_assoc]
      change Takes _ _ (p.invokeTokens i ++ endTokens (.call i) ++ ts) _ _ _
      rw [htokens]
      refine takes_peek fun line => takes_pass (by rintro ⟨⟩) ?_
      exact hinvoke.bind fun q' i' _ _ hi' => hend hi'
    | some x =>
      have hx := hnamed x (by simp [StmtOf.defined?, hresult])
      rw [hresult] at hinvoke
      rw [coreTokens, hresult, ← List.append_assoc]
      change Takes _ _ (p.varToken x :: .mark .assign ::
        (p.invokeTokens i ++ endTokens (.call i) ++ ts)) _ _ _
      rw [htokens]
      refine hassign (takes_assigned h hvars hx ?_)
      refine takes_peek fun line => takes_pass (by rintro ⟨⟩) ?_
      exact hinvoke.bind fun q' i' _ _ hi' => takes_pure hi'
  | branch left op right target =>
    have hleft := hnamed left (by simp [StmtOf.uses])
    have hright := hnamed right (by simp [StmtOf.uses])
    have hop : op.isComparison = true := hfits
    refine takes_peek fun line => takes_pass (by rintro ⟨⟩) ?_
    have hbranch : Sees q (p.varToken left :: .operator op :: p.varToken right ::
        .keyword .gotoJump :: labelToken target :: .mark .semicolon :: ts) (.mark .semicolon :: ts)
        (readBranch m) fun s => StmtOf.Alike p q Marks (.branch left op right target) s := by
      refine takes_readVar h hvars hleft (takes_advance (by rintro ⟨⟩) fun line => ?_)
      refine takes_guard (by simp [hop]) ?_
      refine takes_readVar h hvars hright (takes_token (by rintro ⟨⟩) ?_)
      exact takes_readLabel fun line => takes_pure (.branch rfl)
    exact hbranch.after fun s hs => hend hs
  | jump target =>
    refine takes_peek fun line => takes_pass (by rintro ⟨⟩) ?_
    exact takes_readLabel fun line => hend (.jump rfl)
  | switch on arms otherwise =>
    have hon := hnamed on (by simp [StmtOf.uses])
    rw [← List.append_assoc]
    exact takes_readSwitch h hvars hon arms otherwise
  | ret value =>
    cases value with
    | none =>
      refine takes_peek fun line => takes_pass (by rintro ⟨⟩) ?_
      have hvoid : (q.methodAt m).retType = .prim .void := (h.retType_eq m).trans hfits
      have hreturn : Sees q (.mark .semicolon :: ts) (.mark .semicolon :: ts)
          (readReturn m ⟨.keyword .returnJump, line⟩) fun s =>
            StmtOf.Alike p q Marks (.ret none) s := by
        refine takes_check (takes_program (takes_guard (fun hne => hne hvoid) ?_))
        exact takes_pure .ret
      exact hreturn.after fun s hs => hend hs
    | some v =>
      refine takes_peek fun line => takes_pass (by rintro ⟨⟩) ?_
      have hv := hnamed v (by simp [StmtOf.uses])
      have hreturn : Sees q (p.varToken v :: .mark .semicolon :: ts) (.mark .semicolon :: ts)
          (readReturn m ⟨.keyword .returnJump, line⟩) fun s =>
            StmtOf.Alike p q Marks (.ret (some v)) s := by
        refine takes_check ?_
        exact takes_readVar h hvars hv (takes_pure .ret)
      exact hreturn.after fun s hs => hend hs
  | nop => exact takes_peek fun line => takes_pass (by rintro ⟨⟩) (hend .nop)

end Reader

end ObjectFlow
