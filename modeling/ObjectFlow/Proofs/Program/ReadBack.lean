/-
  File:      ObjectFlow/Proofs/Program/ReadBack.lean
  Subject:   A PROGRAM WHOSE TOKENS HAVE A PRINTED BODY IN PLACE OF ITS OWN.

  * `Reader.readBody_printed`: a printed body gives a method its variables and its statements;
  * `Reader.readBodies_printed`: so do all bodies, with a printed one in the place of one of them;
  * `Reader.balanced_bodyTokens`: every brace that is opened in a printed body is closed there;
  * `Reader.LeavesBody`: the tokens that are left to be read as the body of a method;
  * `Reader.ofTokens_printed`: the tokens with a printed body give a program that is alike.
-/
import ObjectFlow.Proofs.Program.BodySwap
import ObjectFlow.Proofs.Program.PrintedItems
import ObjectFlow.Proofs.Token.Cutting

namespace ObjectFlow

/-! ## 1. Likeness to a program as it was before -/

section Before

variable {p q r : Program}

theorem Ty.Alike.before {ty ty' : Ty} (h : ty.Alike r q ty') (hg : p.Grows r) (hty : ty.Known p) :
    ty.Alike p q ty' := by
  induction ty generalizing ty' with
  | prim t =>
    cases ty' with
    | prim t' => exact h
    | _ => exact h.elim
  | object c =>
    cases ty' with
    | object c' =>
      have hc : ClassAlike r q c c' := h
      exact ⟨hty.1, hc.right, hc.name.trans (hg.className hty.1)⟩
    | _ => exact h.elim
  | array elem ih =>
    cases ty' with
    | array elem' => exact ih h hty
    | _ => exact h.elim

/-- A statement that fits a program mentions only what is there. -/
theorem StmtOf.Alike.before {τ τ' : Type} {T : τ → τ' → Prop} {m : MethodId} {s : StmtOf τ}
    {s' : StmtOf τ'} (h : s.Alike r q T s') (hg : p.Grows r) (hs : s.Fits p m) :
    s.Alike p q T s' := by
  cases h with
  | alloc h => exact .alloc (h.before hg hs.1)
  | cast h => exact .cast (h.before hg hs)
  | call h =>
    have hown := hs.2.owner
    have hsub := hs.2.subsig
    exact .call ⟨⟨hown, h.owner.right, h.owner.name.trans (hg.className hown)⟩, hsub, h.right,
      h.subsig.trans (hg.subsigAt hsub)⟩
  | branch h => exact .branch h
  | jump h => exact .jump h
  | switch h hcases => exact .switch h hcases
  | _ => constructor

end Before

namespace Program

variable {d p p' q r r' : Program} {m : MethodId}

/-- **A program that is alike takes up a method of what the program grows to.** -/
theorem Alike.hosts (h : Alike d p p') (hm : m < p.methods.size) (hf : p.Fills r) (hr : r.Filled) :
    Hosts d r m p' where
  toKin := ⟨h.declared, h.left.trans hf, h.right, hr, h.rightFilled⟩
  vars := by
    rw [h.methodVars]
    exact hf.methodVars hm
  varName v hv := by
    have hlt : v < p.vars.size := h.leftFilled.coherent.mem_vars_lt (h.methodVars m ▸ hv)
    rw [h.varName hlt, hf.varName_eq hlt]
  varTy v hv := by
    have hlt : v < p.vars.size := h.leftFilled.coherent.mem_vars_lt (h.methodVars m ▸ hv)
    rw [hf.varTy_eq hlt]
    exact (h.varTy hlt).grows hf.toGrows (.refl p')

/-- Taking up a method that is complete, of a program as it was before. -/
theorem Hosts.before (h : Hosts d r m q) (hf : p.Fills r) (hd : d.Fills p) (hp : p.Filled)
    (hvars : (r.methodAt m).vars = (p.methodAt m).vars) : Hosts d p m q where
  toKin := ⟨h.declared, hd, h.right, hp, h.rightFilled⟩
  vars := by
    rw [← hvars]
    exact h.vars
  varName v hv := by
    have hlt : v < p.vars.size := hp.coherent.mem_vars_lt (hvars ▸ h.vars.mem hv)
    rw [h.varName v hv, hf.varName_eq hlt]
  varTy v hv := by
    have hlt : v < p.vars.size := hp.coherent.mem_vars_lt (hvars ▸ h.vars.mem hv)
    have halike := h.varTy v hv
    rw [hf.varTy_eq hlt] at halike
    exact halike.before hf.toGrows (hp.coherent.vars v hlt).ty

/-- **When both programs have the variables of the method, they are alike again.** -/
theorem Alike.hosted (h : Alike d p p') (hw : p.Writes m r) (hw' : p'.Writes m r')
    (hr : Hosts d r m r') (hvars : HasVars r m r') : Alike d r r' := by
  have hvars : (r'.methodAt m).vars = (r.methodAt m).vars := hvars
  have hsize : r'.vars.size = r.vars.size := by
    have hlength := congrArg List.length hvars
    rw [hw.new, hw'.new, h.methodVars, h.vars] at hlength
    simp only [List.length_append, List.length_range'] at hlength
    have := hw.vars
    have := hw'.vars
    have := h.vars
    omega
  -- a variable of the method is new, or it was there before
  have hcases : ∀ {v}, v < r.vars.size → v < p.vars.size ∨ v ∈ (r'.methodAt m).vars := by
    intro v hv
    rcases Nat.lt_or_ge v p.vars.size with hold | hnew
    · exact .inl hold
    · refine .inr ?_
      rw [hvars, hw.new]
      exact List.mem_append_right _ (List.mem_range'_1.mpr ⟨hnew, by omega⟩)
  refine ⟨hr.toKin, hsize, fun {v} hv => ?_, fun {v} hv => ?_, fun n => ?_, fun n => ?_⟩
  · rcases hcases hv with hold | hnew
    · have hold' : v < p'.vars.size := h.vars ▸ hold
      rw [hw.varName_eq hold, hw'.varName_eq hold', h.varName hold]
    · exact hr.varName v hnew
  · rcases hcases hv with hold | hnew
    · have hold' : v < p'.vars.size := h.vars ▸ hold
      rw [hw.varTy_eq hold, hw'.varTy_eq hold']
      exact (h.varTy hold).grows hw.toGrows hw'.toGrows
    · exact hr.varTy v hnew
  · by_cases hn : n = m
    · rw [hn, hvars]
    · rw [hw.others n hn, hw'.others n hn, h.methodVars]
  · have hstmts : ∀ {a b : Program}, a.Writes m b → (b.methodAt n).stmts = (a.methodAt n).stmts :=
      fun hab => by rw [MethodDecl.stmts, MethodDecl.stmts, hab.body n]
    rw [hstmts hw, hstmts hw']
    exact (h.bodies n).imp fun _ _ hs => hs.grows hw.toGrows hw'.toGrows

/-- **The locals of a method are what its body adds**: before it is read, they are awaited. -/
theorem Writes.awaits (hw : p.Writes m r) (hf : r.Fills q)
    (hq : (q.methodAt m).vars = (r.methodAt m).vars)
    (hlisted : (p.methodAt m).vars.length =
      (p.methodAt m).this.toList.length + (p.methodAt m).params.length)
    (hp : (p'.methodAt m).vars = (p.methodAt m).vars) (hsize : p'.vars.size = p.vars.size) :
    Awaits q m p' (q.methodAt m).locals := by
  have hheader : (q.methodAt m).header = (p.methodAt m).header :=
    (hf.header m).trans (hw.header m)
  have hthis : (q.methodAt m).this = (p.methodAt m).this := (congrArg MethodDecl.this hheader :)
  have hparams : (q.methodAt m).params = (p.methodAt m).params :=
    (congrArg MethodDecl.params hheader :)
  have hlocals : (q.methodAt m).locals =
      List.range' p.vars.size (r.vars.size - p.vars.size) := by
    rw [MethodDecl.locals, hthis, hparams, ← hlisted, hq, hw.new]
    exact List.drop_left
  refine ⟨?_, ?_, fun v hv u hu huv => ?_⟩
  · rw [hlocals, hp, hq, hw.new]
  · rw [hlocals, hsize, List.length_range']
  · rw [hlocals] at hv
    obtain ⟨hle, hlt⟩ := List.mem_range'_1.mp hv
    rw [Nat.add_sub_cancel' hw.vars] at hlt
    rw [hf.varName_eq hlt, hf.varName_eq (Nat.lt_trans huv hlt)]
    exact hw.fresh hle hlt (hq ▸ hu) huv

end Program

namespace Reader

open Program

/-! ## 2. The body that is replaced -/

variable {d p p' q : Program} {m : MethodId} {ts ts' : List LineToken} {s : ReaderState}
  {said : Diagnostics}

/-- **A body and its printed form are read to programs that are alike.** The body is printed in the
    program `q` that there is when all bodies have been read. -/
theorem readBody_printed (h : Alike d p p') (hm : m < p.methods.size) (hblock : Block ts ts)
    (hspelled : Spelled ts) (hrun : readBody m ⟨ts, p, said⟩ = .ok ((), s))
    (hlisted : (p.methodAt m).vars.length =
      (p.methodAt m).this.toList.length + (p.methodAt m).params.length)
    (hq : q.Filled) (hf : s.program.Fills q) (hsame : q.methodAt m = s.program.methodAt m)
    (hinside : q.JumpsInside) (hplain : ∀ stmt ∈ (q.methodAt m).stmts, stmt.Unambiguous q m)
    (hspelled' : Spelled ts') {rest : List Token} (hprinted : ts'.map LineToken.token =
      .mark .leftBrace :: (q.bodyTokens m ++ .mark .rightBrace :: rest)) (said' : Diagnostics) :
    ∃ s', readBody m ⟨ts', p', said'⟩ = .ok ((), s') ∧ Alike d s.program s'.program := by
  obtain ⟨instrs, u, hinstrs, hset⟩ := run_bind.mp hrun
  have hself : Alike d p p := .refl h.declared h.left h.leftFilled
  obtain ⟨_, u₁, -, hu, hw, -⟩ := mirrors_readInstrs hm said hself hblock hinstrs
  have hu : Alike d u.program u₁.program := hu
  have hw : p.Writes m u.program := hw
  have hknown := (reads_readInstrs hm h.leftFilled hspelled hinstrs).2.2.2
  have hmu : m < u.program.methods.size := Nat.lt_of_lt_of_le hm hw.methods
  cases hset
  -- from the body that has been read to the program that is printed
  have hset := hu.leftFilled.setBody hmu instrs.toArray fun i hi => hknown i (List.mem_toArray.mp hi)
  have hat := methodAt_modifyMethod u.program m m (fun e => { e with body := instrs.toArray }) hmu
  rw [if_pos rfl] at hat
  have hmethod : q.methodAt m = { u.program.methodAt m with body := instrs.toArray } :=
    hsame.trans hat
  have hfills : u.program.Fills q := hset.2.toFills.trans hf
  have hvars : (q.methodAt m).vars = (u.program.methodAt m).vars := by rw [hmethod]
  have hstmts : (q.methodAt m).stmts = instrs.map (·.stmt) := by rw [hmethod, MethodDecl.stmts]
  have hmq : m < q.methods.size := Nat.lt_of_lt_of_le hmu hfills.methods
  have hall : ∀ stmt ∈ (q.methodAt m).stmts, stmt.Known q m := fun stmt hstmt => by
    obtain ⟨i, hi, rfl⟩ := List.mem_map.mp hstmt
    exact hq.known m hmq i (Array.mem_toList_iff.mp hi)
  -- the printed body is read
  have hm' : m < p'.methods.size := h.methods_size ▸ hm
  have hhosts : Hosts d q m p' := h.hosts hm (hw.toFills.trans hfills) hq
  have hawaits : Awaits q m p' (q.methodAt m).locals :=
    hw.awaits hfills hvars hlisted (h.methodVars m) h.vars
  obtain ⟨instrs', u', hinstrs', hhosted, hw', -, hhas, halike⟩ :=
    takes_readInstrs hm' hinside hall hplain hawaits said' hhosts hprinted
  have hhosted : Hosts d q m u'.program := hhosted
  have hw' : p'.Writes m u'.program := hw'
  have hknown' := (reads_readInstrs hm' h.rightFilled hspelled' hinstrs').2.2.2
  have hhas' : HasVars u.program m u'.program := hhas.trans hvars
  have hagain : Alike d u.program u'.program :=
    h.hosted hw hw' (hhosted.before hfills hu.left hu.leftFilled hvars) hhas'
  refine ⟨_, run_bind.mpr ⟨instrs', u', hinstrs', rfl⟩, ?_⟩
  refine hagain.setBody hmu (fun i hi => ?_) (fun i hi => ?_) ?_
  · exact hknown i (List.mem_toArray.mp hi)
  · exact hknown' i (List.mem_toArray.mp hi)
  · have hfits : ∀ stmt ∈ (q.methodAt m).stmts, stmt.Fits u.program m := fun stmt hstmt => by
      rw [hstmts] at hstmt
      obtain ⟨i, hi, rfl⟩ := List.mem_map.mp hstmt
      exact (hknown i hi).fits
    have hback := ((List.forall₂_and_left _ _).mpr ⟨hfits, halike⟩).imp fun _ _ hs =>
      StmtOf.Alike.before hs.2 hfills.toGrows hs.1
    rw [hstmts] at hback
    simpa using hback

/-! ## 3. All bodies -/

theorem readBodies_append (bs cs : List PendingBody) :
    readBodies (bs ++ cs) = readBodies bs >>= fun _ => readBodies cs := by
  induction bs with
  | nil => rfl
  | cons b bs ih =>
    rw [List.cons_append, readBodies, readBodies, ih]
    simp only [bind_assoc]

theorem Block.left (h : Block ts ts') : Block ts ts := by
  obtain ⟨line, -, inner, -, rfl, -, hspelled, c, -, rest, -, rfl, -, -, hskip⟩ := h
  exact ⟨line, line, c ++ rest, c ++ rest, rfl, rfl, hspelled, c, c, rest, rest, rfl, rfl,
    List.forall₂_same.mpr fun _ _ => rfl, hskip⟩

theorem PendingAlike.lefts {bs bs' : List PendingBody} (h : List.Forall₂ PendingAlike bs bs') :
    List.Forall₂ PendingAlike bs bs := by
  induction h with
  | nil => exact .nil
  | cons hb _ ih => exact .cons ⟨rfl, hb.block.left, hb.left, hb.left⟩ ih

/-- **When all bodies are read, one of them in its printed form, the programs are alike.** -/
theorem readBodies_printed (ts' : List LineToken) (hd : d.Filled) (hlisted : d.VarsListed)
    {T T' : List LineToken}
    {pre pre' post post' : List PendingBody} (hpre : List.Forall₂ PendingAlike pre pre')
    (hpost : List.Forall₂ PendingAlike post post') (hready : ∀ b ∈ pre ++ ⟨m, T⟩ :: post, b.Ready d)
    (hother : ∀ b ∈ pre ++ post, b.method ≠ m)
    (hrun : readBodies (pre ++ ⟨m, T⟩ :: post) ⟨ts, d, said⟩ = .ok ((), s))
    (hblock : Block T T) (hinside : s.program.JumpsInside)
    (hplain : ∀ stmt ∈ (s.program.methodAt m).stmts, stmt.Unambiguous s.program m)
    (hspelled' : Spelled T') {rest : List Token} (hprinted : T'.map LineToken.token =
      .mark .leftBrace :: (s.program.bodyTokens m ++ .mark .rightBrace :: rest))
    (said' : Diagnostics) :
    ∃ s', readBodies (pre' ++ ⟨m, T'⟩ :: post') ⟨ts', d, said'⟩ = .ok ((), s') ∧
      Alike d s.program s'.program := by
  have hmem : ∀ {b}, b ∈ pre → b ∈ pre ++ ⟨m, T⟩ :: post := fun hb => List.mem_append_left _ hb
  have hmem' : ∀ {b}, b ∈ post → b ∈ pre ++ ⟨m, T⟩ :: post := fun hb =>
    List.mem_append_right _ (List.mem_cons_of_mem _ hb)
  obtain ⟨hm, hspelled⟩ := hready ⟨m, T⟩ (List.mem_append_right _ List.mem_cons_self)
  rw [readBodies_append] at hrun ⊢
  obtain ⟨_, u, hbefore, hrun⟩ := run_bind.mp hrun
  obtain ⟨_, u₁, hset, hrun⟩ := run_bind.mp hrun
  cases hset
  obtain ⟨_, v, hbody, hafter⟩ := run_bind.mp hrun
  -- the bodies before the one that is printed
  have hself : Alike d d d := .refl hd.coherent (.refl d) hd
  obtain ⟨u', hbefore', hu, hkept⟩ :=
    readBodies_mirrors hself hpre (fun b hb => (hready b (hmem hb)).1) hbefore ts' said'
  have hmu : m < u.program.methods.size := hu.left.sameMethods ▸ hm
  have hsame : u.program.methodAt m = d.methodAt m :=
    hkept m fun b hb => hother b (List.mem_append_left _ hb)
  -- the bodies behind it leave its method as it is
  obtain ⟨hv, hfills, hvtokens, -⟩ := reads_readBody hmu hu.leftFilled hspelled hbody
  have hv : v.program.Filled := hv
  have hfills : u.program.FillsBodies v.program := hfills
  have hdv : d.Fills v.program := hu.left.trans hfills.toFills
  have hreadyv : ∀ b ∈ post, b.Ready v.program := fun b hb =>
    (hready b (hmem' hb)).grows hdv.toGrows
  obtain ⟨hs, hfills', -⟩ := reads_readBodies hreadyv hv hvtokens hafter
  have hs : s.program.Filled := hs
  have hfills' : v.program.FillsBodies s.program := hfills'
  obtain ⟨-, -, -, hkept'⟩ := readBodies_mirrors (.refl hd.coherent hdv hv)
    (PendingAlike.lefts hpost) (fun b hb => (hreadyv b hb).1) hafter [] {}
  have hsame' : s.program.methodAt m = v.program.methodAt m :=
    hkept' m fun b hb => hother b (List.mem_append_right _ hb)
  -- the one that is printed, and the bodies behind it
  have hlist : (u.program.methodAt m).vars.length =
      (u.program.methodAt m).this.toList.length + (u.program.methodAt m).params.length := by
    rw [hsame]
    exact hlisted m
  obtain ⟨v', hbody', hvv⟩ := readBody_printed hu hmu hblock hspelled hbody hlist hs
    hfills'.toFills hsame' hinside hplain hspelled' hprinted u'.diagnostics
  obtain ⟨s', hafter', hss, -⟩ := readBodies_mirrors hvv hpost (fun b hb => (hreadyv b hb).1) hafter
    v'.tokens v'.diagnostics
  refine ⟨s', run_bind.mpr ⟨(), u', hbefore', ?_⟩, hss⟩
  exact run_bind.mpr ⟨(), ⟨T', u'.program, u'.diagnostics⟩, rfl,
    run_bind.mpr ⟨(), v', hbody', hafter'⟩⟩

/-! ## 4. The braces of a printed body -/

/-- **Every brace that is opened is closed**: passing over the tokens leaves the depth as it is. -/
def Balanced (ts : List Token) : Prop :=
  ∀ depth (tokens rest : List LineToken), tokens.map LineToken.token = ts →
    skipBlock? (depth + 1) (tokens ++ rest) = skipBlock? (depth + 1) rest

/-- Tokens without braces. -/
def isFlat (ts : List Token) : Bool := ts.all (!·.isStop)

@[simp] theorem isFlat_nil : isFlat [] = true := rfl

@[simp] theorem isFlat_cons (t : Token) (ts : List Token) :
    isFlat (t :: ts) = (!t.isStop && isFlat ts) := rfl

@[simp] theorem isFlat_append (ts ts' : List Token) :
    isFlat (ts ++ ts') = (isFlat ts && isFlat ts') := List.all_append

theorem balanced_of_isFlat {ts : List Token} (h : isFlat ts = true) : Balanced ts := by
  intro depth tokens rest htokens
  induction tokens generalizing ts with
  | nil => rfl
  | cons t tokens ih =>
    subst htokens
    simp only [List.map_cons, isFlat_cons, Bool.and_eq_true, Bool.not_eq_true'] at h
    rw [List.cons_append, skipBlock?_of_not_stop h.1]
    exact ih h.2 rfl

namespace Balanced

variable {ts ts' : List Token}

theorem append (h : Balanced ts) (h' : Balanced ts') : Balanced (ts ++ ts') := by
  intro depth tokens rest htokens
  obtain ⟨c, c', rfl, hc, hc'⟩ := List.map_eq_append_iff.mp htokens
  rw [List.append_assoc, h depth c _ hc, h' depth c' _ hc']

theorem flatMap {α : Type} {f : α → List Token} {items : List α} (h : ∀ a ∈ items, Balanced (f a)) :
    Balanced (items.flatMap f) := by
  induction items with
  | nil => exact balanced_of_isFlat rfl
  | cons a items ih =>
    rw [List.flatMap_cons]
    exact (h a List.mem_cons_self).append (ih fun b hb => h b (List.mem_cons_of_mem a hb))

/-- A block ends with the brace that closes it. -/
theorem close (h : Balanced ts) {depth : Nat} {tokens rest : List LineToken} {t : LineToken}
    (htokens : tokens.map LineToken.token = ts) (ht : t.token = .mark .rightBrace) :
    skipBlock? (depth + 1) (tokens ++ t :: rest) = skipBlock? depth rest := by
  rw [h depth tokens _ htokens, skipBlock?]
  simp only [ht]

theorem braces (h : Balanced ts) : Balanced (.mark .leftBrace :: ts ++ [.mark .rightBrace]) := by
  intro depth tokens rest htokens
  obtain ⟨block, last, rfl, hblock, hlast⟩ := List.map_eq_append_iff.mp htokens
  obtain ⟨⟨left, line⟩, c, rfl, hleft, hc⟩ := List.map_eq_cons_iff.mp hblock
  obtain ⟨right, none, rfl, hright, hnone⟩ := List.map_eq_cons_iff.mp hlast
  obtain rfl := List.map_eq_nil_iff.mp hnone
  obtain rfl : left = .mark .leftBrace := hleft
  rw [List.append_assoc, List.cons_append]
  change skipBlock? (depth + 2) (c ++ right :: rest) = _
  exact h.close hc hright

end Balanced

section Printed

variable (p)

theorem isFlat_tyTokens (ty : Ty) : isFlat (p.tyTokens ty) = true := by
  induction ty with
  | array elem ih => simp [tyTokens, Token.isStop, ih]
  | _ => rfl

theorem isFlat_argTokens (vs : List VarId) : isFlat (p.argTokens vs) = true := by
  induction vs with
  | nil => rfl
  | cons v vs ih =>
    cases vs with
    | nil => rfl
    | cons w vs => exact ih

theorem isFlat_caseTokens (arms : List (Int32 × Nat)) : isFlat (arms.flatMap caseTokens) = true := by
  induction arms with
  | nil => rfl
  | cons arm arms ih => exact ih

theorem balanced_stmtTokens (stmt : Stmt) : Balanced (p.stmtTokens stmt) := by
  cases stmt with
  | switch on arms otherwise =>
    have hhead : Balanced
        [.keyword .switchJump, .mark .leftParen, p.varToken on, .mark .rightParen] :=
      balanced_of_isFlat rfl
    have harms : Balanced (arms.flatMap caseTokens ++
        [.keyword .defaultArm, .mark .colon, labelToken otherwise, .mark .semicolon]) :=
      (balanced_of_isFlat (isFlat_caseTokens arms)).append (balanced_of_isFlat rfl)
    have htokens := hhead.append harms.braces
    simpa [stmtTokens, coreTokens, endTokens] using htokens
  | alloc x ty length =>
    refine balanced_of_isFlat ?_
    cases ty <;> cases length <;>
      simp [stmtTokens, coreTokens, endTokens, varToken, Token.isStop, isFlat_tyTokens]
  | assign x rhs =>
    refine balanced_of_isFlat ?_
    cases rhs <;>
      simp [stmtTokens, coreTokens, endTokens, expTokens, varToken, Token.isStop, isFlat_tyTokens]
  | call i =>
    refine balanced_of_isFlat ?_
    obtain ⟨kind, target, base, args, result⟩ := i
    cases base <;> cases result <;>
      simp [stmtTokens, coreTokens, endTokens, invokeTokens, refToken, varToken, Token.isStop,
        isFlat_argTokens]
  | ret value => cases value <;> exact balanced_of_isFlat rfl
  | _ => exact balanced_of_isFlat rfl

theorem balanced_bodyTokens (m : MethodId) : Balanced (p.bodyTokens m) := by
  refine (Balanced.flatMap fun v _ => ?_).append (.flatMap fun line _ => ?_)
  · refine balanced_of_isFlat ?_
    simp [declTokens, varToken, Token.isStop, isFlat_tyTokens]
  · rw [lineTokens]
    refine Balanced.append ?_ (balanced_stmtTokens p line.1)
    split <;> exact balanced_of_isFlat rfl

end Printed

/-! ## 5. Whole programs -/

/-- The bodies that are left to be read when the declarations in the tokens have been read. -/
def leftBodies (ts : List LineToken) : List PendingBody :=
  match readClasses ts.length ⟨ts, {}, {}⟩ with
  | .ok (bodies, _) => bodies
  | .error _ => []

/-- **The body of the method is left to be read from `T` on.** -/
def LeavesBody (ts : List LineToken) (m : MethodId) (T : List LineToken) : Prop :=
  ∃ b ∈ leftBodies ts, b.method = m ∧ b.tokens = T

instance (ts : List LineToken) (m : MethodId) (T : List LineToken) :
    Decidable (LeavesBody ts m T) :=
  inferInstanceAs (Decidable (∃ b ∈ leftBodies ts, b.method = m ∧ b.tokens = T))

theorem leavesBody_iff {bodies : List PendingBody} {u : ReaderState} {T : List LineToken}
    (h : readClasses ts.length ⟨ts, {}, {}⟩ = .ok (bodies, u)) :
    LeavesBody ts m T ↔ (⟨m, T⟩ : PendingBody) ∈ bodies := by
  rw [LeavesBody, leftBodies, h]
  constructor
  · rintro ⟨⟨method, tokens⟩, hb, rfl, rfl⟩
    exact hb
  · exact fun hb => ⟨_, hb, rfl, rfl⟩

theorem readProgram_eq_ok : readProgram ⟨ts, p, said⟩ = .ok ((), s) ↔ ∃ bodies u,
    readClasses ts.length ⟨ts, p, said⟩ = .ok (bodies, u) ∧ readBodies bodies u = .ok ((), s) := by
  constructor
  · intro h
    obtain ⟨_, u, hlength, h⟩ := run_bind.mp h
    cases hlength
    obtain ⟨bodies, u, hclasses, hbodies⟩ := run_bind.mp h
    exact ⟨bodies, u, hclasses, hbodies⟩
  · intro ⟨bodies, u, hclasses, hbodies⟩
    exact run_bind.mpr ⟨ts.length, ⟨ts, p, said⟩, rfl, run_bind.mpr ⟨bodies, u, hclasses, hbodies⟩⟩

/-- **The two passes over an accepted text**: the declarations are read up to the state `u`, and
    then the bodies that were left. -/
structure Passes (ts : List LineToken) (bodies : List PendingBody) (u s : ReaderState) : Prop where
  classes : readClasses ts.length ⟨ts, {}, {}⟩ = .ok (bodies, u)
  rest : readBodies bodies u = .ok ((), s)
  declared : u.program.Declared
  ready : ∀ b ∈ bodies, b.Ready u.program
  fallen : Fallen ⟨ts, {}, {}⟩ bodies u
  fills : u.program.Fills s.program
  kept : ∀ n, (∀ b ∈ bodies, b.method ≠ n) → s.program.methodAt n = u.program.methodAt n

theorem exists_passes (hspelled : Spelled ts) (hended : Ended ts) (h : ofTokens ts = .ok p) :
    ∃ bodies u s, Passes ts bodies u s ∧ s.program = p := by
  obtain ⟨s, hrun, hp⟩ := ofTokens_eq_ok.mp h
  obtain ⟨bodies, u, hclasses, hbodies⟩ := readProgram_eq_ok.mp hrun
  obtain ⟨hdeclared, -, -, hready⟩ := reads_readClasses _ declared_empty hspelled hclasses
  have hdeclared : u.program.Declared := hdeclared
  have hfallen := fallen_readClasses ⟨varsListed_empty, hspelled, hended⟩ hclasses
  have hself : Alike u.program u.program u.program :=
    .refl hdeclared.coherent (.refl _) hdeclared.filled
  have hsame : List.Forall₂ PendingAlike bodies bodies := List.forall₂_same.mpr fun b hb =>
    ⟨rfl, hfallen.blocks b hb, (hready b hb).2, (hready b hb).2⟩
  obtain ⟨_, -, halike, hkept⟩ :=
    readBodies_mirrors hself hsame (fun b hb => (hready b hb).1) hbodies [] {}
  exact ⟨bodies, u, s, ⟨hclasses, hbodies, hdeclared, hready, hfallen, halike.left, hkept⟩, hp⟩

/-- A body that is left is a block of the text, and belongs to a method of the program. -/
theorem LeavesBody.inside {T : List LineToken} (hleft : LeavesBody ts m T) (hspelled : Spelled ts)
    (hended : Ended ts) (h : ofTokens ts = .ok p) : m < p.methods.size ∧ T <:+ ts ∧ Block T T := by
  obtain ⟨bodies, u, s, hpasses, rfl⟩ := exists_passes hspelled hended h
  have hmem := (leavesBody_iff hpasses.classes).mp hleft
  rw [hpasses.fills.sameMethods]
  exact ⟨(hpasses.ready _ hmem).1, (hpasses.fallen.between _ hmem).2.1, hpasses.fallen.blocks _ hmem⟩

/-- **For a method with statements a body was left.** -/
theorem exists_leavesBody (hspelled : Spelled ts) (hended : Ended ts) (h : ofTokens ts = .ok p)
    (hbody : (p.methodAt m).hasBody = true) : ∃ T, LeavesBody ts m T := by
  obtain ⟨bodies, u, s, hpasses, rfl⟩ := exists_passes hspelled hended h
  by_contra hnone
  -- a method without a body is as it was declared
  have hsame := hpasses.kept m fun b hb hbm =>
    hnone ⟨b.tokens, (leavesBody_iff hpasses.classes).mpr (hbm ▸ hb)⟩
  rw [hsame, MethodDecl.hasBody, hpasses.declared.bodyless m] at hbody
  cases hbody

/-- Of the bodies that are left, those that were not swapped are the same on both sides. -/
theorem PendingMoved.alike {T T' : List LineToken} {bs bs' : List PendingBody}
    (h : List.Forall₂ (PendingMoved T T') bs bs') (hne : ∀ b ∈ bs, b.tokens ≠ T)
    (hleft : ∀ b ∈ bs, Spelled b.tokens) (hright : ∀ b ∈ bs', Spelled b.tokens) :
    List.Forall₂ PendingAlike bs bs' := by
  induction h with
  | nil => exact .nil
  | @cons b b' bs bs' hb _ ih =>
    have hblock : Block b.tokens b'.tokens := by
      rcases hb.block with ⟨hblock, -⟩ | ⟨hT, -⟩
      · exact hblock
      · exact absurd hT (hne b List.mem_cons_self)
    refine .cons ⟨hb.method, hblock, hleft b List.mem_cons_self, hright b' List.mem_cons_self⟩ ?_
    exact ih (fun c hc => hne c (List.mem_cons_of_mem b hc))
      (fun c hc => hleft c (List.mem_cons_of_mem b hc))
      fun c hc => hright c (List.mem_cons_of_mem b' hc)

/-- **A program is read back from its tokens with a printed body in place of its own.** -/
theorem ofTokens_printed {front T T' back' printed : List LineToken} {line : Nat}
    {inner back : List LineToken} (hspelled : Spelled (front ++ T)) (hended : Ended (front ++ T))
    (hspelled' : Spelled (front ++ T')) (h : ofTokens (front ++ T) = .ok p)
    (hleft : LeavesBody (front ++ T) m T) (hinside : p.JumpsInside)
    (hplain : ∀ stmt ∈ (p.methodAt m).stmts, stmt.Unambiguous p m)
    (hT : T = ⟨.mark .leftBrace, line⟩ :: inner) (hskip : skipBlock? 1 inner = some back)
    (hT' : T' = printed ++ back') (hprinted : printed.map LineToken.token =
      .mark .leftBrace :: (p.bodyTokens m ++ [.mark .rightBrace]))
    (hback : List.Forall₂ SameToken back back') :
    ∃ q d, ofTokens (front ++ T') = .ok q ∧ Alike d p q := by
  -- the printed body is a block
  have hswap : Swap T T' := by
    obtain ⟨⟨left, line'⟩, inner', rfl, hbrace, hinner'⟩ := List.map_eq_cons_iff.mp hprinted
    obtain rfl : left = .mark .leftBrace := hbrace
    obtain ⟨c, last, rfl, hc, hlast⟩ := List.map_eq_append_iff.mp hinner'
    obtain ⟨close, none, rfl, hclose, hnone⟩ := List.map_eq_cons_iff.mp hlast
    obtain rfl := List.map_eq_nil_iff.mp hnone
    refine ⟨line, line', inner, c ++ close :: back', back, back', hT, ?_, hskip, ?_, hback⟩
    · rw [hT']
      simp
    · exact ((balanced_bodyTokens p m).close hc hclose).trans (by rw [skipBlock?])
  obtain ⟨bodies, u, s, hpasses, rfl⟩ := exists_passes hspelled hended h
  obtain ⟨hclasses, hbodies, hdeclared, hready, hfallen, -, -⟩ := hpasses
  have hmem := (leavesBody_iff hclasses).mp hleft
  have hstart : Ready ⟨front ++ T, {}, {}⟩ := ⟨varsListed_empty, hspelled, hended⟩
  -- the declarations of the second text
  have haligned : Aligned T T' (front ++ T) (front ++ T') :=
    ⟨hspelled, hended, .inl ⟨front, front, rfl, rfl, List.forall₂_same.mpr fun _ _ => rfl⟩⟩
  obtain ⟨bodies', ⟨ts', d, said⟩, hclasses', hsame, -, -, hmoved⟩ :=
    readClasses_aligned hswap hstart haligned (Nat.le_refl _) (Nat.le_refl _)
      (.inr (.inr ⟨_, hmem, rfl⟩)) hclasses {}
  obtain rfl : d = u.program := hsame
  have hready' := (reads_readClasses _ declared_empty hspelled' hclasses').2.2.2
  -- the bodies in front of the one that is printed, and those behind it
  obtain ⟨pre, post, rfl⟩ := List.append_of_mem hmem
  obtain ⟨-, horder, hbefore⟩ := List.pairwise_append.mp hfallen.order
  have hafter := (List.pairwise_cons.mp horder).1
  have hother : ∀ b ∈ pre ++ post, b.method ≠ m ∧ b.tokens ≠ T := by
    intro b hb
    rcases List.mem_append.mp hb with hb | hb
    · obtain ⟨htokens, hmethod⟩ := hbefore b hb _ List.mem_cons_self
      exact ⟨Nat.ne_of_lt hmethod, fun heq => absurd (heq ▸ htokens) (Nat.lt_irrefl _)⟩
    · obtain ⟨htokens, hmethod⟩ := hafter b hb
      exact ⟨Nat.ne_of_gt hmethod, fun heq => absurd (heq ▸ htokens) (Nat.lt_irrefl _)⟩
  obtain ⟨pre', last, rfl, hpre, hlast⟩ := forall₂_split hmoved
  cases hlast with
  | @cons _ b' _ post' hb hpost =>
    obtain ⟨method, tokens⟩ := b'
    obtain rfl : method = m := hb.method
    obtain rfl : tokens = T' := by
      rcases hb.block with ⟨-, hne⟩ | ⟨-, hT'⟩
      · exact absurd rfl hne
      · exact hT'
    have hpre := PendingMoved.alike hpre (fun b hb => (hother b (List.mem_append_left _ hb)).2)
      (fun b hb => (hready b (List.mem_append_left _ hb)).2)
      fun b hb => (hready' b (List.mem_append_left _ hb)).2
    have hpost := PendingMoved.alike hpost (fun b hb => (hother b (List.mem_append_right _ hb)).2)
      (fun b hb => (hready b (List.mem_append_right _ (List.mem_cons_of_mem _ hb))).2)
      fun b hb => (hready' b (List.mem_append_right _ (List.mem_cons_of_mem _ hb))).2
    have hprinted' : tokens.map LineToken.token = .mark .leftBrace ::
        (s.program.bodyTokens method ++ .mark .rightBrace :: back'.map LineToken.token) := by
      rw [hT', List.map_append, hprinted]
      simp
    obtain ⟨s', hrun', halike⟩ := readBodies_printed ts' hdeclared.filled
      hfallen.ready.listed hpre hpost hready (fun b hb => (hother b hb).1) hbodies
      (hfallen.blocks _ hmem) hinside hplain
      (fun t ht => hspelled' t (List.mem_append_right _ ht)) hprinted' said
    refine ⟨s'.program, u.program, ofTokens_eq_ok.mpr ⟨s', ?_, rfl⟩, halike⟩
    exact readProgram_eq_ok.mpr ⟨_, _, hclasses', hrun'⟩

end Reader

end ObjectFlow
