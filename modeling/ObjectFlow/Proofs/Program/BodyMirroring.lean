/-
  File:      ObjectFlow/Proofs/Program/BodyMirroring.lean
  Subject:   BODIES WITH THE SAME TOKENS, READ INTO PROGRAMS THAT ARE ALIKE.

  * `Reader.Draft.Alike`: bodies that are alike as far as they have been read;
  * `mirrors_readItems`, `mirrors_readInstrs`: a body that is read on one side is read on the other;
  * `readBody_mirrors`, `readBodies_mirrors`: the programs stay alike, and only the methods whose
    bodies are read change.
-/
import ObjectFlow.Proofs.Program.StatementMirroring

namespace ObjectFlow

namespace Reader

open Program

variable {β β' : Type} {d p p' : Program} {m : MethodId} {R R₁ : TokenRel} {k depth : Nat}

/-! ## 1. Drafts -/

/-- **Bodies that are alike** as far as they have been read: labels of one name before the same
    statements. -/
structure Draft.Alike (p p' : Program) (b b' : Draft) : Prop where
  labels : List.Forall₂ (fun l l' => SameToken l.1 l'.1 ∧ l'.2 = l.2) b.labels b'.labels
  stmts : List.Forall₂ (fun x x' => x.2.Alike p p' SameToken x'.2) b.stmts.toList b'.stmts.toList

theorem map_find?_eq {σ σ' τ : Type} {S : σ → σ' → Prop} {xs : List σ} {ys : List σ'}
    (h : List.Forall₂ S xs ys) {f : σ → Bool} {f' : σ' → Bool} {g : σ → τ} {g' : σ' → τ}
    (hf : ∀ {a b}, S a b → f' b = f a) (hg : ∀ {a b}, S a b → g' b = g a) :
    (ys.find? f').map g' = (xs.find? f).map g := by
  induction h with
  | nil => rfl
  | cons hab _ ih =>
    rw [List.find?_cons, List.find?_cons, hf hab]
    split
    · exact congrArg some (hg hab)
    · exact ih

namespace Draft.Alike

variable {b b' : Draft}

theorem target?_eq (h : Draft.Alike p p' b b') {label label' : LineToken}
    (hlabel : SameToken label label') : b'.target? label' = b.target? label := by
  refine map_find?_eq h.labels (fun hl => ?_) fun hl => hl.2
  rw [hl.1, hlabel]

theorem size_eq (h : Draft.Alike p p' b b') : b'.stmts.size = b.stmts.size := by
  simpa using h.stmts.length_eq.symm

theorem grows {q q' : Program} (h : Draft.Alike p p' b b') (hp : p.Grows q) (hp' : p'.Grows q') :
    Draft.Alike q q' b b' :=
  ⟨h.labels, h.stmts.imp fun _ _ hs => hs.grows hp hp'⟩

theorem addLabel (h : Draft.Alike p p' b b') {label label' : LineToken}
    (hlabel : SameToken label label') :
    Draft.Alike p p' { b with labels := b.labels ++ [(label, b.stmts.size)] }
      { b' with labels := b'.labels ++ [(label', b'.stmts.size)] } :=
  ⟨List.rel_append h.labels (.cons ⟨hlabel, h.size_eq⟩ .nil), h.stmts⟩

theorem addStmt (h : Draft.Alike p p' b b') {stmt stmt' : StmtOf LineToken}
    (hstmt : stmt.Alike p p' SameToken stmt') (line line' : Nat) :
    Draft.Alike p p' { b with stmts := b.stmts.push (line, stmt) }
      { b' with stmts := b'.stmts.push (line', stmt') } := by
  refine ⟨h.labels, ?_⟩
  rw [Array.toList_push, Array.toList_push]
  exact List.rel_append h.stmts (.cons hstmt .nil)

theorem resolveStmts (h : Draft.Alike p p' b b') {stmts stmts' : List (Nat × StmtOf LineToken)}
    (hstmts : List.Forall₂ (fun x x' => x.2.Alike p p' SameToken x'.2) stmts stmts')
    {instrs : List Instr} (hr : b.resolveStmts stmts = .ok instrs) :
    ∃ instrs', b'.resolveStmts stmts' = .ok instrs' ∧ List.Forall₂ (StmtOf.Alike p p' Eq)
      (instrs.map (·.stmt)) (instrs'.map (·.stmt)) := by
  have hlabel : ∀ {l l' : LineToken} {i : Nat}, SameToken l l' → b.resolveLabel l = .ok i →
      b'.resolveLabel l' = .ok i := by
    intro l l' i hl hi
    unfold Draft.resolveLabel at hi ⊢
    rw [h.target?_eq hl]
    split at hi
    · exact hi
    · cases hi
  induction hstmts generalizing instrs with
  | nil =>
    cases hr
    exact ⟨[], rfl, .nil⟩
  | @cons x x' stmts stmts' hx _ ih =>
    obtain ⟨stmt, hstmt, hr⟩ := bind_eq_ok hr
    obtain ⟨rest, hrest, hr⟩ := bind_eq_ok hr
    cases hr
    obtain ⟨stmt', hstmt', halike⟩ := hx.resolve hlabel hstmt
    obtain ⟨rest', hrest', hall⟩ := ih hrest
    refine ⟨⟨x'.1, stmt'⟩ :: rest', ?_, .cons halike hall⟩
    rw [Draft.resolveStmts, hstmt', hrest']
    rfl

/-- Drafts that are alike are finished to bodies that are. -/
theorem finish (h : Draft.Alike p p' b b') {s t : ReaderState} {instrs : List Instr}
    (hr : b.finish s = .ok (instrs, t)) (s' : ReaderState) :
    ∃ instrs', b'.finish s' = .ok (instrs', s') ∧ List.Forall₂ (StmtOf.Alike p p' Eq)
      (instrs.map (·.stmt)) (instrs'.map (·.stmt)) := by
  obtain ⟨hnone, hresolve, -⟩ := Draft.finish_eq_ok.mp hr
  have hlast : (b'.labels.find? fun l => l.2 = b'.stmts.size).map (·.2) =
      (b.labels.find? fun l => l.2 = b.stmts.size).map (·.2) :=
    map_find?_eq h.labels (fun hl => by rw [hl.2, h.size_eq]) fun hl => hl.2
  rw [hnone, Option.map_none, Option.map_eq_none_iff] at hlast
  obtain ⟨instrs', hresolve', hall⟩ := h.resolveStmts h.stmts hresolve
  exact ⟨instrs', Draft.finish_eq_ok.mpr ⟨hlast, hresolve', rfl⟩, hall⟩

end Draft.Alike

/-! ## 2. Items -/

theorem mirrors_readDeclared (hR : Parallel R) (hm : m < p.methods.size) {ty ty' : Ty}
    (hty : ty.Shared p p' ty') :
    Mirrors (.bodies d m) R R 1 p p' (readDeclared m ty) (readDeclared m ty') fun _ _ _ _ => True := by
  refine mirrors_of_holds fun hp => ?_
  have hp : Alike d p p' := hp
  refine Mirrors.afterFirst (glances_identifier hR) fun (found, name) (found', name') hname => ?_
  obtain ⟨hname, heq⟩ := hname
  obtain rfl : name = name' := heq
  refine mirrors_program (mirrors_guard (fun hfresh => ?_) fun hfresh => ?_)
  · rw [hp.varByName?_eq]
    exact hfresh
  · have hfresh : p.varByName? m name = none := by simpa using hfresh
    have hfresh' : p'.varByName? m name = none := (hp.varByName?_eq m name).trans hfresh
    have hm' : m < p'.methods.size := hp.methods_size ▸ hm
    have hadd : Mirrors (.bodies d m) R R 0 p p' (update (·.addVar m name ty))
        (update (·.addVar m name ty')) fun _ _ _ _ => True := mirrors_update fun _ =>
      ⟨hp.addVar hm hname hty.left hty.right hty.alike hfresh,
        hp.leftFilled.writes_addVar hm hname hty.left hfresh,
        hp.rightFilled.writes_addVar hm' hname hty.right hfresh', trivial⟩
    exact hadd.dropped.mono fun _ _ _ _ _ _ _ => trivial

theorem mirrors_readVarDecl (hR : Parallel R) (hm : m < p.methods.size) :
    Mirrors (.bodies d m) R R 0 p p' (readVarDecl m) (readVarDecl m) fun _ _ _ _ => True := by
  refine (mirrors_readType hR (types_bodies d m)).bind fun q q' ty ty' _ hpq hpq' hty => ?_
  have hnames : Mirrors (.bodies d m) R R 0 q q' (commas (readDeclared m ty))
      (commas (readDeclared m ty')) fun _ _ => List.Forall₂ fun _ _ => True := by
    refine mirrors_commas (j := 1) hR (fun _ _ _ _ _ _ _ _ _ => trivial) fun r r' hqr hqr' => ?_
    have hqr : q.Writes m r := hqr
    have hqr' : q'.Writes m r' := hqr'
    have hpr : p.Writes m r := hpq.trans hqr
    exact mirrors_readDeclared hR (Nat.lt_of_lt_of_le hm hpr.methods)
      (hty.grows hqr.toGrows hqr'.toGrows)
  refine hnames.dropped.bind fun r r' _ _ _ _ _ _ => ?_
  exact ((glances_expect hR rfl).dropped.inDuo.relax (Nat.zero_le 1)).mono fun _ _ _ _ _ _ _ => trivial

/-- A name with a colon behind it is next. -/
def LabelNext (R : TokenRel) (name : String) : TokenRel := fun ts ts' =>
  At R (.ident name) ts ts' ∧ At R (.mark .colon) (ts.drop 1) (ts'.drop 1)

theorem mirrors_atLabel {f : Bool → Reader β} {f' : Bool → Reader β'}
    {post : Program → Program → β → β' → Prop} {δ : Duo} (hR : Parallel R)
    (htrue : ∀ name, Mirrors δ (LabelNext R name) R₁ k p p' (f true) (f' true) post)
    (hfalse : Mirrors δ R R₁ k p p' (f false) (f' false) post) :
    Mirrors δ R R₁ k p p' (atLabel >>= f) (atLabel >>= f') post := by
  have hnone : Mirrors δ R R₁ k p p' (pure false >>= f) (pure false >>= f') post := by
    rw [pure_bind, pure_bind]
    exact hfalse
  simp only [atLabel, bind_assoc]
  refine mirrors_peek hR fun t line line' _ => ?_
  cases t with
  | ident name =>
    rintro tokens tokens' said b s said' hp ⟨htokens, hfirst⟩ hrun
    obtain ⟨u, rest, u', rest', rfl, rfl, heq, -, hrest⟩ := hR htokens
    have hname : u.token = .ident name := hfirst
    have hrest : R rest rest' := hrest (by rw [hname]; rfl)
    obtain ⟨v, later, v', later', rfl, rfl, heq', -, -⟩ := hR hrest
    have hrun : f (decide (v.token = .mark .colon)) ⟨u :: v :: later, p, said⟩ = .ok (b, s) := hrun
    change ∃ b' s', f' (decide (v'.token = .mark .colon)) ⟨u' :: v' :: later', p', said'⟩ =
      .ok (b', s') ∧ _
    rw [heq']
    by_cases hv : v.token = .mark .colon
    · rw [decide_eq_true hv] at hrun ⊢
      exact htrue name said' hp ⟨⟨htokens, hname⟩, hrest, hv⟩ hrun
    · rw [decide_eq_false hv] at hrun ⊢
      exact hfalse said' hp htokens hrun
  | _ => exact hnone.pre fun _ _ h => h.1

theorem glances_advance_label (hR : Parallel R) (name : String) :
    Glances (LabelNext R name) (At R (.mark .colon)) 1 p p' advance advance SameToken := by
  intro tokens tokens' said a s said' hp ⟨hname, hcolon⟩ hrun
  have hdrop : ∀ {ts : List LineToken}, (firstToken ts).token = .ident name →
      dropToken ts = ts.drop 1 := by
    intro ts hts
    cases ts with
    | nil => cases hts
    | cons t rest =>
      have hts : t.token = .ident name := hts
      exact dropToken_cons (by rw [hts]; rfl) rest
  obtain ⟨a', s', hrun', hs, hto, hto', -, hlen, hlen', ha, ha'⟩ :=
    glances_advance hR rfl said' hp hname hrun
  refine ⟨a', s', hrun', hs, hto, hto', ?_, hlen, hlen', ha'.trans ha.symm⟩
  cases hrun
  cases hrun'
  rw [hdrop ha, hdrop ha']
  exact hcolon

theorem mirrors_readItem (hm : m < p.methods.size) {b b' : Draft} (hb : Draft.Alike p p' b b') :
    Mirrors (.bodies d m) (Within (depth + 1)) (Within (depth + 1)) 1 p p' (readItem m b)
      (readItem m b') fun q q' => Draft.Alike q q' := by
  have hR := parallel_within depth
  refine mirrors_accept hR rfl ?_ ?_
  · -- a declaration
    refine (mirrors_readVarDecl hR hm).bind fun q q' _ _ _ hpq hpq' _ => mirrors_pure ?_
    have hpq : p.Writes m q := hpq
    have hpq' : p'.Writes m q' := hpq'
    exact hb.grows hpq.toGrows hpq'.toGrows
  · refine mirrors_atLabel hR (fun name => ?_) ?_
    · refine Mirrors.after (glances_advance_label hR name) fun label label' hlabel => ?_
      refine Mirrors.afterFirst (glances_advance hR rfl).dropped fun _ _ _ => ?_
      refine mirrors_guard (fun hnew => ?_) fun _ => mirrors_pure (hb.addLabel hlabel)
      rw [hb.target?_eq hlabel]
      exact hnew
    · refine mirrors_peek hR fun t line line' _ => ?_
      refine (mirrors_readStmt.pre fun _ _ h => h.1).bindFirst
        fun q q' stmt stmt' _ hpq hpq' hstmt => mirrors_pure ?_
      have hpq : p.Writes m q := hpq
      have hpq' : p'.Writes m q' := hpq'
      exact (hb.grows hpq.toGrows hpq'.toGrows).addStmt hstmt line line'

theorem mirrors_readItems (hm : m < p.methods.size) {b b' : Draft} (hb : Draft.Alike p p' b b')
    (n n' : Nat) :
    Mirrors (.bodies d m) (Below (Within (depth + 1)) n n') (Within (depth + 1)) 0 p p'
      (readItems m n b) (readItems m n' b') fun q q' => Draft.Alike q q' := by
  have hR := parallel_within depth
  induction n generalizing n' p p' b b' with
  | zero => exact mirrors_below_zero hR (.inl rfl)
  | succ n ih =>
    cases n' with
    | zero => exact mirrors_below_zero hR (.inr rfl)
    | succ n' =>
      have hR' := hR.below (n + 1) (n' + 1)
      refine Mirrors.after (glances_check hR' _) fun closed _ hclosed => ?_
      subst hclosed
      cases closed with
      | true => exact (mirrors_pure hb).pre fun _ _ h => h.1
      | false =>
        refine Mirrors.after (glances_atEnd hR') fun ended _ hended => ?_
        subst hended
        cases ended with
        | true => exact mirrors_peek hR' fun _ _ _ _ => mirrors_fail_bind
        | false =>
          refine ((mirrors_readItem hm hb).below n n').bind fun q q' c c' _ hpq _ hc => ?_
          have hpq : p.Writes m q := hpq
          exact ih (Nat.lt_of_lt_of_le hm hpq.methods) hc n'

/-! ## 3. Bodies -/

/-- Blocks with the same tokens, each with its opening brace. -/
def Block : TokenRel := fun ts ts' =>
  ∃ line line' rest rest', ts = ⟨.mark .leftBrace, line⟩ :: rest ∧
    ts' = ⟨.mark .leftBrace, line'⟩ :: rest' ∧ Within 1 rest rest'

theorem glances_openBlock : Glances Block (Within 1) 1 p p' (expect (.mark .leftBrace))
    (expect (.mark .leftBrace)) fun _ _ => True := by
  rintro tokens tokens' said a s said' - ⟨line, line', rest, rest', rfl, rfl, hrest⟩ hrun
  cases hrun
  exact ⟨⟨.mark .leftBrace, line'⟩, ⟨rest', p', said'⟩, rfl, trivial, rfl, rfl, hrest,
    Nat.le_refl _, Nat.le_refl _, trivial⟩

theorem glances_finish {b b' : Draft} (hb : Draft.Alike p p' b b') :
    Glances R R 0 p p' b.finish b'.finish fun l l' =>
      List.Forall₂ (StmtOf.Alike p p' Eq) (l.map (·.stmt)) (l'.map (·.stmt)) := by
  intro tokens tokens' said instrs s said' _ hR hrun
  obtain ⟨-, -, rfl⟩ := Draft.finish_eq_ok.mp hrun
  obtain ⟨instrs', hrun', hall⟩ := hb.finish hrun ⟨tokens', p', said'⟩
  exact ⟨instrs', _, hrun', trivial, rfl, rfl, hR, Nat.le_refl _, Nat.le_refl _, hall⟩

theorem mirrors_readInstrs (hm : m < p.methods.size) :
    Mirrors (.bodies d m) Block (Within 0) 0 p p' (readInstrs m) (readInstrs m) fun q q' l l' =>
      List.Forall₂ (StmtOf.Alike q q' Eq) (l.map (·.stmt)) (l'.map (·.stmt)) := by
  refine Mirrors.after glances_openBlock.dropped fun _ _ _ => ?_
  refine mirrors_remaining fun n n' => ?_
  refine (mirrors_readItems hm ⟨.nil, .nil⟩ n n').bind fun q q' b b' _ _ _ hb => ?_
  refine Mirrors.after glances_close.dropped fun _ _ _ => ?_
  refine (glances_finish hb).inDuo.mono fun r r' l l' _ _ h => ?_
  obtain ⟨rfl, rfl, hl⟩ := h
  exact hl

end Reader

namespace Program

/-- **A method got variables, and then a body.** -/
def Written (m : MethodId) (p q : Program) : Prop :=
  ∃ r body, p.Writes m r ∧ q = r.modifyMethod m fun e => { e with body := body }

variable {p q : Program} {m : MethodId}

theorem MethodDecl.eq_of_header {e e' : MethodDecl} (h : e'.header = e.header)
    (hvars : e'.vars = e.vars) (hbody : e'.body = e.body) : e' = e := by
  cases e
  cases e'
  simp only [MethodDecl.header, MethodDecl.mk.injEq] at h hvars hbody ⊢
  simp only [h, hvars, hbody, and_self]

/-- Other methods stay as they are. -/
theorem Written.methodAt_eq (h : p.Written m q) (hm : m < p.methods.size) {n : MethodId}
    (hn : n ≠ m) : q.methodAt n = p.methodAt n := by
  obtain ⟨r, body, hw, rfl⟩ := h
  rw [methodAt_modifyMethod r m n _ (Nat.lt_of_lt_of_le hm hw.methods), if_neg hn]
  exact MethodDecl.eq_of_header (hw.header n) (hw.others n hn) (hw.body n)

end Program

namespace Reader

open Program

variable {d p p' : Program} {m : MethodId}

/-- **A body that is read on one side is read on the other**, and the programs stay alike. -/
theorem readBody_mirrors (h : Alike d p p') (hm : m < p.methods.size) {ts ts' : List LineToken}
    (hblock : Block ts ts') (hspelled : Spelled ts) (hspelled' : Spelled ts') {said : Diagnostics}
    {s : ReaderState} (hrun : readBody m ⟨ts, p, said⟩ = .ok ((), s)) (said' : Diagnostics) :
    ∃ s', readBody m ⟨ts', p', said'⟩ = .ok ((), s') ∧ Alike d s.program s'.program ∧
      p.Written m s.program := by
  obtain ⟨instrs, u, hinstrs, hset⟩ := run_bind.mp hrun
  obtain ⟨instrs', u', hinstrs', halike, hw, hw', -, -, -, hall⟩ :=
    mirrors_readInstrs hm said' h hblock hinstrs
  have hw : p.Writes m u.program := hw
  have hw' : p'.Writes m u'.program := hw'
  have hknown := (reads_readInstrs hm h.leftFilled hspelled hinstrs).2.2.2
  have hm' : m < p'.methods.size := h.methods_size ▸ hm
  have hknown' := (reads_readInstrs hm' h.rightFilled hspelled' hinstrs').2.2.2
  cases hset
  refine ⟨_, run_bind.mpr ⟨instrs', u', hinstrs', rfl⟩, ?_, u.program, instrs.toArray, hw, rfl⟩
  refine Alike.setBody halike (Nat.lt_of_lt_of_le hm hw.methods) (fun i hi => ?_) (fun i hi => ?_) ?_
  · exact hknown i (List.mem_toArray.mp hi)
  · exact hknown' i (List.mem_toArray.mp hi)
  · simpa using hall

/-- A body that was passed over on both sides, for one method. -/
structure PendingAlike (b b' : PendingBody) : Prop where
  method : b'.method = b.method
  block : Block b.tokens b'.tokens
  left : Spelled b.tokens
  right : Spelled b'.tokens

theorem readBodies_mirrors (h : Alike d p p') {bs bs' : List PendingBody}
    (hbs : List.Forall₂ PendingAlike bs bs') (hmethods : ∀ b ∈ bs, b.method < p.methods.size)
    {ts : List LineToken} {said : Diagnostics} {s : ReaderState}
    (hrun : readBodies bs ⟨ts, p, said⟩ = .ok ((), s)) (ts' : List LineToken)
    (said' : Diagnostics) :
    ∃ s', readBodies bs' ⟨ts', p', said'⟩ = .ok ((), s') ∧ Alike d s.program s'.program ∧
      ∀ n, (∀ b ∈ bs, b.method ≠ n) → s.program.methodAt n = p.methodAt n := by
  induction hbs generalizing p p' ts ts' said said' with
  | nil =>
    cases hrun
    exact ⟨⟨ts', p', said'⟩, rfl, h, fun _ _ => rfl⟩
  | @cons b b' bs bs' hb _ ih =>
    obtain ⟨_, u, hread, hrest⟩ := run_bind.mp hrun
    cases hread
    obtain ⟨_, v, hread, hrest⟩ := run_bind.mp hrest
    have hm := hmethods b List.mem_cons_self
    obtain ⟨v', hread', halike, hwritten⟩ :=
      readBody_mirrors h hm hb.block hb.left hb.right hread said'
    have hsize : v.program.methods.size = p.methods.size := by
      rw [halike.left.sameMethods, h.left.sameMethods]
    obtain ⟨s', hrest', halike', hkept⟩ := ih halike
      (fun c hc => hsize ▸ hmethods c (List.mem_cons_of_mem b hc)) hrest v'.tokens
      v'.diagnostics
    refine ⟨s', ?_, halike', fun n hn => ?_⟩
    · refine run_bind.mpr ⟨(), ⟨b'.tokens, p', said'⟩, rfl, run_bind.mpr ⟨(), v', ?_, hrest'⟩⟩
      rw [hb.method]
      exact hread'
    · rw [hkept n fun c hc => hn c (List.mem_cons_of_mem b hc)]
      exact hwritten.methodAt_eq hm (hn b List.mem_cons_self).symm

end Reader

end ObjectFlow
