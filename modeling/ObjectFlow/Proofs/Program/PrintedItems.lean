/-
  File:      ObjectFlow/Proofs/Program/PrintedItems.lean
  Subject:   THE TOKENS OF A PRINTED BODY ARE READ AS THE BODY.

  * `Program.Awaits`: the variables of a method that are still to be declared;
  * `Reader.Draft.Drawn`: a body as far as its printed lines have been read;
  * `takes_declTokens`, `takes_label`, `takes_stmtItem`: a declaration gives a variable the number it
    has, a label marks the statement it is printed for, and a statement is read as itself;
  * `takes_readInstrs`: between its braces, the printed body of a method is read as its statements.
-/
import ObjectFlow.Proofs.Program.PrintedStatements

namespace ObjectFlow

namespace Program

/-! ## 1. Variables that are to be declared -/

/-- **The variables that are still to be declared**: they come behind the others, under the next
    free numbers and with names of their own. -/
structure Awaits (p : Program) (m : MethodId) (q : Program) (vs : List VarId) : Prop where
  vars : (q.methodAt m).vars ++ vs = (p.methodAt m).vars
  numbers : vs = List.range' q.vars.size vs.length
  fresh : ∀ v ∈ vs, ∀ u ∈ (p.methodAt m).vars, u < v → p.varName u ≠ p.varName v

variable {d p q r : Program} {m : MethodId} {v : VarId} {vs : List VarId} {ty : Ty}

namespace Awaits

/-- Where no variable is declared, the same ones are awaited. -/
theorem writes (h : Awaits p m q vs) (hw : q.Writes m r) (hsize : r.vars.size = q.vars.size) :
    Awaits p m r vs := by
  have hvars : (r.methodAt m).vars = (q.methodAt m).vars := by simp [hw.new, hsize]
  refine ⟨?_, ?_, h.fresh⟩
  · rw [hvars]
    exact h.vars
  · rw [hsize]
    exact h.numbers

/-- The next variable gets the next number. -/
theorem head_eq (h : Awaits p m q (v :: vs)) : v = q.vars.size := (List.cons.inj h.numbers).1

theorem mem_vars (h : Awaits p m q vs) (hv : v ∈ vs) : v ∈ (p.methodAt m).vars := by
  rw [← h.vars]
  exact List.mem_append_right _ hv

theorem varByName?_eq_none (h : Awaits p m q (v :: vs)) (hq : Hosts d p m q) :
    q.varByName? m (p.varName v) = none := by
  refine List.find?_eq_none.mpr fun u hu => ?_
  have hu := List.mem_reverse.mp hu
  have hlt : u < v := by
    rw [h.head_eq]
    exact hq.rightFilled.coherent.mem_vars_lt hu
  have hne := h.fresh v List.mem_cons_self u (hq.vars.mem hu) hlt
  rw [hq.varName u hu]
  simpa using hne

theorem addVar (h : Awaits p m q (v :: vs)) (hm : m < q.methods.size) (name : String) (ty : Ty) :
    Awaits p m (q.addVar m name ty).2 vs where
  vars := by
    rw [methodAt_addVar hm, if_pos rfl, ← h.head_eq, ← h.vars]
    simp
  numbers := by
    rw [vars_size_addVar]
    exact (List.cons.inj h.numbers).2
  fresh w hw := h.fresh w (List.mem_cons_of_mem v hw)

/-- When nothing is awaited, the method has all its variables. -/
theorem hasVars (h : Awaits p m q []) : HasVars p m q := by
  have hvars := h.vars
  rw [List.append_nil] at hvars
  exact hvars

end Awaits

/-- The next variable of the method may be declared. -/
theorem Hosts.addVar (h : Hosts d p m q) (hm : m < q.methods.size) (ha : Awaits p m q (v :: vs))
    (hty : ty.Known q) (halike : (p.varTy v).Alike p q ty) :
    Hosts d p m (q.addVar m (p.varName v) ty).2 ∧ q.Writes m (q.addVar m (p.varName v) ty).2 := by
  have hmem := ha.mem_vars List.mem_cons_self
  have hname : IsName (p.varName v) :=
    (h.leftFilled.coherent.vars v (h.leftFilled.coherent.mem_vars_lt hmem)).name
  have hfresh := ha.varByName?_eq_none h
  obtain ⟨hfilled, hfills⟩ := h.rightFilled.addVar hm hname hty hfresh
  have hnext := (ha.addVar hm (p.varName v) ty).vars
  -- a variable of the method is the new one, or it was there before
  have hcases : ∀ u ∈ ((q.addVar m (p.varName v) ty).2.methodAt m).vars,
      u = v ∨ u ≠ q.vars.size ∧ u ∈ (q.methodAt m).vars := by
    intro u hu
    rw [methodAt_addVar hm, if_pos rfl] at hu
    rcases List.mem_append.mp hu with hu | hu
    · exact .inr ⟨Nat.ne_of_lt (h.rightFilled.coherent.mem_vars_lt hu), hu⟩
    · rw [ha.head_eq]
      exact .inl (List.mem_singleton.mp hu)
  refine ⟨⟨h.toKin.fills (.refl p) h.leftFilled hfills.toFills hfilled, ?_, fun u hu => ?_,
    fun u hu => ?_⟩, h.rightFilled.writes_addVar hm hname hty hfresh⟩
  · rw [← hnext]
    exact List.prefix_append _ _
  · rw [Program.varName, varAt_addVar]
    rcases hcases u hu with rfl | ⟨hne, hold⟩
    · rw [if_pos ha.head_eq]
    · rw [if_neg hne]
      exact h.varName u hold
  · refine Ty.Alike.grows ?_ (.refl p) hfills.toGrows
    have hat : (q.addVar m (p.varName v) ty).2.varTy u =
        (if u = q.vars.size then ⟨p.varName v, ty, m, (q.methodAt m).vars.length⟩
          else q.varAt u : VarDecl).ty := by
      rw [Program.varTy, varAt_addVar]
    rw [hat]
    rcases hcases u hu with rfl | ⟨hne, hold⟩
    · rw [if_pos ha.head_eq]
      exact halike
    · rw [if_neg hne]
      exact h.varTy u hold

end Program

/-- Classes and subsignatures are mentioned, and no variable is declared. -/
def Phase.naming (d p : Program) (m : MethodId) : Phase where
  Holds := Program.Hosts d p m
  To q r := q.Writes m r ∧ r.vars.size = q.vars.size
  refl q := ⟨.refl q, rfl⟩
  trans h h' := ⟨h.1.trans h'.1, h'.2.trans h.2⟩

theorem mentions_naming (d p : Program) (m : MethodId) : (Phase.naming d p m).Mentions where
  internClass {q} h name := by
    obtain ⟨hholds, hto⟩ := (mentions_hosting d p m).internClass h name
    exact ⟨hholds, hto, congrArg Array.size (q.internClass_same name).2⟩
  internSubsig {q} h text := by
    obtain ⟨hholds, hto⟩ := (mentions_hosting d p m).internSubsig h text
    exact ⟨hholds, hto, congrArg Array.size (q.internSubsig_same text).2⟩

namespace Reader

open Program

/-! ## 2. Declarations -/

variable {α β : Type} {d p q : Program} {m : MethodId} {ts ts₁ ts₂ : List Token} {b : Draft}
  {v : VarId} {vs : List VarId}

theorem takes_of_holds {φ : Phase} {r : Reader α} {post : Program → α → Prop}
    (h : φ.Holds q → Takes φ q ts ts₁ r post) : Takes φ q ts ts₁ r post :=
  fun _ said hq => h hq said hq

/-- The tokens of a type are read without declaring a variable. -/
theorem takes_typeName {ty : Ty} (hty : ty.Known p) (hts : NoBrackets ts) :
    Takes (.hosting d p m) q (p.tyTokens ty ++ ts) ts readType fun r ty' =>
      r.vars.size = q.vars.size ∧ ty'.Known r ∧ ty.Alike p r ty' := by
  intro tokens said hq htokens
  obtain ⟨ty', s, hrun, hs, hto, htokens', hty'⟩ :=
    takes_readType (mentions_naming d p m) hty hts said hq htokens
  exact ⟨ty', s, hrun, hs, hto.1, htokens', hto.2, hty'⟩

theorem takes_readDeclared (hm : m < q.methods.size) (ha : Awaits p m q (v :: vs)) {ty : Ty}
    (hty : ty.Known q) (halike : (p.varTy v).Alike p q ty) :
    Takes (.hosting d p m) q (p.varToken v :: ts) ts (readDeclared m ty) fun r _ =>
      Awaits p m r vs := by
  refine takes_of_holds fun hq => ?_
  refine takes_identifier fun found => takes_program (takes_guard ?_ ?_)
  · rw [ha.varByName?_eq_none hq]
    decide
  · have hadd : Takes (.hosting d p m) q ts ts (update (·.addVar m (p.varName v) ty)) fun r _ =>
        Awaits p m r vs := takes_update fun hq => by
      obtain ⟨hholds, hto⟩ := Hosts.addVar hq hm ha hty halike
      exact ⟨hholds, hto, ha.addVar hm (p.varName v) ty⟩
    exact hadd.dropped.mono fun _ _ _ ⟨_, h⟩ => h

/-- **A printed declaration declares the next variable of the method.** -/
theorem takes_declTokens (hm : m < q.methods.size) (ha : Awaits p m q (v :: vs)) :
    Takes (.hosting d p m) q (p.declTokens v ++ ts) ts (readItem m b) fun r b' =>
      b' = b ∧ Awaits p m r vs := by
  refine takes_of_holds fun hq => ?_
  have hq : Hosts d p m q := hq
  have hty : (p.varTy v).Known p := (hq.leftFilled.coherent.vars v
    (hq.leftFilled.coherent.mem_vars_lt (ha.mem_vars List.mem_cons_self))).ty
  have hdecl : Takes (.hosting d p m) q
      (p.tyTokens (p.varTy v) ++ p.varToken v :: .mark .semicolon :: ts) ts (readVarDecl m)
      fun r _ => Awaits p m r vs := by
    refine (takes_typeName hty (by rintro _ ⟨⟩)).bind fun r ty _ hqr htype => ?_
    obtain ⟨hsize, hknown, halike⟩ := htype
    have hqr : q.Writes m r := hqr
    have hnames : Takes (.hosting d p m) r (p.varToken v :: .mark .semicolon :: ts)
        (.mark .semicolon :: ts) (commas (readDeclared m ty)) fun r' _ => Awaits p m r' vs := by
      refine takes_remaining ?_
      refine (takes_readDeclared (Nat.lt_of_lt_of_le hm hqr.methods) (ha.writes hqr hsize) hknown
        halike).bind fun r' _ _ _ ha' => ?_
      exact takes_decline (by rintro ⟨⟩) (takes_pure ha')
    refine hnames.dropped.bind fun r' _ _ _ hawaits => ?_
    obtain ⟨-, ha'⟩ := hawaits
    rw [← bind_pure (discard (expect (.mark .semicolon)))]
    exact takes_token (by rintro ⟨⟩) (takes_pure ha')
  have htokens : p.declTokens v ++ ts = .keyword .varDecl ::
      (p.tyTokens (p.varTy v) ++ p.varToken v :: .mark .semicolon :: ts) := by
    simp [declTokens]
  rw [htokens]
  refine takes_accept (by rintro ⟨⟩) ?_
  exact hdecl.bind fun r _ _ _ ha' => takes_pure ⟨rfl, ha'⟩

/-! ## 3. Drafts of printed lines -/

/-- **A body as far as its printed lines have been read**: the labels are those of the first `n`
    statements that are targets, and the statements are read as themselves. -/
structure Draft.Drawn (p q : Program) (targets : List Nat) (n : Nat) (stmts : List Stmt)
    (b : Draft) : Prop where
  labels : ∀ l ∈ b.labels, Marks l.2 l.1 ∧ l.2 < n
  marked : ∀ i ∈ targets, i < n → ∃ l ∈ b.labels, l.2 = i
  stmts : List.Forall₂ (fun stmt x => stmt.Alike p q Marks x.2) stmts b.stmts.toList

namespace Draft.Drawn

variable {targets : List Nat} {n i : Nat} {stmts : List Stmt} {label : LineToken}

theorem empty (p q : Program) (targets : List Nat) : Drawn p q targets 0 [] {} where
  labels _ hl := absurd hl List.not_mem_nil
  marked _ _ hi := absurd hi (Nat.not_lt_zero _)
  stmts := .nil

theorem size_eq (h : Drawn p q targets n stmts b) : b.stmts.size = stmts.length := by
  simpa using h.stmts.length_eq.symm

theorem grows {r : Program} (h : Drawn p q targets n stmts b) (hr : q.Grows r) :
    Drawn p r targets n stmts b :=
  ⟨h.labels, h.marked, h.stmts.imp fun _ _ hs => hs.grows (.refl p) hr⟩

/-- Labels of different statements are different. -/
theorem eq_of_marks {j : Nat} {label' : LineToken} (h : Marks i label) (h' : Marks j label')
    (hsame : label'.token = label.token) : j = i := by
  have htokens : labelToken j = labelToken i := h'.symm.trans (hsame.trans h)
  exact label_injective (Token.ident.inj htokens)

/-- A target that has been passed is found by its label. -/
theorem target?_eq (h : Drawn p q targets n stmts b) (hi : i ∈ targets) (hlt : i < n)
    (hlabel : Marks i label) : b.target? label = some i := by
  obtain ⟨l, hl, rfl⟩ := h.marked i hi hlt
  have hfound : (b.labels.find? fun l => l.1.token = label.token).isSome := by
    refine List.find?_isSome.mpr ⟨l, hl, decide_eq_true ?_⟩
    exact (h.labels l hl).1.trans hlabel.symm
  obtain ⟨l', hl'⟩ := Option.isSome_iff_exists.mp hfound
  have hmarks := (h.labels l' (List.mem_of_find?_eq_some hl')).1
  have hsame : l'.1.token = label.token := of_decide_eq_true (List.find?_some hl' :)
  rw [Draft.target?, hl', Option.map_some, eq_of_marks hlabel hmarks hsame]

/-- A label that comes later has not been met. -/
theorem target?_eq_none (h : Drawn p q targets n stmts b) (hle : n ≤ i) (hlabel : Marks i label) :
    b.target? label = none := by
  refine Option.map_eq_none_iff.mpr (List.find?_eq_none.mpr fun l hl hsame => ?_)
  obtain ⟨hmarks, hlt⟩ := h.labels l hl
  have heq := eq_of_marks hlabel hmarks (of_decide_eq_true hsame)
  exact absurd hlt (Nat.not_lt.mpr (heq ▸ hle))

theorem addLabel (h : Drawn p q targets stmts.length stmts b) (hlabel : Marks stmts.length label) :
    Drawn p q targets (stmts.length + 1) stmts
      { b with labels := b.labels ++ [(label, b.stmts.size)] } where
  labels l hl := by
    rcases List.mem_append.mp hl with hl | hl
    · exact ⟨(h.labels l hl).1, Nat.lt_succ_of_lt (h.labels l hl).2⟩
    · obtain rfl := List.mem_singleton.mp hl
      rw [h.size_eq]
      exact ⟨hlabel, Nat.lt_succ_self _⟩
  marked i hi hlt := by
    rcases Nat.lt_succ_iff_lt_or_eq.mp hlt with hlt | rfl
    · obtain ⟨l, hl, heq⟩ := h.marked i hi hlt
      exact ⟨l, List.mem_append_left _ hl, heq⟩
    · exact ⟨_, List.mem_append_right _ (List.mem_singleton_self _), h.size_eq⟩
  stmts := h.stmts

/-- A statement that is no target needs no label. -/
theorem skipLabel (h : Drawn p q targets stmts.length stmts b) (hno : stmts.length ∉ targets) :
    Drawn p q targets (stmts.length + 1) stmts b where
  labels l hl := ⟨(h.labels l hl).1, Nat.lt_succ_of_lt (h.labels l hl).2⟩
  marked i hi hlt := by
    rcases Nat.lt_succ_iff_lt_or_eq.mp hlt with hlt | rfl
    · exact h.marked i hi hlt
    · exact absurd hi hno
  stmts := h.stmts

theorem addStmt (h : Drawn p q targets n stmts b) {stmt : Stmt} {x : Nat × StmtOf LineToken}
    (hx : stmt.Alike p q Marks x.2) :
    Drawn p q targets n (stmts ++ [stmt]) { b with stmts := b.stmts.push x } where
  labels := h.labels
  marked := h.marked
  stmts := by
    rw [Array.toList_push]
    exact List.rel_append h.stmts (.cons hx .nil)

end Draft.Drawn

end Reader

theorem StmtOf.resolveCases_self {ε τ : Type} {f : τ → Except ε τ} {arms : List (Int32 × τ)}
    (h : ∀ arm ∈ arms, f arm.2 = .ok arm.2) : resolveCases f arms = .ok arms := by
  induction arms with
  | nil => rfl
  | cons arm arms ih =>
    rw [resolveCases, h arm List.mem_cons_self, ih fun a ha => h a (List.mem_cons_of_mem arm ha)]
    rfl

/-- A statement whose targets stay stays. -/
theorem StmtOf.resolve_self {ε τ : Type} {f : τ → Except ε τ} {stmt : StmtOf τ}
    (h : ∀ t ∈ stmt.targets, f t = .ok t) : stmt.resolve f = .ok stmt := by
  cases stmt with
  | branch left op right target =>
    rw [resolve, h target (by simp [targets])]
    rfl
  | jump target =>
    rw [resolve, h target (by simp [targets])]
    rfl
  | switch on cases otherwise =>
    have hcases : ∀ arm ∈ cases, f arm.2 = .ok arm.2 := fun arm harm =>
      h arm.2 (List.mem_append_left _ (List.mem_map_of_mem harm))
    rw [resolve, resolveCases_self hcases, h otherwise (by simp [targets])]
    rfl
  | _ => rfl

namespace Reader

open Program

namespace Draft.Drawn

variable {p q : Program} {b : Draft} {targets : List Nat} {stmts : List Stmt}

theorem resolveStmts (h : Drawn p q targets stmts.length stmts b) {rest : List Stmt}
    {items : List (Nat × StmtOf LineToken)}
    (hitems : List.Forall₂ (fun stmt x => stmt.Alike p q Marks x.2) rest items)
    (hrest : ∀ stmt ∈ rest, ∀ t ∈ stmt.targets, t ∈ targets ∧ t < stmts.length) :
    ∃ instrs, b.resolveStmts items = .ok instrs ∧
      List.Forall₂ (StmtOf.Alike p q Eq) rest (instrs.map (·.stmt)) := by
  induction hitems with
  | nil => exact ⟨[], rfl, .nil⟩
  | @cons stmt x rest items hx _ ih =>
    -- on the side of the program the targets are numbers, and each is resolved to itself
    have hself : stmt.resolve (fun t => b.resolveLabel ⟨labelToken t, 0⟩) = .ok stmt := by
      refine StmtOf.resolve_self fun t ht => ?_
      obtain ⟨hmem, hlt⟩ := hrest stmt List.mem_cons_self t ht
      have hmarks : Marks t ⟨labelToken t, 0⟩ := rfl
      rw [Draft.resolveLabel, h.target?_eq hmem hlt hmarks]
    have hlabel : ∀ {t : Nat} {label : LineToken} {i : Nat}, Marks t label →
        b.resolveLabel ⟨labelToken t, 0⟩ = .ok i → b.resolveLabel label = .ok i := by
      intro t label i hmarks hi
      have hsame : b.target? label = b.target? ⟨labelToken t, 0⟩ := by
        rw [Draft.target?, hmarks]
        rfl
      unfold Draft.resolveLabel at hi ⊢
      rw [hsame]
      split at hi
      · exact hi
      · cases hi
    obtain ⟨stmt', hstmt', halike⟩ := hx.resolve hlabel hself
    obtain ⟨instrs, hinstrs, hall⟩ := ih fun s hs => hrest s (List.mem_cons_of_mem stmt hs)
    refine ⟨⟨x.1, stmt'⟩ :: instrs, ?_, .cons halike hall⟩
    rw [Draft.resolveStmts, hstmt', hinstrs]
    rfl

/-- **When all lines have been read, the jumps go where they went.** -/
theorem finish (h : Drawn p q targets stmts.length stmts b)
    (htargets : ∀ stmt ∈ stmts, ∀ t ∈ stmt.targets, t ∈ targets ∧ t < stmts.length) :
    ∃ instrs, (∀ s, b.finish s = .ok (instrs, s)) ∧
      List.Forall₂ (StmtOf.Alike p q Eq) stmts (instrs.map (·.stmt)) := by
  have hlast : (b.labels.find? fun l => l.2 = b.stmts.size) = none := by
    refine List.find?_eq_none.mpr fun l hl heq => ?_
    have hlt := (h.labels l hl).2
    rw [of_decide_eq_true heq, h.size_eq] at hlt
    exact absurd hlt (Nat.lt_irrefl _)
  obtain ⟨instrs, hresolve, hall⟩ := h.resolveStmts h.stmts htargets
  exact ⟨instrs, fun _ => Draft.finish_eq_ok.mpr ⟨hlast, hresolve, rfl⟩, hall⟩

end Draft.Drawn

/-! ## 4. Labels and statements -/

variable {β : Type} {d p q : Program} {m : MethodId} {ts ts₁ ts₂ : List Token} {b : Draft}
  {targets : List Nat} {done stmts : List Stmt}

section AtLabel

variable {φ : Phase} {t u : Token} {f : Bool → Reader β} {post : Program → β → Prop}

theorem takes_atLabel {name : String}
    (h : Takes φ q (.ident name :: .mark .colon :: ts) ts₁ (f true) post) :
    Takes φ q (.ident name :: .mark .colon :: ts) ts₁ (atLabel >>= f) post := by
  intro tokens said hq htokens
  obtain ⟨⟨token, line⟩, rest, rfl, rfl, hrest⟩ := List.map_eq_cons_iff.mp htokens
  obtain ⟨⟨token, line'⟩, rest, rfl, rfl, -⟩ := List.map_eq_cons_iff.mp hrest
  exact h said hq htokens

theorem takes_noLabel (hu : u ≠ .mark .colon) (h : Takes φ q (t :: u :: ts) ts₁ (f false) post) :
    Takes φ q (t :: u :: ts) ts₁ (atLabel >>= f) post := by
  intro tokens said hq htokens
  obtain ⟨⟨token, line⟩, rest, rfl, rfl, hrest⟩ := List.map_eq_cons_iff.mp htokens
  obtain ⟨⟨token', line'⟩, rest, rfl, rfl, -⟩ := List.map_eq_cons_iff.mp hrest
  have hrun := h said hq htokens
  cases token with
  | ident name =>
    change ∃ a s, f (decide (token' = .mark .colon))
      ⟨⟨.ident name, line⟩ :: ⟨token', line'⟩ :: rest, q, said⟩ = .ok (a, s) ∧ _
    rw [decide_eq_false hu]
    exact hrun
  | _ => exact hrun

end AtLabel

/-- The first tokens of a statement are not those of a declaration, of a label or of the end. -/
theorem stmtTokens_start (p : Program) (stmt : Stmt) :
    ∃ t u rest, p.stmtTokens stmt = t :: u :: rest ∧ t ≠ .keyword .varDecl ∧
      t ≠ .mark .rightBrace ∧ t ≠ .endOfFile ∧ u ≠ .mark .colon := by
  cases stmt with
  | alloc x ty length =>
    have hassign : ∃ rest,
        p.coreTokens (.alloc x ty length) = p.varToken x :: .mark .assign :: rest := by
      cases ty <;> cases length <;> exact ⟨_, rfl⟩
    obtain ⟨rest, hrest⟩ := hassign
    rw [stmtTokens, hrest]
    refine ⟨_, _, _, rfl, ?_, ?_, ?_, ?_⟩ <;> rintro ⟨⟩
  | call i =>
    obtain ⟨kind, target, base, args, result⟩ := i
    cases result with
    | some x => refine ⟨_, _, _, rfl, ?_, ?_, ?_, ?_⟩ <;> rintro ⟨⟩
    | none => cases base <;> refine ⟨_, _, _, rfl, ?_, ?_, ?_, ?_⟩ <;> rintro ⟨⟩
  | ret value => cases value <;> refine ⟨_, _, _, rfl, ?_, ?_, ?_, ?_⟩ <;> rintro ⟨⟩
  | _ => refine ⟨_, _, _, rfl, ?_, ?_, ?_, ?_⟩ <;> rintro ⟨⟩

/-- The label of the next statement is read. -/
theorem takes_label (hvars : HasVars p m q) (hb : Draft.Drawn p q targets done.length done b) :
    Takes (.hosting d p m) q (labelToken done.length :: .mark .colon :: ts) ts (readItem m b)
      fun r b' => HasVars p m r ∧ Draft.Drawn p r targets (done.length + 1) done b' := by
  refine takes_decline (by rintro ⟨⟩) (takes_atLabel ?_)
  refine takes_advance (by rintro ⟨⟩) fun line => takes_pass (by rintro ⟨⟩) ?_
  have hmarks : Marks done.length ⟨.ident (label done.length), line⟩ := rfl
  refine takes_guard ?_ (takes_pure ⟨hvars, hb.addLabel hmarks⟩)
  rw [hb.target?_eq_none (Nat.le_refl _) hmarks]
  decide

/-- A printed statement is read behind its label. -/
theorem takes_stmtItem (ts : List Token) (hvars : HasVars p m q) {n : Nat}
    (hb : Draft.Drawn p q targets n done b)
    {stmt : Stmt} (hstmt : stmt.Known p m) (hplain : stmt.Unambiguous p m) :
    Takes (.hosting d p m) q (p.stmtTokens stmt ++ ts) ts (readItem m b) fun r b' =>
      HasVars p m r ∧ Draft.Drawn p r targets n (done ++ [stmt]) b' := by
  refine takes_of_holds fun hq => ?_
  have hq : Hosts d p m q := hq
  have hread := takes_readStmt ts hq hvars hstmt hplain
  obtain ⟨t, u, rest, htokens, hdecl, -, -, hcolon⟩ := stmtTokens_start p stmt
  rw [htokens] at hread ⊢
  refine takes_decline hdecl (takes_noLabel hcolon (takes_peek fun line => ?_))
  refine hread.bind fun r s hr hqr hs => takes_pure ?_
  have hqr : q.Writes m r := hqr
  exact ⟨hvars.writes hr hqr, (hb.grows hqr.toGrows).addStmt hs⟩

/-! ## 5. Bodies -/

/-- Items are read up to the closing brace, whatever the bound on their number, if it is not below
    the number of tokens. -/
def Gathers (d p : Program) (m : MethodId) (q : Program) (ts ts' : List Token) (b : Draft)
    (post : Program → Draft → Prop) : Prop :=
  ∀ n, ts.length ≤ n → Takes (.hosting d p m) q ts ts' (readItems m n b) post

variable {post : Program → Draft → Prop}

theorem gathers_close (h : post q b) :
    Gathers d p m q (.mark .rightBrace :: ts) (.mark .rightBrace :: ts) b post := by
  intro n hn
  obtain ⟨n, rfl⟩ : ∃ k, n = k + 1 :=
    Nat.exists_eq_add_one.mpr (Nat.lt_of_lt_of_le (Nat.succ_pos _) hn)
  exact takes_check (takes_pure h)

/-- One more item. -/
theorem gathers_item {t : Token} (hclose : t ≠ .mark .rightBrace) (hend : t ≠ .endOfFile)
    {item : List Token} {mid : Program → Draft → Prop}
    (hitem : Takes (.hosting d p m) q (t :: item ++ ts) ts (readItem m b) mid)
    (hrest : ∀ r b', q.Writes m r → mid r b' → Gathers d p m r ts ts₁ b' post) :
    Gathers d p m q (t :: item ++ ts) ts₁ b post := by
  intro n hn
  obtain ⟨n, rfl⟩ : ∃ k, n = k + 1 :=
    Nat.exists_eq_add_one.mpr (Nat.lt_of_lt_of_le (Nat.succ_pos _) hn)
  have hlen : ts.length ≤ n := by
    simp only [List.cons_append, List.length_cons, List.length_append] at hn
    omega
  refine takes_check ?_
  rw [decide_eq_false hclose, if_neg (by decide)]
  refine takes_check ?_
  rw [decide_eq_false hend, if_neg (by decide)]
  exact hitem.bind fun r b' _ hqr hmid => hrest r b' hqr hmid n hlen

/-- **The declarations declare the variables of the method.** -/
theorem gathers_decls {vs : List VarId} (hm : m < q.methods.size) (ha : Awaits p m q vs)
    (hrest : ∀ r, HasVars p m r → Gathers d p m r ts ts₁ b post) :
    Gathers d p m q (vs.flatMap p.declTokens ++ ts) ts₁ b post := by
  induction vs generalizing q with
  | nil => exact hrest q ha.hasVars
  | cons v vs ih =>
    rw [List.flatMap_cons, List.append_assoc]
    refine gathers_item (by rintro ⟨⟩) (by rintro ⟨⟩) (takes_declTokens hm ha) fun r b' hqr hmid => ?_
    obtain ⟨rfl, ha'⟩ := hmid
    exact ih (Nat.lt_of_lt_of_le hm hqr.methods) ha'

/-- **The lines are read as the statements**: those that are done, and then the others. -/
theorem gathers_lines {rest : List Stmt} (hvars : HasVars p m q)
    (hb : Draft.Drawn p q targets done.length done b)
    (hrest : ∀ stmt ∈ rest, stmt.Known p m ∧ stmt.Unambiguous p m) :
    Gathers d p m q
      ((rest.zipIdx done.length).flatMap (p.lineTokens targets) ++ .mark .rightBrace :: ts)
      (.mark .rightBrace :: ts) b fun r b' => HasVars p m r ∧
        Draft.Drawn p r targets (done ++ rest).length (done ++ rest) b' := by
  induction rest generalizing q done b with
  | nil =>
    rw [List.append_nil]
    exact gathers_close ⟨hvars, hb⟩
  | cons stmt rest ih =>
    obtain ⟨hstmt, hplain⟩ := hrest stmt List.mem_cons_self
    have hlater : ∀ s ∈ rest, s.Known p m ∧ s.Unambiguous p m := fun s hs =>
      hrest s (List.mem_cons_of_mem stmt hs)
    rw [List.zipIdx_cons, List.flatMap_cons, lineTokens, List.append_assoc, List.append_assoc]
    generalize hts₂ : (rest.zipIdx (done.length + 1)).flatMap (p.lineTokens targets) ++
      .mark .rightBrace :: ts = ts₂
    -- the statement, when its label has been read
    have hline : ∀ {r : Program} {c : Draft}, HasVars p m r →
        Draft.Drawn p r targets (done.length + 1) done c →
        Gathers d p m r (p.stmtTokens stmt ++ ts₂) (.mark .rightBrace :: ts) c fun r b' =>
          HasVars p m r ∧
            Draft.Drawn p r targets (done ++ stmt :: rest).length (done ++ stmt :: rest) b' := by
      intro r c hr hc
      have hitem := takes_stmtItem (d := d) ts₂ hr hc hstmt hplain
      obtain ⟨t, u, item, htokens, -, hclose, hend, -⟩ := stmtTokens_start p stmt
      rw [htokens] at hitem ⊢
      refine gathers_item hclose hend hitem fun r' b' _ hmid => ?_
      obtain ⟨hr', hb'⟩ := hmid
      have hdrawn : Draft.Drawn p r' targets (done ++ [stmt]).length (done ++ [stmt]) b' := by
        simpa using hb'
      have hnext := ih hr' hdrawn hlater
      simpa [hts₂] using hnext
    split
    · exact gathers_item (by rintro ⟨⟩) (by rintro ⟨⟩) (takes_label hvars hb) fun r b' _ hmid =>
        hline hmid.1 hmid.2
    · rename_i hno
      exact hline hvars (hb.skipLabel hno)

/-- **The printed body of a method is read as its statements.** -/
theorem takes_readInstrs (hm : m < q.methods.size) (hinside : p.JumpsInside)
    (hknown : ∀ stmt ∈ (p.methodAt m).stmts, stmt.Known p m)
    (hplain : ∀ stmt ∈ (p.methodAt m).stmts, stmt.Unambiguous p m)
    (ha : Awaits p m q (p.methodAt m).locals) :
    Takes (.hosting d p m) q (.mark .leftBrace :: (p.bodyTokens m ++ .mark .rightBrace :: ts)) ts
      (readInstrs m) fun r instrs => HasVars p m r ∧
        List.Forall₂ (StmtOf.Alike p r Eq) (p.methodAt m).stmts (instrs.map (·.stmt)) := by
  have hitems : Gathers d p m q (p.bodyTokens m ++ .mark .rightBrace :: ts)
      (.mark .rightBrace :: ts) {} fun r b => HasVars p m r ∧
        Draft.Drawn p r ((p.methodAt m).stmts.flatMap StmtOf.targets) (p.methodAt m).stmts.length
          (p.methodAt m).stmts b := by
    rw [bodyTokens, List.append_assoc]
    refine gathers_decls hm ha fun r hvars => ?_
    have hnone : Draft.Drawn p r ((p.methodAt m).stmts.flatMap StmtOf.targets)
        ([] : List Stmt).length [] {} := .empty p r _
    exact gathers_lines hvars hnone fun stmt hstmt => ⟨hknown stmt hstmt, hplain stmt hstmt⟩
  refine takes_token (by rintro ⟨⟩) (takes_remaining ?_)
  refine (hitems _ (Nat.le_refl _)).bind fun r b _ _ hitem => takes_token (by rintro ⟨⟩) ?_
  obtain ⟨hvars, hb⟩ := hitem
  obtain ⟨instrs, hinstrs, halike⟩ := hb.finish fun stmt hstmt t ht =>
    ⟨List.mem_flatMap.mpr ⟨stmt, hstmt, ht⟩, hinside.target_lt hstmt ht⟩
  exact fun tokens said hr htokens =>
    ⟨instrs, _, hinstrs _, hr, Phase.refl _ r, htokens, hvars, halike⟩

end Reader

end ObjectFlow
