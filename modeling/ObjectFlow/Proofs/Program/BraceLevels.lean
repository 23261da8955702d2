/-
  File:      ObjectFlow/Proofs/Program/BraceLevels.lean
  Subject:   WHAT READS A STATEMENT PASSES NO BRACE BUT THOSE IT PAIRS.

  Only two readers of bodies pass braces: the one of a whole body and the one of a switch, and each
  closes what it opens. All others pass names, numbers, words and marks, none of which changes how
  many braces are open.

  * `Passable`: a property of the tokens to come that outlasts every token but braces and the end;
  * `Carries`: what a reader makes of such a property, whatever else it does;
  * one lemma for each reader: it keeps every passable property;
  * `Level`: where the braces that are open now will be closed;
  * `carries_readStmt`, `carries_behindOpen`: a statement keeps the level, and a body ends where its
    brace is closed.
-/
import ObjectFlow.Proofs.Program.StatementMirroring

namespace ObjectFlow

namespace Reader

variable {α β : Type} {P Q R : List LineToken → Prop} {m : MethodId}

/-! ## 1. Readers one after the other -/

/-- Passing a token that is neither a brace nor the end keeps the property of the tokens to
    come. -/
def Passable (P : List LineToken → Prop) : Prop :=
  ∀ t rest, t.token.isStop = false → P (t :: rest) → P rest

/-- **From tokens of which `P` holds the reader gets to tokens of which `Q` holds**, if it
    succeeds. -/
def Carries (P : List LineToken → Prop) (r : Reader α) (Q : List LineToken → Prop) : Prop :=
  ∀ ⦃s a t⦄, P s.tokens → r s = .ok (a, t) → Q t.tokens

theorem carries_pure {a : α} : Carries P (pure a) P := by
  intro s b t hs hrun
  cases hrun
  exact hs

theorem carries_fail {found : LineToken} {cause : ReadCause} :
    Carries P (fail found cause : Reader α) Q := by
  intro s a t _ hrun
  cases hrun

theorem Carries.bind {r : Reader α} {f : α → Reader β} (hr : Carries P r Q)
    (hf : ∀ a, Carries Q (f a) R) : Carries P (r >>= f) R := by
  intro s b t hs hrun
  obtain ⟨a, u, hfirst, hrest⟩ := run_bind.mp hrun
  exact hf a (hr hs hfirst) hrest

theorem Carries.pre {r : Reader α} {P' : List LineToken → Prop} (hr : Carries P r Q)
    (h : ∀ ts, P' ts → P ts) : Carries P' r Q :=
  fun _ _ _ hs hrun => hr (h _ hs) hrun

/-- The result of a reader may be dropped. -/
theorem Carries.dropped {r : Reader α} (hr : Carries P r Q) : Carries P (discard r) Q :=
  Carries.bind hr fun _ => carries_pure

theorem Carries.map {r : Reader α} (hr : Carries P r Q) (f : α → β) : Carries P (f <$> r) Q := by
  rw [← bind_pure_comp]
  exact hr.bind fun _ => carries_pure

theorem carries_fail_bind {found : LineToken} {cause : ReadCause} {f : α → Reader β} :
    Carries P (fail found cause >>= f) Q := by
  intro s b t _ hrun
  obtain ⟨a, u, hfirst, -⟩ := run_bind.mp hrun
  cases hfirst

/-- A check behind which reading goes on. -/
theorem carries_guard {c : Prop} [Decidable c] {found : LineToken} {cause : ReadCause}
    {f : Unit → Reader α} (h : Carries P (f ()) Q) :
    Carries P (if c then fail found cause >>= f else f ()) Q := by
  split
  · exact carries_fail_bind
  · exact h

/-! ## 2. Tokens -/

/-- The next token is the one given. -/
def NextIs (P : List LineToken → Prop) (t : Token) : List LineToken → Prop :=
  fun ts => P ts ∧ (firstToken ts).token = t

theorem carries_program : Carries P program P := by
  intro s a t hs hrun
  cases hrun
  exact hs

theorem carries_remaining : Carries P remaining P := by
  intro s a t hs hrun
  cases hrun
  exact hs

theorem carries_update (f : Program → α × Program) : Carries P (update f) P := by
  intro s a t hs hrun
  cases hrun
  exact hs

/-- The next token is looked at. -/
theorem carries_peek {f : LineToken → Reader α} (h : ∀ t line, Carries (NextIs P t) (f ⟨t, line⟩) Q) :
    Carries P (peek >>= f) Q := by
  intro s a t hs hrun
  exact h (firstToken s.tokens).token (firstToken s.tokens).line ⟨hs, rfl⟩ hrun

/-- The next token is the one asked for, or it is not. -/
theorem carries_check {t : Token} {f : Bool → Reader α} (htrue : Carries (NextIs P t) (f true) Q)
    (hfalse : Carries P (f false) Q) : Carries P (check t >>= f) Q := by
  intro s a u hs hrun
  have hrun : f (decide ((firstToken s.tokens).token = t)) s = .ok (a, u) := hrun
  by_cases hfirst : (firstToken s.tokens).token = t
  · rw [decide_eq_true hfirst] at hrun
    exact htrue ⟨hs, hfirst⟩ hrun
  · rw [decide_eq_false hfirst] at hrun
    exact hfalse hs hrun

section Passable

variable (hP : Passable P)

include hP

/-- A token that is known is passed. -/
theorem carries_advance {t : Token} (ht : t.isStop = false) : Carries (NextIs P t) advance P := by
  rintro s a u ⟨hs, hfirst⟩ hrun
  cases hrun
  show P (dropToken s.tokens)
  cases htokens : s.tokens with
  | nil =>
    rw [htokens] at hfirst
    cases hfirst
    cases ht
  | cons v rest =>
    rw [htokens] at hfirst hs
    have hv : v.token = t := hfirst
    rw [dropToken_cons (hv.symm ▸ ht)]
    exact hP v rest (hv.symm ▸ ht) hs

/-- A token is passed that must not be a mark or the end, so it is no brace either. -/
theorem carries_advance_bind {f : LineToken → Reader α}
    (hmark : ∀ mark line, ∃ found cause, f ⟨.mark mark, line⟩ = fail found cause)
    (hend : ∀ line, ∃ found cause, f ⟨.endOfFile, line⟩ = fail found cause)
    (h : ∀ t line, Carries P (f ⟨t, line⟩) Q) : Carries P (advance >>= f) Q := by
  have hstop : ∀ t line, t.isStop = true → ∃ found cause, f ⟨t, line⟩ = fail found cause := by
    intro t line ht
    cases t with
    | mark mark => exact hmark mark line
    | endOfFile => exact hend line
    | _ => cases ht
  intro s a u hs hrun
  obtain ⟨v, w, hadvance, hrest⟩ := run_bind.mp hrun
  cases ht : (firstToken s.tokens).token.isStop with
  | true =>
    cases hadvance
    obtain ⟨found, cause, hfail⟩ := hstop _ (firstToken s.tokens).line ht
    have hrest : f (firstToken s.tokens) _ = _ := hrest
    rw [hfail] at hrest
    cases hrest
  | false =>
    have hw := carries_advance hP ht ⟨hs, rfl⟩ hadvance
    cases hadvance
    exact h _ (firstToken s.tokens).line hw hrest

theorem carries_accept {t : Token} (ht : t.isStop = false) : Carries P (accept t) P :=
  carries_check ((carries_advance hP ht).dropped.bind fun _ => carries_pure) carries_pure

theorem carries_expectOr {t : Token} (ht : t.isStop = false) (cause : ReadCause) :
    Carries P (expectOr t cause) P :=
  carries_check (carries_advance hP ht) (carries_peek fun _ _ => carries_fail)

theorem carries_expect {t : Token} (ht : t.isStop = false) : Carries P (expect t) P :=
  carries_expectOr hP ht _

theorem carries_identifier : Carries P identifier P := by
  refine carries_peek fun t line => ?_
  cases t with
  | ident name => exact (carries_advance hP rfl).bind fun _ => carries_pure
  | _ => exact carries_fail

theorem carries_commaList {item : Reader α} (hitem : Carries P item P) (bound : Nat) :
    Carries P (commaList item bound) P := by
  induction bound with
  | zero => exact carries_pure
  | succ bound ih =>
    refine hitem.bind fun first => (carries_accept hP rfl).bind fun more => ?_
    cases more with
    | true => exact ih.bind fun _ => carries_pure
    | false => exact carries_pure

theorem carries_commas {item : Reader α} (hitem : Carries P item P) : Carries P (commas item) P :=
  carries_remaining.bind fun bound => carries_commaList hP hitem bound

theorem passable_bracketPairs {ts : List LineToken} (hts : P ts) : P (bracketPairs ts).2 := by
  fun_induction bracketPairs ts with
  | case1 line line' rest n rest' heq ih =>
    rw [heq] at ih
    exact ih (hP _ _ rfl (hP _ _ rfl hts))
  | case2 => exact hts

theorem carries_readBrackets (ty : Ty) : Carries P (readBrackets ty) P := by
  intro s a t hs hrun
  cases hrun
  exact passable_bracketPairs hP hs

theorem carries_readType : Carries P readType P := by
  refine carries_advance_bind hP (fun mark line => ⟨⟨.mark mark, line⟩, .typeExpected, rfl⟩)
    (fun line => ⟨⟨.endOfFile, line⟩, .typeExpected, rfl⟩) fun t line => ?_
  cases t with
  | keyword word =>
    cases word with
    | prim t => exact carries_pure.bind fun ty => carries_readBrackets hP ty
    | _ => exact carries_fail_bind
  | ident name =>
    exact ((carries_update _).map Ty.object).bind fun ty => carries_readBrackets hP ty
  | _ => exact carries_fail_bind

/-! ## 3. Variables, fields and calls -/

omit hP in
theorem carries_lookupVar (found : LineToken) (name : String) :
    Carries P (lookupVar m found name) P := by
  refine carries_program.bind fun p => ?_
  cases p.varByName? m name with
  | some v => exact carries_pure
  | none => exact carries_fail

theorem carries_readVar : Carries P (readVar m) P :=
  (carries_identifier hP).bind fun (found, name) => carries_lookupVar found name

theorem carries_readLabel : Carries P readLabel P := by
  refine carries_peek fun t line => ?_
  cases t with
  | ident name => exact carries_advance hP rfl
  | _ => exact carries_fail

omit hP in
theorem carries_fieldBase (found : LineToken) (name : String) :
    Carries P (fieldBase m found name) P := by
  refine carries_program.bind fun p => ?_
  cases p.varByName? m name with
  | some v =>
    dsimp only
    cases (p.varTy v).class? with
    | some c => exact carries_pure
    | none => exact carries_fail
  | none =>
    dsimp only
    cases p.classByName? name with
    | some c => exact carries_pure
    | none => exact carries_fail

omit hP in
theorem carries_accessedField (found : LineToken) (name : String) (base : Option VarId)
    (c : ClassId) : Carries P (accessedField found name base c) P := by
  refine carries_program.bind fun p => ?_
  cases p.resolveField? c name with
  | none => exact carries_fail
  | some f => exact carries_guard carries_pure

theorem carries_readFieldAccess (found : LineToken) (name : String) :
    Carries P (readFieldAccess m found name) P := by
  refine (carries_identifier hP).bind fun (fieldFound, fieldName) => ?_
  exact (carries_fieldBase found name).bind fun (base, c) => carries_accessedField _ _ base c

theorem carries_readMethodRef : Carries P readMethodRef P := by
  refine carries_advance_bind hP (fun _ _ => ⟨_, _, rfl⟩) (fun _ => ⟨_, _, rfl⟩) fun t line => ?_
  cases t with
  | signature text =>
    dsimp only
    cases Program.cutSignature? text.toList with
    | none => exact carries_fail
    | some cut =>
      dsimp only
      cases subsigArity? (normalSubsig cut.2) with
      | none => exact carries_fail
      | some arity =>
        refine (carries_update _).bind fun c => ?_
        exact (carries_update _).bind fun s => carries_pure
  | _ => exact carries_fail

theorem carries_readArguments (arity : Nat) : Carries P (readArguments m arity) P := by
  have hclose : ∀ args : List VarId, Carries P (do
      let close ← expect (.mark .rightParen)
      if args.length ≠ arity then
        fail close (.argumentCount arity args.length)
      return args) P := fun args =>
    (carries_expect hP rfl).bind fun _ => carries_guard carries_pure
  refine (carries_expect hP rfl).dropped.bind fun _ => carries_check ?_ ?_
  · exact (hclose []).pre fun _ h => h.1
  · exact (carries_commas hP (carries_readVar hP)).bind hclose

theorem carries_readTarget (kind : CallKind) (base result : Option VarId) :
    Carries P (readTarget m kind base result) P := by
  refine (carries_readMethodRef hP).bind fun (target, arity) => ?_
  exact (carries_readArguments hP arity).bind fun _ => carries_pure

theorem carries_readInvoke (kind : CallKind) (result : Option VarId) :
    Carries P (readInvoke m kind result) P := by
  unfold readInvoke
  cases kind.hasReceiver with
  | true =>
    refine (carries_readVar hP).bind fun base => ?_
    exact (carries_expect hP rfl).dropped.bind fun _ => carries_readTarget hP kind (some base) result
  | false => exact carries_readTarget hP kind none result

/-! ## 4. Assignments -/

theorem carries_readNamedSource (lhs : VarId) : Carries P (readNamedSource m lhs) P := by
  refine (carries_identifier hP).bind fun (found, name) => ?_
  refine (carries_accept hP rfl).bind fun isField => ?_
  cases isField with
  | true => exact (carries_readFieldAccess hP found name).bind fun _ => carries_pure
  | false =>
    refine (carries_lookupVar found name).bind fun operand => ?_
    refine (carries_accept hP rfl).bind fun isElement => ?_
    cases isElement with
    | true =>
      refine (carries_readVar hP).bind fun index => ?_
      exact (carries_expect hP rfl).dropped.bind fun _ => carries_pure
    | false =>
      refine carries_peek fun t line => ?_
      cases t with
      | operator op =>
        refine (carries_advance hP rfl).dropped.bind fun _ => ?_
        exact (carries_readVar hP).bind fun _ => carries_pure
      | _ => exact carries_pure.pre fun _ h => h.1

theorem carries_readSource (lhs : VarId) : Carries P (readSource m lhs) P := by
  refine carries_peek fun t line => ?_
  cases t with
  | keyword word =>
    cases word with
    | newObject =>
      refine (carries_advance hP rfl).dropped.bind fun _ => (carries_readType hP).bind fun ty => ?_
      refine (carries_accept hP rfl).bind fun isArray => ?_
      cases isArray with
      | true =>
        refine (carries_readVar hP).bind fun length => ?_
        exact (carries_expect hP rfl).dropped.bind fun _ => carries_pure
      | false => exact carries_pure
    | invoke kind =>
      refine (carries_advance hP rfl).dropped.bind fun _ => ?_
      exact (carries_readInvoke hP kind (some lhs)).bind fun _ => carries_pure
    | _ => exact carries_fail
  | integer value => exact (carries_advance hP rfl).dropped.bind fun _ => carries_pure
  | mark mark =>
    cases mark with
    | leftParen =>
      refine (carries_advance hP rfl).dropped.bind fun _ => (carries_readType hP).bind fun ty => ?_
      refine (carries_expect hP rfl).dropped.bind fun _ => ?_
      exact (carries_readVar hP).bind fun _ => carries_pure
    | _ => exact carries_fail
  | ident name => exact (carries_readNamedSource hP lhs).pre fun _ h => h.1
  | _ => exact carries_fail

theorem carries_readAssignment : Carries P (readAssignment m) P := by
  refine (carries_identifier hP).bind fun (found, name) => ?_
  refine (carries_accept hP rfl).bind fun isField => ?_
  cases isField with
  | true =>
    refine (carries_readFieldAccess hP found name).bind fun (base, field) => ?_
    refine (carries_expect hP rfl).dropped.bind fun _ => ?_
    exact (carries_readVar hP).bind fun _ => carries_pure
  | false =>
    refine (carries_lookupVar found name).bind fun lhs => ?_
    refine (carries_accept hP rfl).bind fun isElement => ?_
    cases isElement with
    | true =>
      refine (carries_readVar hP).bind fun index => ?_
      refine (carries_expect hP rfl).dropped.bind fun _ => ?_
      refine (carries_expect hP rfl).dropped.bind fun _ => ?_
      exact (carries_readVar hP).bind fun _ => carries_pure
    | false =>
      exact (carries_expect hP rfl).dropped.bind fun _ => carries_readSource hP lhs

/-! ## 5. Statements without braces, and declarations -/

theorem carries_readCases (bound : Nat) : Carries P (readCases bound) P := by
  induction bound with
  | zero => exact carries_pure
  | succ bound ih =>
    refine (carries_accept hP rfl).bind fun isArm => ?_
    cases isArm with
    | true =>
      refine carries_advance_bind hP (fun _ _ => ⟨_, _, rfl⟩) (fun _ => ⟨_, _, rfl⟩)
        fun t line => ?_
      cases t with
      | integer value =>
        refine (carries_expect hP rfl).dropped.bind fun _ => ?_
        refine (carries_readLabel hP).bind fun target => ?_
        exact (carries_expect hP rfl).dropped.bind fun _ => ih.bind fun _ => carries_pure
      | _ => exact carries_fail
    | false => exact carries_pure

theorem carries_readBranch : Carries P (readBranch m) P := by
  refine (carries_readVar hP).bind fun left => ?_
  refine carries_advance_bind hP (fun _ _ => ⟨_, _, rfl⟩) (fun _ => ⟨_, _, rfl⟩) fun t line => ?_
  cases t with
  | operator op =>
    refine carries_guard ((carries_readVar hP).bind fun right => ?_)
    refine (carries_expect hP rfl).dropped.bind fun _ => ?_
    exact (carries_readLabel hP).bind fun _ => carries_pure
  | _ => exact carries_fail

theorem carries_readReturn (start : LineToken) : Carries P (readReturn m start) P := by
  refine carries_check (Carries.pre (P := P) ?_ fun _ h => h.1) ?_
  · exact carries_program.bind fun _ => carries_guard carries_pure
  · exact (carries_readVar hP).bind fun _ => carries_pure

theorem carries_readDeclared (ty : Ty) : Carries P (readDeclared m ty) P := by
  refine (carries_identifier hP).bind fun (found, name) => carries_program.bind fun p => ?_
  exact carries_guard (carries_update _).dropped

theorem carries_readVarDecl : Carries P (readVarDecl m) P := by
  refine (carries_readType hP).bind fun ty => ?_
  refine (carries_commas hP (carries_readDeclared hP ty)).dropped.bind fun _ => ?_
  exact (carries_expect hP rfl).dropped

/-- A label declaration is a name and a colon. -/
theorem carries_atLabel {f : LineToken → Reader α} {g : Reader α}
    (hlabel : ∀ label, Carries P (f label) Q) (hnone : Carries P g Q) :
    Carries P (atLabel >>= fun isLabel => if isLabel then
      (advance >>= fun label => discard advance >>= fun _ => f label) else g) Q := by
  simp only [atLabel, bind_assoc]
  refine carries_peek fun t line => ?_
  cases t with
  | ident name =>
    rintro s a u ⟨hs, hfirst⟩ hrun
    obtain ⟨isLabel, v, hsecond, hrun⟩ := run_bind.mp hrun
    cases hsecond
    by_cases hcolon : (s.tokens.drop 1).head?.any (·.token = .mark .colon) = true
    · rw [if_pos hcolon] at hrun
      obtain ⟨label, w, hadvance, hrun⟩ := run_bind.mp hrun
      have hw := carries_advance hP rfl ⟨hs, hfirst⟩ hadvance
      have hnext : (firstToken w.tokens).token = .mark .colon := by
        cases hadvance
        show (firstToken (dropToken s.tokens)).token = .mark .colon
        obtain ⟨c, hc, htoken⟩ := (Option.any_eq_true _ _).mp hcolon
        cases htokens : s.tokens with
        | nil =>
          rw [htokens] at hfirst
          cases hfirst
        | cons first rest =>
          rw [htokens] at hfirst hc
          have hfirst : first.token = .ident name := hfirst
          rw [dropToken_cons (by rw [hfirst]; rfl)]
          cases rest with
          | nil => cases hc
          | cons second rest =>
            cases hc
            exact of_decide_eq_true htoken
      obtain ⟨_, x, hdropped, hrun⟩ := run_bind.mp hrun
      exact hlabel label ((carries_advance hP rfl).dropped ⟨hw, hnext⟩ hdropped) hrun
    · rw [if_neg hcolon] at hrun
      exact hnone hs hrun
  | _ =>
    intro s a u hs hrun
    exact hnone hs.1 hrun

end Passable

/-! ## 6. Levels -/

/-- Of the braces that are open, the outermost of `depth` will be closed where `stop` says. -/
def Level (stop : Option (List LineToken)) (depth : Nat) : List LineToken → Prop :=
  fun ts => skipBlock? depth ts = stop

variable {stop : Option (List LineToken)} {depth : Nat}

theorem passable_level : Passable (Level stop (depth + 1)) :=
  fun _ rest ht h => (skipBlock?_of_not_stop ht depth rest).symm.trans h

/-- A brace that is read opens or closes a level. -/
theorem carries_brace {t : Token} {depth' : Nat} (hend : t ≠ .endOfFile)
    (ht : ∀ line rest, skipBlock? (depth + 1) (⟨t, line⟩ :: rest) = skipBlock? depth' rest) :
    Carries (Level stop (depth + 1)) (expect t) (Level stop depth') := by
  refine carries_check ?_ (carries_peek fun _ _ => carries_fail)
  rintro s a u ⟨hs, hfirst⟩ hrun
  cases hrun
  show skipBlock? depth' (dropToken s.tokens) = stop
  unfold Level at hs
  cases htokens : s.tokens with
  | nil =>
    rw [htokens] at hfirst
    exact absurd hfirst.symm hend
  | cons first rest =>
    rw [htokens] at hfirst hs
    obtain ⟨token, line⟩ := first
    obtain rfl : token = t := hfirst
    rw [dropToken, if_neg hend]
    exact (ht line rest).symm.trans hs

theorem carries_open :
    Carries (Level stop (depth + 1)) (expect (.mark .leftBrace)) (Level stop (depth + 2)) :=
  carries_brace nofun fun _ _ => rfl

theorem carries_close :
    Carries (Level stop (depth + 1)) (expect (.mark .rightBrace)) (Level stop depth) :=
  carries_brace nofun fun _ _ => rfl

/-- **A switch closes the brace it opens.** -/
theorem carries_readSwitch :
    Carries (Level stop (depth + 1)) (readSwitch m) (Level stop (depth + 1)) := by
  have hP : Passable (Level stop (depth + 1)) := passable_level
  have hQ : Passable (Level stop (depth + 2)) := passable_level
  refine (carries_expect hP rfl).dropped.bind fun _ => ?_
  refine (carries_readVar hP).bind fun on => ?_
  refine (carries_expect hP rfl).dropped.bind fun _ => ?_
  refine carries_open.dropped.bind fun _ => carries_remaining.bind fun bound => ?_
  refine (carries_readCases hQ bound).bind fun arms => ?_
  refine (carries_expectOr hQ rfl _).dropped.bind fun _ => ?_
  refine (carries_expect hQ rfl).dropped.bind fun _ => ?_
  refine (carries_readLabel hQ).bind fun otherwise => ?_
  refine (carries_expect hQ rfl).dropped.bind fun _ => ?_
  exact carries_close.dropped.bind fun _ => carries_pure

/-- **A statement keeps the level of the braces.** -/
theorem carries_readStmt :
    Carries (Level stop (depth + 1)) (readStmt m) (Level stop (depth + 1)) := by
  have hP : Passable (Level stop (depth + 1)) := passable_level
  -- the semicolon behind most statements
  have hend : ∀ stmt : StmtOf LineToken, Carries (Level stop (depth + 1))
      (discard (expect (.mark .semicolon)) >>= fun _ => pure stmt) (Level stop (depth + 1)) :=
    fun stmt => (carries_expect hP rfl).dropped.bind fun _ => carries_pure
  refine carries_peek fun t line => ?_
  cases t with
  | keyword word =>
    cases word with
    | switchJump => exact (carries_advance hP rfl).dropped.bind fun _ => carries_readSwitch
    | invoke kind =>
      refine (carries_advance hP rfl).dropped.bind fun _ => ?_
      exact (carries_readInvoke hP kind none).bind fun _ => carries_pure.bind hend
    | ifJump => exact (carries_advance hP rfl).dropped.bind fun _ => (carries_readBranch hP).bind hend
    | gotoJump =>
      refine (carries_advance hP rfl).dropped.bind fun _ => ?_
      exact (carries_readLabel hP).bind fun _ => carries_pure.bind hend
    | returnJump =>
      exact (carries_advance hP rfl).dropped.bind fun _ => (carries_readReturn hP _).bind hend
    | nopMark => exact (carries_advance hP rfl).dropped.bind fun _ => carries_pure.bind hend
    | _ => exact carries_fail_bind
  | ident name => exact ((carries_readAssignment hP).pre fun _ h => h.1).bind hend
  | _ => exact carries_fail_bind

/-! ## 7. Bodies -/

/-- **What a body is made of keeps the level of the braces**: a declaration, a label or a
    statement. -/
theorem carries_readItem (d : Draft) :
    Carries (Level stop (depth + 1)) (readItem m d) (Level stop (depth + 1)) := by
  have hP : Passable (Level stop (depth + 1)) := passable_level
  refine (carries_accept hP rfl).bind fun isDecl => ?_
  cases isDecl with
  | true => exact (carries_readVarDecl hP).bind fun _ => carries_pure
  | false =>
    refine carries_atLabel hP (fun label => carries_guard carries_pure) ?_
    refine carries_peek fun t line => ?_
    exact (carries_readStmt.pre fun _ h => h.1).bind fun _ => carries_pure

theorem carries_readItems (bound : Nat) (d : Draft) :
    Carries (Level stop (depth + 1)) (readItems m bound d) (Level stop (depth + 1)) := by
  induction bound generalizing d with
  | zero => exact carries_pure
  | succ bound ih =>
    refine carries_check (carries_pure.pre fun _ h => h.1) ?_
    refine carries_check (carries_peek fun _ _ => carries_fail_bind) ?_
    exact (carries_readItem d).bind ih

/-- **What a body is made of, and its brace.** Behind the opening brace one level is open, and
    reading goes on to where it is closed. -/
theorem carries_behindOpen {stop : Option (List LineToken)} :
    Carries (Level stop 1) (do
      let draft ← readItems m (← remaining) {}
      discard <| expect (.mark .rightBrace)
      draft.finish) (Level stop 0) := by
  refine carries_remaining.bind fun bound => (carries_readItems bound {}).bind fun draft => ?_
  refine carries_close.dropped.bind fun _ => ?_
  intro s a t hs hrun
  obtain ⟨-, -, rfl⟩ := Draft.finish_eq_ok.mp hrun
  exact hs

end Reader

end ObjectFlow
