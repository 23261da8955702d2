/-
  File:      ObjectFlow/Proofs/Program/BodyLookahead.lean
  Subject:   BODIES AND WHOLE PROGRAMS: they are read, or one error is reported; nothing behind the
             text is looked at.

  * one lemma for each reader of bodies, up to `advances_readItem`;
  * `DraftIn`: the labels of a draft are tokens of the text, and so is every label at which a body
    turns out to be wrong;
  * `parsing_cases`: a text is read the same whatever stands behind it and whatever was reported
    before; it is a program and nothing is reported, or one error is, at one of its own tokens.
-/
import ObjectFlow.Proofs.Program.Lookahead

namespace ObjectFlow

namespace Reader

variable {α : Type} {σ : Stretch} {k : α → Nat} {post : α → α → Prop}

/-! ## 1. Variables, fields and labels -/

theorem looks_lookupVar (m : MethodId) {found : LineToken} (hfound : found ∈ σ.text)
    (name : String) : Looks σ (lookupVar m found name) fun _ => True := by
  refine blind_program fun p => ?_
  cases p.varByName? m name with
  | some v => exact looks_pure trivial
  | none => exact blind_fail hfound _

theorem advances_readVar (m : MethodId) : Advances σ (readVar m) fun _ => True :=
  advances_identifier.afterFirst (fun _ => Nat.le_refl 1) fun (_, name) hfound =>
    looks_lookupVar m hfound name

theorem advances_readLabel : Advances σ readLabel (· ∈ σ.text) := by
  refine blind_next fun t rest p said hs ht => ?_
  obtain ⟨token, line⟩ := t
  cases token with
  | ident name =>
    refine (sameEnd_advance hs (by nofun) p said).mono (fun _ _ h => h) fun u u' h => ?_
    obtain ⟨rfl, rfl⟩ := h
    exact ⟨rfl, ht⟩
  | _ => exact .error ht

theorem looks_fieldBase (m : MethodId) {found : LineToken} (hfound : found ∈ σ.text)
    (name : String) : Looks σ (fieldBase m found name) fun _ => True := by
  refine blind_program fun p => ?_
  cases p.varByName? m name with
  | some v =>
    dsimp only
    cases (p.varTy v).class? with
    | some c => exact looks_pure trivial
    | none => exact blind_fail hfound _
  | none =>
    dsimp only
    cases p.classByName? name with
    | some c => exact looks_pure trivial
    | none => exact blind_fail hfound _

theorem looks_accessedField {found : LineToken} (hfound : found ∈ σ.text) (name : String)
    (base : Option VarId) (c : ClassId) :
    Looks σ (accessedField found name base c) fun _ => True := by
  refine blind_program fun p => ?_
  cases p.resolveField? c name with
  | none => exact blind_fail hfound _
  | some f => exact blind_guard hfound (looks_pure trivial)

theorem advances_readFieldAccess (m : MethodId) {found : LineToken} (hfound : found ∈ σ.text)
    (name : String) : Advances σ (readFieldAccess m found name) fun _ => True := by
  refine advances_identifier.afterFirst (fun _ => Nat.le_refl 1)
    fun (fieldFound, fieldName) hfield => ?_
  refine (looks_fieldBase m hfound name).after fun (base, c) _ => ?_
  exact looks_accessedField hfield fieldName base c

/-! ## 2. Calls -/

theorem looks_readMethodRef : Looks σ readMethodRef fun _ => True := by
  refine looks_advance.after fun found hfound => ?_
  cases found.token with
  | signature text =>
    dsimp only
    cases Program.cutSignature? text.toList with
    | none => exact blind_fail hfound _
    | some cut =>
      obtain ⟨owner, subsig⟩ := cut
      dsimp only
      cases subsigArity? (normalSubsig subsig) with
      | none => exact blind_fail hfound _
      | some arity =>
        exact (looks_update _).after fun c _ => (looks_update _).after fun s _ => looks_pure trivial
  | _ => exact blind_fail hfound _

theorem looks_readArguments (m : MethodId) (arity : Nat) :
    Looks σ (readArguments m arity) fun _ => True := by
  have hclose : ∀ args : List VarId, Looks σ
      (do
        let close ← expect (.mark .rightParen)
        if args.length ≠ arity then
          fail close (.argumentCount arity args.length)
        return args) fun _ => True := fun args =>
    (advances_expect (by nofun)).after fun close hclose => blind_guard hclose (looks_pure trivial)
  refine (advances_expect (by nofun)).dropped.after fun _ _ => ?_
  refine (looks_check _).after fun empty _ => ?_
  cases empty with
  | true => exact hclose []
  | false => exact (looks_commas (advances_readVar m)).after fun args _ => hclose args

theorem looks_readTarget (m : MethodId) (kind : CallKind) (base result : Option VarId) :
    Looks σ (readTarget m kind base result) fun _ => True := by
  refine looks_readMethodRef.after fun (target, arity) _ => ?_
  exact (looks_readArguments m arity).after fun args _ => looks_pure trivial

theorem looks_readInvoke (m : MethodId) (kind : CallKind) (result : Option VarId) :
    Looks σ (readInvoke m kind result) fun _ => True := by
  unfold readInvoke
  cases kind.hasReceiver with
  | true =>
    refine (advances_readVar m).after fun base _ => ?_
    exact (advances_expect (by nofun)).dropped.after fun _ _ => looks_readTarget m kind _ result
  | false => exact looks_readTarget m kind none result

/-! ## 3. Assignments -/

/-- The labels a statement jumps to are tokens of the text. -/
abbrev LabelsIn (σ : Stretch) (stmt : StmtOf LineToken) : Prop := ∀ l ∈ stmt.targets, l ∈ σ.text

/-- A statement that does not jump. -/
theorem labelsIn_of_targets {stmt : StmtOf LineToken} (h : stmt.targets = []) :
    LabelsIn σ stmt := by
  intro l hl
  rw [h] at hl
  exact absurd hl List.not_mem_nil

theorem looks_readNamedSource (m : MethodId) (lhs : VarId) :
    Looks σ (readNamedSource m lhs) (LabelsIn σ) := by
  refine advances_identifier.after fun (found, name) hfound => ?_
  refine (looks_accept _).after fun isField _ => ?_
  cases isField with
  | true =>
    exact (advances_readFieldAccess m hfound name).after fun (base, field) _ =>
      looks_pure (labelsIn_of_targets rfl)
  | false =>
    refine (looks_lookupVar m hfound name).after fun operand _ => ?_
    refine (looks_accept _).after fun isArray _ => ?_
    cases isArray with
    | true =>
      refine (advances_readVar m).after fun index _ => ?_
      refine (advances_expect (by nofun)).dropped.after fun _ _ => ?_
      exact looks_pure (labelsIn_of_targets rfl)
    | false =>
      refine looks_peek.after fun next _ => ?_
      cases next.token with
      | operator op =>
        refine looks_advance.dropped.after fun _ _ => ?_
        exact (advances_readVar m).after fun right _ => looks_pure (labelsIn_of_targets rfl)
      | _ => exact looks_pure (labelsIn_of_targets rfl)

theorem looks_readSource (m : MethodId) (lhs : VarId) :
    Looks σ (readSource m lhs) (LabelsIn σ) := by
  refine looks_peek.after fun found hfound => ?_
  cases found.token with
  | keyword word =>
    cases word with
    | newObject =>
      refine looks_advance.dropped.after fun _ _ => ?_
      refine advances_readType.after fun ty _ => ?_
      refine (looks_accept _).after fun isArray _ => ?_
      cases isArray with
      | true =>
        refine (advances_readVar m).after fun length _ => ?_
        refine (advances_expect (by nofun)).dropped.after fun _ _ => ?_
        exact looks_pure (labelsIn_of_targets rfl)
      | false => exact looks_pure (labelsIn_of_targets rfl)
    | invoke kind =>
      refine looks_advance.dropped.after fun _ _ => ?_
      exact (looks_readInvoke m kind _).after fun i _ => looks_pure (labelsIn_of_targets rfl)
    | _ => exact blind_fail hfound _
  | integer value =>
    exact looks_advance.dropped.after fun _ _ => looks_pure (labelsIn_of_targets rfl)
  | mark mark =>
    cases mark with
    | leftParen =>
      refine looks_advance.dropped.after fun _ _ => ?_
      refine advances_readType.after fun ty _ => ?_
      refine (advances_expect (by nofun)).dropped.after fun _ _ => ?_
      exact (advances_readVar m).after fun operand _ => looks_pure (labelsIn_of_targets rfl)
    | _ => exact blind_fail hfound _
  | ident name => exact looks_readNamedSource m lhs
  | _ => exact blind_fail hfound _

theorem looks_readAssignment (m : MethodId) : Looks σ (readAssignment m) (LabelsIn σ) := by
  refine advances_identifier.after fun (found, name) hfound => ?_
  refine (looks_accept _).after fun isField _ => ?_
  cases isField with
  | true =>
    refine (advances_readFieldAccess m hfound name).after fun (base, field) _ => ?_
    refine (advances_expect (by nofun)).dropped.after fun _ _ => ?_
    exact (advances_readVar m).after fun rhs _ => looks_pure (labelsIn_of_targets rfl)
  | false =>
    refine (looks_lookupVar m hfound name).after fun lhs _ => ?_
    refine (looks_accept _).after fun isArray _ => ?_
    cases isArray with
    | true =>
      refine (advances_readVar m).after fun index _ => ?_
      refine (advances_expect (by nofun)).dropped.after fun _ _ => ?_
      refine (advances_expect (by nofun)).dropped.after fun _ _ => ?_
      exact (advances_readVar m).after fun rhs _ => looks_pure (labelsIn_of_targets rfl)
    | false => exact (advances_expect (by nofun)).dropped.after fun _ _ => looks_readSource m lhs

/-! ## 4. Statements -/

/-- A turn of the loop over the arms of a switch. -/
def caseTurn (sofar : List (Int32 × LineToken)) : Reader (List (Int32 × LineToken) × Bool) := do
  if ← accept (.keyword .caseArm) then
    let found ← advance
    match found.token with
    | .integer value =>
      discard <| expect (.mark .colon)
      let target ← readLabel
      discard <| expect (.mark .semicolon)
      return (sofar ++ [(value, target)], true)
    | _ => fail found .integerExpected
  else
    return (sofar, false)

theorem lists_readCases : Lists readCases caseTurn := by
  intro n sofar
  simp only [readCases, caseTurn, map_bind, bind_assoc]
  refine bind_congr fun isCase => ?_
  cases isCase with
  | true =>
    simp only [if_true, map_bind, bind_assoc]
    refine bind_congr fun found => ?_
    cases found.token with
    | integer value => simp
    | _ => rfl
  | false => simp

/-- The same arms, which go to tokens of the text. -/
def SameArms (σ : Stretch) (arms arms' : List (Int32 × LineToken)) : Prop :=
  arms' = arms ∧ ∀ arm ∈ arms, arm.2 ∈ σ.text

theorem SameArms.nil : SameArms σ [] [] := ⟨rfl, fun _ h => absurd h List.not_mem_nil⟩

theorem blindTurn_case : BlindTurn σ caseTurn caseTurn (SameArms σ) := by
  rintro sofar _ ⟨rfl, hsofar⟩
  refine (looks_accept _).after fun isCase _ => ?_
  cases isCase with
  | true =>
    refine looks_advance.after fun found hfound => ?_
    cases found.token with
    | integer value =>
      refine (advances_expect (by nofun)).dropped.afterFirst (fun x => Bool.toNat_le x.2)
        fun _ _ => ?_
      refine advances_readLabel.after fun target htarget => ?_
      refine (advances_expect (by nofun)).dropped.after fun _ _ => ?_
      refine blind_pure rfl ⟨⟨rfl, fun arm harm => ?_⟩, rfl⟩
      rcases List.mem_append.mp harm with harm | harm
      · exact hsofar arm harm
      · exact List.mem_singleton.mp harm ▸ htarget
    | _ => exact blind_fail hfound _
  | false => exact blind_pure rfl ⟨⟨rfl, hsofar⟩, rfl⟩

theorem advances_readSwitch (m : MethodId) : Advances σ (readSwitch m) (LabelsIn σ) := by
  refine (advances_expect (by nofun)).dropped.afterFirst (fun _ => Nat.le_refl 1) fun _ _ => ?_
  refine (advances_readVar m).after fun on _ => ?_
  refine (advances_expect (by nofun)).dropped.after fun _ _ => ?_
  refine (advances_expect (by nofun)).dropped.after fun _ _ => ?_
  refine blind_remaining (fun n n' _ => blind_lists lists_readCases blindTurn_case .nil n n')
    fun cases cases' hcases => ?_
  obtain ⟨rfl, hcases⟩ := hcases
  refine (advances_expectOr (by nofun) _).dropped.after fun _ _ => ?_
  refine (advances_expect (by nofun)).dropped.after fun _ _ => ?_
  refine advances_readLabel.after fun otherwise hotherwise => ?_
  refine (advances_expect (by nofun)).dropped.after fun _ _ => ?_
  refine (advances_expect (by nofun)).dropped.after fun _ _ => ?_
  refine looks_pure fun l hl => ?_
  rcases List.mem_append.mp hl with hl | hl
  · obtain ⟨arm, harm, rfl⟩ := List.mem_map.mp hl
    exact hcases arm harm
  · exact List.mem_singleton.mp hl ▸ hotherwise

theorem looks_readBranch (m : MethodId) : Looks σ (readBranch m) (LabelsIn σ) := by
  refine (advances_readVar m).after fun left _ => ?_
  refine looks_advance.after fun found hfound => ?_
  cases found.token with
  | operator op =>
    refine blind_guard hfound ?_
    refine (advances_readVar m).after fun right _ => ?_
    refine (advances_expect (by nofun)).dropped.after fun _ _ => ?_
    exact advances_readLabel.after fun target htarget => looks_pure fun l hl =>
      List.mem_singleton.mp hl ▸ htarget
  | _ => exact blind_fail hfound _

theorem looks_readReturn (m : MethodId) {start : LineToken} (hstart : start ∈ σ.text) :
    Looks σ (readReturn m start) (LabelsIn σ) := by
  refine (looks_check _).after fun empty _ => ?_
  cases empty with
  | true =>
    exact blind_program fun p => blind_guard hstart (looks_pure (labelsIn_of_targets rfl))
  | false => exact (advances_readVar m).after fun v _ => looks_pure (labelsIn_of_targets rfl)

theorem advances_readStmt (m : MethodId) : Advances σ (readStmt m) (LabelsIn σ) := by
  -- the semicolon behind most statements
  have hend : ∀ {stmt : StmtOf LineToken}, LabelsIn σ stmt → Advances σ
      (discard (expect (.mark .semicolon)) >>= fun _ => pure stmt) (LabelsIn σ) := fun hstmt =>
    (advances_expect (by nofun)).dropped.afterFirst (fun _ => Nat.le_refl 1) fun _ _ =>
      looks_pure hstmt
  refine looks_peek.after fun found hfound => ?_
  cases found.token with
  | ident name => exact (looks_readAssignment m).after fun stmt hstmt => hend hstmt
  | keyword word =>
    cases word with
    | switchJump => exact looks_advance.dropped.after fun _ _ => advances_readSwitch m
    | invoke kind =>
      refine looks_advance.dropped.after fun _ _ => ?_
      exact (looks_readInvoke m kind none).after fun i _ => hend (labelsIn_of_targets rfl)
    | ifJump =>
      refine looks_advance.dropped.after fun _ _ => ?_
      exact (looks_readBranch m).after fun stmt hstmt => hend hstmt
    | gotoJump =>
      refine looks_advance.dropped.after fun _ _ => ?_
      exact advances_readLabel.after fun target htarget => hend fun l hl =>
        List.mem_singleton.mp hl ▸ htarget
    | returnJump =>
      refine looks_advance.dropped.after fun _ _ => ?_
      exact (looks_readReturn m hfound).after fun stmt hstmt => hend hstmt
    | nopMark =>
      exact looks_advance.dropped.after fun _ _ => hend (labelsIn_of_targets rfl)
    | _ => exact blind_fail_bind hfound
  | _ => exact blind_fail_bind hfound

/-! ## 5. Items -/

/-- The labels of the draft, and those its statements jump to, are tokens of the text. -/
structure DraftIn (σ : Stretch) (d : Draft) : Prop where
  labels : ∀ l ∈ d.labels, l.1 ∈ σ.text
  stmts : ∀ i ∈ d.stmts, LabelsIn σ i.2

theorem draftIn_empty : DraftIn σ {} := ⟨nofun, nofun⟩

theorem DraftIn.addLabel {d : Draft} (h : DraftIn σ d) {label : LineToken}
    (hlabel : label ∈ σ.text) (i : Nat) :
    DraftIn σ { d with labels := d.labels ++ [(label, i)] } where
  labels l hl := (List.mem_append.mp hl).elim (h.labels l) fun hl =>
    List.mem_singleton.mp hl ▸ hlabel
  stmts := h.stmts

theorem DraftIn.addStmt {d : Draft} (h : DraftIn σ d) {stmt : StmtOf LineToken}
    (hstmt : LabelsIn σ stmt) (line : Nat) :
    DraftIn σ { d with stmts := d.stmts.push (line, stmt) } where
  labels := h.labels
  stmts i hi := (Array.mem_push.mp hi).elim (h.stmts i) fun hi => hi ▸ hstmt

theorem advances_readDeclared (m : MethodId) (ty : Ty) :
    Advances σ (readDeclared m ty) fun _ => True := by
  refine advances_identifier.afterFirst (fun _ => Nat.le_refl 1) fun (found, name) hfound => ?_
  exact blind_program fun p => blind_guard hfound (looks_update _).dropped

theorem advances_readVarDecl (m : MethodId) : Advances σ (readVarDecl m) fun _ => True := by
  refine advances_readType.afterFirst (fun _ => Nat.le_refl 1) fun ty _ => ?_
  refine (looks_commas (advances_readDeclared m ty)).dropped.after fun _ _ => ?_
  exact (advances_expect (by nofun)).dropped.looks

/-- Where a label is declared, its token is passed. -/
theorem blind_atLabel {f f' : Bool → Reader α} {g g' : LineToken → Reader α} (hk : ∀ a, k a ≤ 1)
    (hf : f true = advance >>= g) (hf' : f' true = advance >>= g')
    (htrue : ∀ t ∈ σ.text, Blind σ (fun _ => 0) (g t) (g' t) post)
    (hfalse : Blind σ k (f false) (f' false) post) :
    Blind σ k (atLabel >>= f) (atLabel >>= f') post := by
  refine blind_next fun t rest p said hs ht => ?_
  have hother := hfalse ⟨t :: rest, p, said⟩ hs
  obtain ⟨token, line⟩ := t
  cases token with
  | ident name =>
    obtain ⟨second, rest, rfl, -⟩ := (hs.tail (by nofun)).cons
    change SameEnd _ _ _ _ _
      (f (decide (second.token = .mark .colon)) ⟨⟨.ident name, line⟩ :: second :: rest, p, said⟩)
      (f' (decide (second.token = .mark .colon))
        ⟨⟨.ident name, line⟩ :: (second :: rest ++ σ.behind), p, σ.said⟩)
    by_cases hcolon : second.token = .mark .colon
    · rw [decide_eq_true hcolon, hf, hf']
      refine (sameEnd_advance hs (by nofun) p said).bind fun u u' s hu hrest hlength => ?_
      obtain ⟨rfl, rfl⟩ := hu
      exact (htrue _ ht s hrest).mono (fun a _ h => by have := hk a; omega) fun _ _ h => h
    · rw [decide_eq_false hcolon]
      exact hother
  | _ => exact hother

theorem advances_readItem (m : MethodId) {d : Draft} (hd : DraftIn σ d) :
    Advances σ (readItem m d) (DraftIn σ) := by
  refine (looks_accept _).after fun isDecl _ => ?_
  cases isDecl with
  | true =>
    exact (advances_readVarDecl m).afterFirst (fun _ => Nat.le_refl 1) fun _ _ => looks_pure hd
  | false =>
    refine blind_atLabel (fun _ => Nat.le_refl 1) rfl rfl (fun label hlabel => ?_) ?_
    · refine looks_advance.dropped.after fun _ _ => ?_
      exact blind_guard hlabel (looks_pure (hd.addLabel hlabel _))
    · refine looks_peek.after fun next _ => ?_
      exact (advances_readStmt m).afterFirst (fun _ => Nat.le_refl 1) fun stmt hstmt =>
        looks_pure (hd.addStmt hstmt _)

/-- A turn of the loop over the items of a body. -/
def itemTurn (m : MethodId) (d : Draft) : Reader (Draft × Bool) := do
  if ← check (.mark .rightBrace) then
    return (d, false)
  if ← atEnd then
    fail (← peek) (.expected (.mark .rightBrace))
  let d ← readItem m d
  return (d, true)

theorem unrolls_readItems (m : MethodId) : Unrolls (readItems m) (itemTurn m) := by
  intro n d
  simp only [readItems, itemTurn, bind_assoc]
  refine bind_congr fun closed => ?_
  cases closed with
  | true => simp
  | false =>
    simp only [Bool.false_eq_true, if_false, bind_assoc]
    refine bind_congr fun ended => ?_
    cases ended with
    | true => simp
    | false => simp

/-- The same draft, with labels of the text. -/
abbrev SameDraft (σ : Stretch) (d d' : Draft) : Prop := d' = d ∧ DraftIn σ d

theorem blindTurn_item (m : MethodId) :
    BlindTurn σ (itemTurn m) (itemTurn m) (SameDraft σ) := by
  rintro d _ ⟨rfl, hd⟩
  refine (looks_check _).after fun closed _ => ?_
  cases closed with
  | true => exact blind_pure rfl ⟨⟨rfl, hd⟩, rfl⟩
  | false =>
    refine looks_atEnd.after fun ended _ => ?_
    cases ended with
    | true => exact looks_peek.after fun found hfound => blind_fail_bind hfound
    | false =>
      exact (advances_readItem m hd).afterFirst (fun x => Bool.toNat_le x.2) fun d hd =>
        blind_pure rfl ⟨⟨rfl, hd⟩, rfl⟩

/-! ## 6. Bodies -/

theorem error_of_resolveCases {ε τ τ' : Type} {f : τ → Except ε τ'} {cases : List (Int32 × τ)}
    {e : ε} (h : StmtOf.resolveCases f cases = .error e) : ∃ arm ∈ cases, f arm.2 = .error e := by
  induction cases with
  | nil => cases h
  | cons arm rest ih =>
    cases harm : f arm.2 with
    | error e' =>
      rw [StmtOf.resolveCases, harm] at h
      cases h
      exact ⟨arm, List.mem_cons_self, harm⟩
    | ok target =>
      rw [StmtOf.resolveCases, harm] at h
      cases hrest : StmtOf.resolveCases f rest with
      | error e' =>
        rw [hrest] at h
        cases h
        obtain ⟨other, hmem, hother⟩ := ih hrest
        exact ⟨other, List.mem_cons_of_mem arm hmem, hother⟩
      | ok targets =>
        rw [hrest] at h
        cases h

/-- A statement that cannot be resolved has a target that cannot. -/
theorem error_of_resolve {ε τ τ' : Type} {f : τ → Except ε τ'} {stmt : StmtOf τ} {e : ε}
    (h : stmt.resolve f = .error e) : ∃ t ∈ stmt.targets, f t = .error e := by
  cases stmt with
  | branch left op right target =>
    cases htarget : f target with
    | error e' =>
      rw [StmtOf.resolve, htarget] at h
      cases h
      exact ⟨target, List.mem_singleton_self target, htarget⟩
    | ok t =>
      rw [StmtOf.resolve, htarget] at h
      cases h
  | jump target =>
    cases htarget : f target with
    | error e' =>
      rw [StmtOf.resolve, htarget] at h
      cases h
      exact ⟨target, List.mem_singleton_self target, htarget⟩
    | ok t =>
      rw [StmtOf.resolve, htarget] at h
      cases h
  | switch on arms otherwise =>
    cases harms : StmtOf.resolveCases f arms with
    | error e' =>
      rw [StmtOf.resolve, harms] at h
      cases h
      obtain ⟨arm, hmem, harm⟩ := error_of_resolveCases harms
      exact ⟨arm.2, List.mem_append_left _ (List.mem_map_of_mem hmem), harm⟩
    | ok targets =>
      rw [StmtOf.resolve, harms] at h
      cases hotherwise : f otherwise with
      | error e' =>
        rw [hotherwise] at h
        cases h
        exact ⟨otherwise, List.mem_append_right _ (List.mem_singleton_self _), hotherwise⟩
      | ok t =>
        rw [hotherwise] at h
        cases h
  | _ => cases h

/-- The label at which the jumps of statements turn out to be wrong is one of theirs. -/
theorem label_of_resolveStmts {d : Draft} {stmts : List (Nat × StmtOf LineToken)}
    {label : LineToken} (hstmts : ∀ i ∈ stmts, LabelsIn σ i.2)
    (h : d.resolveStmts stmts = .error label) : label ∈ σ.text := by
  induction stmts with
  | nil => cases h
  | cons i rest ih =>
    obtain ⟨line, stmt⟩ := i
    cases hstmt : stmt.resolve d.resolveLabel with
    | error wrong =>
      rw [Draft.resolveStmts, hstmt] at h
      cases h
      obtain ⟨target, hmem, htarget⟩ := error_of_resolve hstmt
      have hsame : label = target := by
        unfold Draft.resolveLabel at htarget
        split at htarget
        · cases htarget
        · cases htarget
          rfl
      rw [hsame]
      exact hstmts _ List.mem_cons_self target hmem
    | ok resolved =>
      rw [Draft.resolveStmts, hstmt] at h
      cases hrest : d.resolveStmts rest with
      | error wrong =>
        rw [hrest] at h
        cases h
        exact ih (fun i hi => hstmts i (List.mem_cons_of_mem _ hi)) hrest
      | ok instrs =>
        rw [hrest] at h
        cases h

/-- A draft is finished, or one of its labels is wrong. -/
theorem looks_finish {d : Draft} (hd : DraftIn σ d) : Looks σ d.finish fun _ => True := by
  unfold Draft.finish
  cases hlast : d.labels.find? fun l => l.2 = d.stmts.size with
  | some l => exact blind_fail (hd.labels l (List.mem_of_find?_eq_some hlast)) _
  | none =>
    dsimp only
    cases hresolve : d.resolveStmts d.stmts.toList with
    | ok instrs => exact looks_pure trivial
    | error label =>
      have hlabel := label_of_resolveStmts (fun i hi => hd.stmts i (Array.mem_toList_iff.mp hi))
        hresolve
      exact blind_fail hlabel _

theorem looks_readInstrs (m : MethodId) : Looks σ (readInstrs m) fun _ => True := by
  refine (advances_expect (by nofun)).dropped.after fun _ _ => ?_
  refine blind_remaining (fun n n' _ hs hn hn' => blind_unrolled (unrolls_readItems m)
    (unrolls_readItems m) (blindTurn_item m) n n' ⟨rfl, draftIn_empty⟩ hs hn hn')
    fun d d' h => ?_
  obtain ⟨rfl, hd⟩ := h
  exact (advances_expect (by nofun)).dropped.after fun _ _ => looks_finish hd

theorem looks_readBody (m : MethodId) : Looks σ (readBody m) fun _ => True :=
  (looks_readInstrs m).after fun _ _ => looks_update _

/-- Bodies are read at the places in the text where they were left. -/
theorem sameEnd_readBodies {bodies bodies' : List PendingBody} (h : SameLeft σ bodies bodies')
    {s : ReaderState} (hs : RestOf σ.text s.tokens) :
    SameEnd σ s.diagnostics (fun _ => 0) σ.text.length (fun _ _ => True) (readBodies bodies s)
      (readBodies bodies' (s.followed σ)) := by
  obtain ⟨rfl, hrest⟩ := h
  induction bodies generalizing s with
  | nil => exact .ok hs rfl hs.1.length_le trivial
  | cons body bodies ih =>
    have hbody := hrest body List.mem_cons_self
    let start : ReaderState := { s with tokens := body.tokens }
    change SameEnd _ _ _ _ _
      ((readBody body.method >>= fun _ => readBodies bodies) start)
      ((readBody body.method >>= fun _ => readBodies (bodies.map (·.followed σ.behind)))
        (start.followed σ))
    refine (looks_readBody body.method start hbody).bind fun _ _ t _ ht _ => ?_
    exact ih ht fun b hb => hrest b (List.mem_cons_of_mem body hb)

/-! ## 7. Programs -/

theorem sameEnd_readProgram {s : ReaderState} (hs : RestOf σ.text s.tokens) :
    SameEnd σ s.diagnostics (fun _ => 0) σ.text.length (fun _ _ => True) (readProgram s)
      (readProgram (s.followed σ)) := by
  have hmore : s.tokens.length ≤ (s.followed σ).tokens.length := by
    simp [ReaderState.followed]
  have hclasses := blind_lists lists_readClasses blindTurn_class .nil _ _ hs (Nat.le_refl _) hmore
  exact hclasses.bind fun bodies bodies' t hbodies ht _ => sameEnd_readBodies hbodies ht

end Reader

/-- An error is reported behind whatever was reported before. -/
theorem ReadError.report_eq_pass (e : ReadError) (d : Diagnostics) :
    e.report d = d.pass (e.report {}) := d.report_eq_pass _ _ _

/-- **A text is a program and nothing is reported, or it is none and one error is reported**, at one
    of its tokens. It is read the same whatever stands behind it and whatever was reported
    before. -/
theorem parsing_cases {tokens : List LineToken} (h : Reader.Ended tokens) :
    (∃ p, ∀ d behind, Diagnostics.parsing d (tokens ++ behind) = (some p, d)) ∨
      ∃ e : ReadError, e.found ∈ tokens ∧
        ∀ d behind, Diagnostics.parsing d (tokens ++ behind) = (none, e.report d) := by
  -- every run is compared with the one behind which nothing stands and before which nothing is said
  have hend : ∀ d behind, Reader.SameEnd ⟨tokens, behind, d⟩ {} (fun _ => 0) tokens.length
      (fun _ _ => True) (Reader.readProgram ⟨tokens, {}, {}⟩)
      (Reader.readProgram ⟨tokens ++ behind, {}, d⟩) := fun d behind =>
    Reader.sameEnd_readProgram (s := ⟨tokens, {}, {}⟩) (σ := ⟨tokens, behind, d⟩) (.self h)
  unfold Diagnostics.parsing
  cases hfirst : Reader.readProgram ⟨tokens, {}, {}⟩ with
  | ok x =>
    rw [hfirst] at hend
    refine .inl ⟨x.2.program, fun d behind => ?_⟩
    obtain ⟨a, hrun⟩ := (hend d behind).of_ok
    rw [hrun]
    rfl
  | error said =>
    rw [hfirst] at hend
    obtain ⟨e, hfound, hsaid, -⟩ := (hend {} []).of_error
    refine .inr ⟨e, hfound, fun d behind => ?_⟩
    obtain ⟨e', -, hsaid', hrun⟩ := (hend d behind).of_error
    have hsame : e'.report d = e.report d := by
      rw [e'.report_eq_pass, ← hsaid', hsaid, ← e.report_eq_pass]
    rw [hrun]
    exact congrArg (none, ·) hsame

end ObjectFlow
