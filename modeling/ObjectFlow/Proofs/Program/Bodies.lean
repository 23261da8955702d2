/-
  File:      ObjectFlow/Proofs/Program/Bodies.lean
  Subject:   WHEN THE BODIES HAVE BEEN READ, EVERY STATEMENT FITS THE PROGRAM.

  * `Program.Filled`: declarations fit together, and every statement of every body is known;
  * one lemma for each reader of bodies: what it reads is known in the program it leaves behind;
  * `filled_of_ofSource`: the property holds of every accepted text.
-/
import ObjectFlow.Proofs.Program.Statements

namespace ObjectFlow

namespace Program

/-! ## 1. Programs with bodies -/

/-- **What holds of a program while its bodies are read.** -/
structure Filled (p : Program) : Prop where
  coherent : p.Coherent
  complete : p.Complete
  known : ∀ m < p.methods.size, ∀ i ∈ (p.methodAt m).body, i.stmt.Known p m

variable {p q : Program}

/-- Without bodies there is no statement that could be wrong. -/
theorem Declared.filled (h : p.Declared) : p.Filled where
  coherent := h.coherent
  complete := h.complete
  known m _ i hi := by
    rw [h.bodyless m] at hi
    exact absurd hi (Array.not_mem_empty i)

theorem Complete.fills (h : p.Complete) (hf : p.Fills q) : q.Complete := by
  intro m hm
  have hparams : (q.methodAt m).params = (p.methodAt m).params :=
    (congrArg MethodDecl.params (hf.header m) :)
  have htypes : (q.methodAt m).paramTypes = (p.methodAt m).paramTypes :=
    (congrArg MethodDecl.paramTypes (hf.header m) :)
  rw [hparams, htypes]
  exact h m (hf.sameMethods ▸ hm)

/-- Old bodies stay known; a body that is new has to be. -/
theorem Filled.fills (h : p.Filled) (hq : q.Coherent) (hf : p.FillsBodies q)
    (hbody : ∀ m < p.methods.size, (q.methodAt m).body = (p.methodAt m).body ∨
      ∀ i ∈ (q.methodAt m).body, i.stmt.Known p m) : q.Filled where
  coherent := hq
  complete := h.complete.fills hf.toFills
  known m hm i hi := by
    have hm : m < p.methods.size := hf.sameMethods ▸ hm
    rcases hbody m hm with hsame | hnew
    · rw [hsame] at hi
      exact (h.known m hm i hi).fills h.coherent hf hm
    · exact (hnew i hi).fills h.coherent hf hm

theorem fillsBodies_of_sameVars (hf : p.Fills q) (hmethods : q.methods = p.methods)
    (hvars : q.vars = p.vars) : p.FillsBodies q where
  toFills := hf
  varByName {m name v} _ h := by
    have hname : ∀ u, q.varName u = p.varName u := fun u => by
      rw [varName, varName, varAt, varAt, hvars]
    have hat : q.methodAt m = p.methodAt m := by rw [methodAt, methodAt, hmethods]
    rw [← h]
    simp only [varByName?, hname, hat]

theorem Filled.internClass (h : p.Filled) (name : String) :
    (p.internClass name).2.Filled ∧ p.FillsBodies (p.internClass name).2 := by
  have hsame := p.internClass_same name
  have hf := fillsBodies_of_sameVars (p.internClass_spec name).1 hsame.1 hsame.2
  refine ⟨h.fills (h.coherent.internClass name) hf fun m _ => .inl ?_, hf⟩
  rw [methodAt, hsame.1]
  rfl

theorem Filled.internSubsig (h : p.Filled) (text : String) :
    (p.internSubsig text).2.Filled ∧ p.FillsBodies (p.internSubsig text).2 := by
  have hsame := p.internSubsig_same text
  have hf := fillsBodies_of_sameVars (p.internSubsig_spec text).1 hsame.1 hsame.2
  refine ⟨h.fills (h.coherent.internSubsig text) hf fun m _ => .inl ?_, hf⟩
  rw [methodAt, hsame.1]
  rfl

/-- A variable with a name that is new to the method hides none. -/
theorem Filled.addVar (h : p.Filled) {m : MethodId} (hm : m < p.methods.size) {name : String}
    (hname : IsName name) {ty : Ty} (hty : ty.Known p) (hfresh : p.varByName? m name = none) :
    (p.addVar m name ty).2.Filled ∧ p.FillsBodies (p.addVar m name ty).2 := by
  have hfills := fills_addVar hm name ty
  have hat := methodAt_addVar hm name ty
  have hnew : (p.addVar m name ty).2.varName p.vars.size = name := by
    simp [Program.addVar, varName, varAt, modifyMethod]
  have hf : p.FillsBodies (p.addVar m name ty).2 := by
    refine ⟨hfills, fun {n other v} hn hv => ?_⟩
    -- in the variables there were, a name stands for the same one
    have hold : ((p.methodAt n).vars.reverse.find? fun v => (p.addVar m name ty).2.varName v = other)
        = some v := by
      rw [← hv, varByName?]
      refine List.find?_congr fun u hu => ?_
      rw [hfills.varName_eq (h.coherent.var_lt hn (List.mem_reverse.mp hu))]
    rw [varByName?, hat]
    split
    · rename_i hnm
      subst hnm
      have hne : ¬ name = other := by
        rintro rfl
        rw [hfresh] at hv
        cases hv
      rw [List.reverse_append, List.reverse_singleton, List.singleton_append, List.find?_cons_of_neg,
        hold]
      simpa [hnew] using hne
    · exact hold
  exact ⟨h.fills (h.coherent.addVar hm hname hty) hf fun n _ =>
    .inl (kept_modifyMethod { p with vars := _ } hm MethodDecl.body rfl n), hf⟩

theorem Filled.setBody (h : p.Filled) {m : MethodId} (hm : m < p.methods.size) (body : Array Instr)
    (hbody : ∀ i ∈ body, i.stmt.Known p m) :
    (p.modifyMethod m fun d => { d with body := body }).Filled ∧
      p.FillsBodies (p.modifyMethod m fun d => { d with body := body }) := by
  have hat := fun n => methodAt_modifyMethod p m n (fun d => { d with body := body }) hm
  have hvars := kept_modifyMethod p hm MethodDecl.vars (f := fun d => { d with body := body }) rfl
  have hf : p.FillsBodies (p.modifyMethod m fun d => { d with body := body }) := by
    refine ⟨fills_modifyMethod hm rfl (List.prefix_refl _), fun _ hv => ?_⟩
    rw [varByName?, hvars]
    exact hv
  refine ⟨h.fills (h.coherent.setBody hm body) hf fun n _ => ?_, hf⟩
  rw [hat]
  split
  · rename_i hnm
    exact .inr (hnm ▸ hbody)
  · exact .inl rfl

end Program

/-- Bodies are read. -/
def Phase.bodies : Phase where
  Holds := Program.Filled
  To := Program.FillsBodies
  refl := Program.FillsBodies.refl
  trans := Program.FillsBodies.trans

theorem mentions_bodies : Phase.bodies.Mentions where
  internClass hp name := hp.internClass name
  internSubsig hp text := hp.internSubsig text

namespace Reader

open Program

variable {p : Program} {m : MethodId}

/-! ## 2. Variables, fields and methods -/

theorem peeks_lookupVar (found : LineToken) (name : String) :
    Peeks p (lookupVar m found name) (p.Named m) := by
  refine peeks_program.after fun q hq => ?_
  subst hq
  split
  · rename_i v hv
    exact reads_pure (named_of_varByName? hv)
  · exact reads_fail

theorem peeks_readVar : Peeks p (readVar m) (p.Named m) :=
  peeks_identifier.after fun (found, name) _ => peeks_lookupVar found name

theorem peeks_readVars : Peeks p (commas (readVar m)) fun vs => ∀ v ∈ vs, p.Named m v :=
  reads_commas (fun _ _ _ _ h => h) fun q hq => by
    have hq : q = p := hq
    subst hq
    exact peeks_readVar

theorem peeks_readLabel : Peeks p readLabel fun _ => True := by
  refine peeks_peek.after fun found _ => ?_
  split
  · exact peeks_advance.mono fun _ _ _ _ => trivial
  · exact reads_fail

theorem peeks_fieldBase (found : LineToken) (name : String) :
    Peeks p (fieldBase m found name) fun x =>
      ∀ b ∈ x.1, p.Named m b ∧ (p.varTy b).class? = some x.2 := by
  refine peeks_program.after fun q hq => ?_
  subst hq
  split
  · rename_i v hv
    split
    · rename_i c hc
      refine reads_pure fun b hb => ?_
      cases hb
      exact ⟨named_of_varByName? hv, hc⟩
    · exact reads_fail
  · split
    · exact reads_pure fun b hb => by cases hb
    · exact reads_fail

theorem peeks_accessedField (hp : p.Coherent) (found : LineToken) (name : String)
    {base : Option VarId} {c : ClassId}
    (hbase : ∀ b ∈ base, p.Named m b ∧ (p.varTy b).class? = some c) :
    Peeks p (accessedField found name base c) fun x => p.FieldAccess m x.1 x.2 := by
  refine peeks_program.after fun q hq => ?_
  subst hq
  split
  · exact reads_fail
  · rename_i f hf
    obtain ⟨hlt, hname⟩ := hp.of_resolveField? hf
    refine reads_guard fun hkind => reads_pure ⟨hlt, by simpa using hkind, fun b hb => ?_⟩
    obtain ⟨hnamed, hclass⟩ := hbase b hb
    refine ⟨hnamed, c, hclass, ?_⟩
    rw [hname]
    exact hf

theorem peeks_readFieldAccess (hp : p.Coherent) (found : LineToken) (name : String) :
    Peeks p (readFieldAccess m found name) fun x => p.FieldAccess m x.1 x.2 := by
  refine peeks_identifier.after fun x _ => ?_
  exact (peeks_fieldBase found name).after fun y hbase => peeks_accessedField hp x.1 x.2 hbase

theorem reads_readMethodRef :
    Reads .bodies p readMethodRef fun q x => q.RefKnown x.1 x.2 := by
  refine peeks_advance.after fun found hfound => ?_
  split
  · rename_i text htext
    rw [htext] at hfound
    split
    · exact reads_fail
    · rename_i owner subsig hcut
      dsimp only
      split
      · exact reads_fail
      · rename_i arity harity
        refine (reads_internClass mentions_bodies owner).bind fun q c _ _ hc => ?_
        refine (reads_internSubsig mentions_bodies _).bind fun r s _ _ ⟨hf, hs, hsubsig⟩ => ?_
        have hname : (r.classAt c).name = owner := by rw [hf.className hc.1, hc.2]
        refine reads_pure ⟨Nat.lt_of_lt_of_le hc.1 hf.classes, hs, ?_, text.toList, subsig, hfound,
          ?_, hsubsig⟩
        · rw [hsubsig]
          exact harity
        · rw [hname]
          exact hcut
  · exact reads_fail

/-- A call is known: its receiver and its arguments are variables of the method, and it has as many
    arguments as its signature lists. -/
theorem peeks_readArguments (arity : Nat) : Peeks p (readArguments m arity) fun args =>
    args.length = arity ∧ ∀ v ∈ args, p.Named m v := by
  have hclose : ∀ {args : List VarId}, (∀ v ∈ args, p.Named m v) → Peeks p
      (do
        let close ← expect (.mark .rightParen)
        if args.length ≠ arity then
          fail close (.argumentCount arity args.length)
        return args) fun args => args.length = arity ∧ ∀ v ∈ args, p.Named m v := fun hargs =>
    (peeks_expect _).after fun close _ => reads_guard fun hlength =>
      reads_pure ⟨not_not.mp hlength, hargs⟩
  refine (peeks_expect _).dropped.after fun _ _ => ?_
  refine (peeks_check _).after fun empty _ => ?_
  dsimp only
  split
  · exact hclose fun v hv => absurd hv List.not_mem_nil
  · exact peeks_readVars.after fun args hargs => hclose hargs

theorem reads_readTarget (hm : m < p.methods.size) {kind : CallKind} {base result : Option VarId}
    (hbase : ∀ v ∈ base, p.Named m v) (hkind : base.isSome = kind.hasReceiver)
    (hresult : ∀ v ∈ result, p.Named m v) :
    Reads .bodies p (readTarget m kind base result) fun q i =>
      (StmtOf.call i : StmtOf LineToken).Known q m := by
  refine reads_of_holds fun hp => ?_
  refine reads_readMethodRef.bind fun q x _ hpq href => ?_
  have hkeep : ∀ {v}, p.Named m v → q.Named m v := fun hv => hv.fills hp.coherent hpq hm
  refine (peeks_readArguments x.2).after fun args hargs => reads_pure ?_
  refine ⟨fun v hv => ?_, hkind, hargs.1 ▸ href⟩
  rcases List.mem_append.mp hv with hv | hv
  · exact hkeep (hresult v (Option.mem_toList.mp hv))
  · rcases List.mem_append.mp hv with hv | hv
    · exact hkeep (hbase v (Option.mem_toList.mp hv))
    · exact hargs.2 v hv

theorem reads_readInvoke (hm : m < p.methods.size) (kind : CallKind) {result : Option VarId}
    (hresult : ∀ v ∈ result, p.Named m v) :
    Reads .bodies p (readInvoke m kind result) fun q i =>
      (StmtOf.call i : StmtOf LineToken).Known q m := by
  unfold readInvoke
  split
  · rename_i hkind
    refine peeks_readVar.after fun base hbase => ?_
    refine (peeks_expect _).dropped.after fun _ _ => ?_
    exact reads_readTarget hm (fun v hv => Option.some.inj hv ▸ hbase) hkind.symm hresult
  · rename_i hkind
    exact reads_readTarget hm (fun v hv => by cases hv) (by simpa using hkind) hresult

/-! ## 3. Assignments -/

theorem peeks_readNamedSource (hp : p.Coherent) {lhs : VarId} (hlhs : p.Named m lhs) :
    Peeks p (readNamedSource m lhs) fun stmt => stmt.Known p m := by
  refine peeks_identifier.after fun (found, name) _ => ?_
  refine (peeks_accept _).after fun isField _ => ?_
  split
  · refine (peeks_readFieldAccess hp found name).after fun (base, field) haccess => ?_
    refine reads_pure ⟨fun v hv => ?_, haccess⟩
    rcases List.mem_cons.mp hv with rfl | hv
    · exact hlhs
    · exact (haccess.found v (Option.mem_toList.mp hv)).1
  · refine (peeks_lookupVar found name).after fun operand hoperand => ?_
    refine (peeks_accept _).after fun isElement _ => ?_
    split
    · refine peeks_readVar.after fun index hindex => ?_
      refine (peeks_expect _).dropped.after fun _ _ => reads_pure ⟨?_, trivial⟩
      simp [StmtOf.defined?, StmtOf.uses, hlhs, hoperand, hindex]
    · refine peeks_peek.after fun next _ => ?_
      split
      · refine peeks_advance.dropped.after fun _ _ => ?_
        refine peeks_readVar.after fun right hright => reads_pure ⟨?_, trivial⟩
        simp [StmtOf.defined?, StmtOf.uses, hlhs, hoperand, hright]
      · refine reads_pure ⟨?_, trivial⟩
        simp [StmtOf.defined?, StmtOf.uses, hlhs, hoperand]

theorem reads_readSource (hm : m < p.methods.size) {lhs : VarId} (hlhs : p.Named m lhs) :
    Reads .bodies p (readSource m lhs) fun q stmt => stmt.Known q m := by
  refine reads_of_holds fun hp => ?_
  refine peeks_peek.after fun ⟨token, line⟩ _ => ?_
  cases token with
  | keyword word =>
    cases word with
    | newObject =>
      refine peeks_advance.dropped.after fun _ _ => ?_
      refine (reads_readType mentions_bodies).bind fun q ty _ hpq hty => ?_
      have hlhs := hlhs.fills hp.coherent hpq hm
      refine (peeks_accept _).after fun isArray _ => ?_
      split
      · refine peeks_readVar.after fun length hlength => ?_
        refine (peeks_expect _).dropped.after fun _ _ => reads_pure ⟨?_, hty, fun _ => ⟨ty, rfl⟩⟩
        simp [StmtOf.defined?, StmtOf.uses, hlhs, hlength]
      · refine reads_pure ⟨?_, hty, fun h => by cases h⟩
        simp [StmtOf.defined?, StmtOf.uses, hlhs]
    | invoke kind =>
      refine peeks_advance.dropped.after fun _ _ => ?_
      refine (reads_readInvoke hm kind fun v hv => ?_).bind fun q i _ _ hi => reads_pure hi
      cases hv
      exact hlhs
    | _ => exact reads_fail
  | integer value =>
    refine peeks_advance.dropped.after fun _ _ => reads_pure ⟨?_, trivial⟩
    simp [StmtOf.defined?, StmtOf.uses, hlhs]
  | mark mark =>
    cases mark with
    | leftParen =>
      refine peeks_advance.dropped.after fun _ _ => ?_
      refine (reads_readType mentions_bodies).bind fun q ty _ hpq hty => ?_
      have hlhs := hlhs.fills hp.coherent hpq hm
      refine (peeks_expect _).dropped.after fun _ _ => ?_
      refine peeks_readVar.after fun operand hoperand => reads_pure ⟨?_, hty⟩
      simp [StmtOf.defined?, StmtOf.uses, hlhs, hoperand]
    | _ => exact reads_fail
  | ident name =>
    exact (peeks_readNamedSource hp.coherent hlhs).inPhase.mono fun q stmt _ h => h.1 ▸ h.2
  | _ => exact reads_fail

theorem reads_readAssignment (hm : m < p.methods.size) :
    Reads .bodies p (readAssignment m) fun q stmt => stmt.Known q m := by
  refine reads_of_holds fun hp => ?_
  refine peeks_identifier.after fun (found, name) _ => ?_
  refine (peeks_accept _).after fun isField _ => ?_
  split
  · refine (peeks_readFieldAccess hp.coherent found name).after fun (base, field) haccess => ?_
    refine (peeks_expect _).dropped.after fun _ _ => ?_
    refine peeks_readVar.after fun rhs hrhs => reads_pure ⟨fun v hv => ?_, haccess⟩
    have hv : v ∈ base.toList ++ [rhs] := hv
    rcases List.mem_append.mp hv with hv | hv
    · exact (haccess.found v (Option.mem_toList.mp hv)).1
    · exact List.mem_singleton.mp hv ▸ hrhs
  · refine (peeks_lookupVar found name).after fun lhs hlhs => ?_
    refine (peeks_accept _).after fun isElement _ => ?_
    split
    · refine peeks_readVar.after fun index hindex => ?_
      refine (peeks_expect _).dropped.after fun _ _ => ?_
      refine (peeks_expect _).dropped.after fun _ _ => ?_
      refine peeks_readVar.after fun rhs hrhs => reads_pure ⟨?_, trivial⟩
      simp [StmtOf.defined?, StmtOf.uses, hlhs, hindex, hrhs]
    · exact (peeks_expect _).dropped.after fun _ _ => reads_readSource hm hlhs

/-! ## 4. Statements -/

theorem peeks_readCases (bound : Nat) : Peeks p (readCases bound) fun _ => True := by
  induction bound with
  | zero => exact reads_pure trivial
  | succ bound ih =>
    refine (peeks_accept _).after fun more _ => ?_
    split
    · refine peeks_advance.after fun found _ => ?_
      split
      · refine (peeks_expect _).dropped.after fun _ _ => ?_
        refine peeks_readLabel.after fun target _ => ?_
        refine (peeks_expect _).dropped.after fun _ _ => ?_
        exact ih.after fun rest _ => reads_pure trivial
      · exact reads_fail
    · exact reads_pure trivial

theorem peeks_readSwitch : Peeks p (readSwitch m) fun stmt => stmt.Known p m := by
  refine (peeks_expect _).dropped.after fun _ _ => ?_
  refine peeks_readVar.after fun on hon => ?_
  refine (peeks_expect _).dropped.after fun _ _ => ?_
  refine (peeks_expect _).dropped.after fun _ _ => ?_
  refine peeks_remaining.after fun bound _ => ?_
  refine (peeks_readCases bound).after fun cases _ => ?_
  refine (peeks_expectOr _ _).dropped.after fun _ _ => ?_
  refine (peeks_expect _).dropped.after fun _ _ => ?_
  refine peeks_readLabel.after fun otherwise _ => ?_
  refine (peeks_expect _).dropped.after fun _ _ => ?_
  refine (peeks_expect _).dropped.after fun _ _ => reads_pure ⟨?_, trivial⟩
  simp [StmtOf.defined?, StmtOf.uses, hon]

theorem peeks_readBranch : Peeks p (readBranch m) fun stmt => stmt.Known p m := by
  refine peeks_readVar.after fun left hleft => ?_
  refine peeks_advance.after fun found _ => ?_
  split
  · rename_i op _
    refine reads_guard fun hop => ?_
    refine peeks_readVar.after fun right hright => ?_
    refine (peeks_expect _).dropped.after fun _ _ => ?_
    refine peeks_readLabel.after fun target _ => reads_pure ⟨?_, ?_⟩
    · simp [StmtOf.defined?, StmtOf.uses, hleft, hright]
    · simpa [StmtOf.Fits] using hop
  · exact reads_fail

theorem peeks_readReturn (start : LineToken) :
    Peeks p (readReturn m start) fun stmt => stmt.Known p m := by
  refine (peeks_check _).after fun empty _ => ?_
  split
  · refine peeks_program.after fun q hq => ?_
    subst hq
    refine reads_guard fun hvoid => reads_pure ⟨?_, not_not.mp hvoid⟩
    simp [StmtOf.defined?, StmtOf.uses]
  · refine peeks_readVar.after fun v hv => reads_pure ⟨?_, trivial⟩
    simp [StmtOf.defined?, StmtOf.uses, hv]

/-- **A statement that has been read is known.** -/
theorem reads_readStmt (hm : m < p.methods.size) :
    Reads .bodies p (readStmt m) fun q stmt => stmt.Known q m := by
  -- the semicolon behind most statements
  have hend : ∀ {q : Program} {stmt : StmtOf LineToken}, stmt.Known q m →
      Reads .bodies q (discard (expect (.mark .semicolon)) >>= fun _ => pure stmt)
        fun q stmt => stmt.Known q m := fun hstmt =>
    (peeks_expect _).dropped.after fun _ _ => reads_pure hstmt
  refine peeks_peek.after fun ⟨token, line⟩ _ => ?_
  cases token with
  | ident name => exact (reads_readAssignment hm).bind fun q stmt _ _ hstmt => hend hstmt
  | keyword word =>
    cases word with
    | switchJump =>
      refine peeks_advance.dropped.after fun _ _ => ?_
      exact peeks_readSwitch.inPhase.mono fun q stmt _ h => h.1 ▸ h.2
    | invoke kind =>
      refine peeks_advance.dropped.after fun _ _ => ?_
      refine (reads_readInvoke hm kind fun v hv => ?_).bind fun q i _ _ hi => hend hi
      cases hv
    | ifJump =>
      exact peeks_advance.dropped.after fun _ _ => peeks_readBranch.after fun stmt h => hend h
    | gotoJump =>
      refine peeks_advance.dropped.after fun _ _ => peeks_readLabel.after fun target _ => ?_
      exact hend ⟨by simp [StmtOf.defined?, StmtOf.uses], trivial⟩
    | returnJump =>
      exact peeks_advance.dropped.after fun _ _ => (peeks_readReturn _).after fun stmt h => hend h
    | nopMark =>
      refine peeks_advance.dropped.after fun _ _ => ?_
      exact hend ⟨by simp [StmtOf.defined?, StmtOf.uses], trivial⟩
    | _ => exact reads_fail_bind
  | _ => exact reads_fail_bind

/-! ## 5. Bodies -/

/-- The statements of a draft are known. -/
def Draft.Known (p : Program) (m : MethodId) (d : Draft) : Prop :=
  ∀ x ∈ d.stmts, x.2.Known p m

theorem Draft.Known.fills {q : Program} {d : Draft} (h : d.Known p m) (hp : p.Coherent)
    (hf : p.FillsBodies q) (hm : m < p.methods.size) : d.Known q m :=
  fun x hx => (h x hx).fills hp hf hm

theorem Draft.Known.push {d : Draft} (h : d.Known p m) {stmt : StmtOf LineToken}
    (hstmt : stmt.Known p m) (line : Nat) :
    Draft.Known p m { d with stmts := d.stmts.push (line, stmt) } := by
  intro x hx
  rcases Array.mem_push.mp hx with hx | rfl
  · exact h x hx
  · exact hstmt

theorem reads_readDeclared (hm : m < p.methods.size) {ty : Ty} (hty : ty.Known p) :
    Reads .bodies p (readDeclared m ty) fun _ _ => True := by
  refine peeks_identifier.after fun (found, name) hname => ?_
  refine peeks_program.after fun q hq => ?_
  subst hq
  refine reads_guard fun hfresh => ?_
  have hadd : Reads .bodies p (update (·.addVar m name ty)) fun _ _ => True := by
    refine reads_update fun hp => ?_
    have h := hp.addVar hm hname hty (by simpa using hfresh)
    exact ⟨h.1, h.2, trivial⟩
  exact hadd.dropped.mono fun _ _ _ _ => trivial

theorem reads_readVarDecl (hm : m < p.methods.size) :
    Reads .bodies p (readVarDecl m) fun _ _ => True := by
  refine (reads_readType mentions_bodies).bind fun q ty _ hpq hty => ?_
  have hnames : Reads .bodies q (commas (readDeclared m ty)) fun _ names => ∀ a ∈ names, True := by
    refine reads_commas (fun _ _ _ _ h => h) fun r hqr => ?_
    exact reads_readDeclared (Nat.lt_of_lt_of_le hm (hpq.trans hqr).methods) (hty.grows hqr.toGrows)
  refine hnames.dropped.bind fun r _ _ _ _ => ?_
  exact (peeks_expect _).dropped.inPhase.mono fun _ _ _ _ => trivial

theorem peeks_atLabel : Peeks p atLabel fun _ => True := by
  refine peeks_peek.after fun next _ => ?_
  split
  · exact peeks_checkSecond _
  · exact reads_pure trivial

theorem reads_readItem (hm : m < p.methods.size) {d : Draft} (hd : d.Known p m) :
    Reads .bodies p (readItem m d) fun q d => d.Known q m := by
  refine reads_of_holds fun hp => ?_
  refine (peeks_accept _).after fun isDecl _ => ?_
  split
  · refine (reads_readVarDecl hm).bind fun q _ _ hpq _ => ?_
    exact reads_pure (hd.fills hp.coherent hpq hm)
  · refine peeks_atLabel.after fun isLabel _ => ?_
    split
    · refine peeks_advance.after fun label _ => ?_
      exact peeks_advance.dropped.after fun _ _ => reads_guard fun _ => reads_pure hd
    · refine peeks_peek.after fun next _ => ?_
      refine (reads_readStmt hm).bind fun q stmt _ hpq hstmt => ?_
      exact reads_pure ((hd.fills hp.coherent hpq hm).push hstmt _)

theorem reads_readItems (hm : m < p.methods.size) (bound : Nat) {d : Draft} (hd : d.Known p m) :
    Reads .bodies p (readItems m bound d) fun q d => d.Known q m := by
  induction bound generalizing p d with
  | zero => exact reads_pure hd
  | succ bound ih =>
    refine (peeks_check _).after fun closed _ => ?_
    split
    · exact reads_pure hd
    · refine peeks_atEnd.after fun ended _ => ?_
      split
      · exact peeks_peek.after fun _ _ => reads_fail_bind
      · refine (reads_readItem hm hd).bind fun q d' _ hpq hd' => ?_
        exact ih (Nat.lt_of_lt_of_le hm hpq.methods) hd'

theorem Draft.Known.of_resolveStmts {d : Draft} {stmts : List (Nat × StmtOf LineToken)}
    {instrs : List Instr} (h : ∀ x ∈ stmts, x.2.Known p m)
    (hresolve : d.resolveStmts stmts = .ok instrs) : ∀ i ∈ instrs, i.stmt.Known p m := by
  induction stmts generalizing instrs with
  | nil =>
    cases hresolve
    exact fun i hi => absurd hi List.not_mem_nil
  | cons first stmts ih =>
    obtain ⟨stmt, hstmt, hresolve⟩ := bind_eq_ok hresolve
    obtain ⟨rest, hrest, hresolve⟩ := bind_eq_ok hresolve
    cases hresolve
    intro i hi
    rcases List.mem_cons.mp hi with rfl | hi
    · exact (h first List.mem_cons_self).resolve hstmt
    · exact ih (fun x hx => h x (List.mem_cons_of_mem first hx)) hrest i hi

/-- Resolving jumps leaves the statements of a draft known. -/
theorem peeks_finish {d : Draft} (h : d.Known p m) :
    Peeks p d.finish fun instrs => ∀ i ∈ instrs, i.stmt.Known p m := by
  intro tokens said instrs s _ ht hrun
  obtain ⟨-, hresolve, rfl⟩ := Draft.finish_eq_ok.mp hrun
  exact ⟨trivial, rfl, ht,
    Draft.Known.of_resolveStmts (fun x hx => h x (Array.mem_toList_iff.mp hx)) hresolve⟩

theorem reads_readInstrs (hm : m < p.methods.size) :
    Reads .bodies p (readInstrs m) fun q instrs => ∀ i ∈ instrs, i.stmt.Known q m := by
  refine (peeks_expect _).dropped.after fun _ _ => ?_
  refine peeks_remaining.after fun bound _ => ?_
  have hempty : Draft.Known p m {} := fun x hx => absurd hx (Array.not_mem_empty x)
  refine (reads_readItems hm bound hempty).bind fun q d _ _ hd => ?_
  refine (peeks_expect _).dropped.after fun _ _ => ?_
  exact (peeks_finish hd).inPhase.mono fun _ _ _ h => h.1 ▸ h.2

theorem reads_readBody (hm : m < p.methods.size) :
    Reads .bodies p (readBody m) fun _ _ => True := by
  refine (reads_readInstrs hm).bind fun q instrs _ hpq hinstrs => reads_update fun hq => ?_
  have h := hq.setBody (Nat.lt_of_lt_of_le hm hpq.methods) instrs.toArray fun i hi =>
    hinstrs i (List.mem_toArray.mp hi)
  exact ⟨h.1, h.2, trivial⟩

theorem reads_readBodies {bodies : List PendingBody} (h : ∀ b ∈ bodies, b.Ready p) :
    Reads .bodies p (readBodies bodies) fun _ _ => True := by
  induction bodies generalizing p with
  | nil => exact reads_pure trivial
  | cons body bodies ih =>
    have hbody := h body List.mem_cons_self
    have hset : Peeks p (modify fun s => { s with tokens := body.tokens }) fun _ => True := by
      intro tokens said a s _ _ hrun
      cases hrun
      exact ⟨trivial, rfl, hbody.2, trivial⟩
    refine hset.after fun _ _ => (reads_readBody hbody.1).bind fun q _ _ hpq _ => ?_
    exact ih fun b hb => (h b (List.mem_cons_of_mem body hb)).grows hpq.toGrows

end Reader

namespace Program

theorem filled_of_ofTokens {tokens : List LineToken} (htokens : Reader.Spelled tokens) {p : Program}
    (h : ofTokens tokens = .ok p) : p.Filled := by
  obtain ⟨s, hs, rfl⟩ := ofTokens_eq_ok.mp h
  obtain ⟨bound, s₁, hbound, hs⟩ := Reader.run_bind.mp hs
  obtain ⟨bodies, s₂, hclasses, hbodies⟩ := Reader.run_bind.mp hs
  cases hbound
  obtain ⟨hdeclared, -, ht, hready⟩ := Reader.reads_readClasses _ declared_empty htokens hclasses
  exact (Reader.reads_readBodies hready hdeclared.filled ht hbodies).1

/-- **Of every accepted text, all declarations fit together and all statements are known.** -/
theorem filled_of_ofSource {source : String} {p : Program} (h : ofSource source = .ok p) :
    p.Filled := by
  unfold ofSource at h
  split at h
  · cases h
  · rename_i tokens htokens
    split at h
    · cases h
    · rename_i hp
      cases h
      exact filled_of_ofTokens (spelled_of_lex htokens) hp

end Program

end ObjectFlow
