/-
  File:      ObjectFlow/Proofs/Dataflow/ConstantSoundness.lean
  Subject:   CONSTANT PROPAGATION IS SOUND FOR RUNS OF A BODY, where it calls unknown what
             integer-like variables take from variables of other types.

  Variables of other types have no bindings, so a fact says of them what it says of a variable
  without a value. A comparison of two of them is undefined for the analysis, while a run goes on
  with zero or one (`longs`). Where no such value is taken over, the facts before a statement cover
  the variables of every run that arrives there.

  * `Agrees`: a fact covers the values of the integer-like variables;
  * `Agrees.step`: a statement keeps this, from the fact before it to the fact after it;
  * `constants_cover_runs`: it holds wherever a run arrives.
-/
import ObjectFlow.Proofs.Dataflow.ConstantFlow
import ObjectFlow.Proofs.Execution.Body

namespace ObjectFlow

namespace Constants

open Body

/-! ## 1. Values of other variables -/

/-- Whether a statement gives an integer-like variable what it computes from a variable of another
    type. -/
def mixes (p : Program) : Stmt → Bool
  | .assign lhs (.var v) => p.holdsInt lhs && !p.holdsInt v
  | .assign lhs (.binary _ left right) =>
    p.holdsInt lhs && !(p.holdsInt left && p.holdsInt right)
  | _ => false

/-- Whatever an integer-like variable takes from variables of other types is unknown. -/
def MixesUnknown (p : Program) (r : MethodFacts ConstFact) : Prop :=
  ∀ i < r.flow.stmts.size, (r.flow.stmts[i]?).all (fun stmt =>
    !mixes p stmt || assigned ((r.in? i).getD .empty) stmt = .nac) = true

instance (p : Program) (r : MethodFacts ConstFact) : Decidable (MixesUnknown p r) :=
  inferInstanceAs (Decidable (∀ i < r.flow.stmts.size, _ = true))

/-! ## 2. Facts that cover values -/

/-- What may be known of a value. -/
def known : Value → ConstValue
  | .int n => .const n
  | .other _ => .nac

/-- The fact covers the values of the integer-like variables. -/
def Agrees (p : Program) (fact : ConstFact) (env : Env) : Prop :=
  ∀ v w, p.holdsInt v = true → env v = some w → known w ≤ fact.get v

section Statements

variable {p : Program} {fact : ConstFact} {env : Env} {stmt : Stmt}

theorem Agrees.mono {fact' : ConstFact} (h : Agrees p fact env) (hle : fact ≤ fact') :
    Agrees p fact' env :=
  fun v w hv hw => (h v w hv hw).trans (hle v)

/-- A value that is no integer makes the variable that holds it unknown. -/
theorem Agrees.eq_nac (h : Agrees p fact env) {v : VarId} {w : Value} (hv : p.holdsInt v = true)
    (hw : env v = some w) (hint : ¬ IsInt p env v) : fact.get v = .nac := by
  cases w with
  | int n => exact absurd ⟨hv, n, hw⟩ hint
  | other n => exact ConstValue.eq_nac_of_le (h v _ hv hw)

/-- An operand that is no integer makes what is known of the operands unknown. -/
theorem Agrees.eval_eq_nac (h : Agrees p fact env) {op : BinaryOp} {l r : VarId} {a b : Value}
    (hl : p.holdsInt l = true) (hr : p.holdsInt r = true) (ha : env l = some a)
    (hb : env r = some b) (hints : ¬ (IsInt p env l ∧ IsInt p env r))
    (hzero : ¬ (op.divides = true ∧ b = .int 0)) :
    op.eval (fact.get l) (fact.get r) = .nac := by
  by_cases hrint : IsInt p env r
  · refine BinaryOp.eval_eq_nac (.inl (h.eq_nac hl ha fun hlint => hints ⟨hlint, hrint⟩)) ?_
    rintro ⟨hop, hconst⟩
    -- only zero is covered by zero
    obtain ⟨n, hn⟩ := hrint.2
    have hle := h r _ hr hn
    rw [hconst, known, ConstValue.const_le_const] at hle
    rw [hb] at hn
    cases hn
    exact hzero ⟨hop, by rw [hle]⟩
  · have hnac := h.eq_nac hr hb hrint
    refine BinaryOp.eval_eq_nac (.inr hnac) fun hconst => ?_
    rw [hnac] at hconst
    cases hconst.2

/-- **Operators on integer-like variables are covered by their value on what is known.** -/
theorem Agrees.computes_le (h : Agrees p fact env) {op : BinaryOp} {l r : VarId} {w : Value}
    (hl : p.holdsInt l = true) (hr : p.holdsInt r = true) (hw : Computes p env op l r w) :
    known w ≤ op.eval (fact.get l) (fact.get r) := by
  cases hw with
  | ints _ _ ha hb hc =>
    rw [known, ← BinaryOp.eval_const hc]
    refine op.eval_le (h l _ hl ha) (h r _ hr hb) fun ⟨_, hnac, _⟩ => ?_
    cases hnac
  | comparison ha hb hints hcomparison _ =>
    rw [h.eval_eq_nac hl hr ha hb hints (by simp [BinaryOp.divides_eq_false hcomparison])]
    exact ConstValue.le_nac _
  | arithmetic ha hb hints _ hzero =>
    rw [h.eval_eq_nac hl hr ha hb hints hzero]
    exact ConstValue.le_nac _

/-- **What a statement gives an integer-like variable is covered by what the fact gives it.** -/
theorem Agrees.yields_le (h : Agrees p fact env) {x : VarId} {w : Value}
    (hmixes : mixes p stmt = true → assigned fact stmt = .nac) (hx : stmt.defined? = some x)
    (hint : p.holdsInt x = true) (hw : Yields p env stmt w) : known w ≤ assigned fact stmt := by
  by_cases hmix : mixes p stmt = true
  · rw [hmixes hmix]
    exact ConstValue.le_nac _
  · cases hw with
    | @copy lhs y w hy =>
      cases hx
      have hyint : p.holdsInt y = true := by simpa [mixes, hint] using hmix
      exact h y w hyint hy
    | int => exact le_refl _
    | @binary lhs op left right w hcomputes =>
      cases hx
      have hints : p.holdsInt left = true ∧ p.holdsInt right = true := by
        simpa [mixes, hint] using hmix
      exact h.computes_le hints.1 hints.2 hcomputes
    | _ => exact ConstValue.le_nac _

/-- An assignment keeps a fact covering the values. -/
theorem Agrees.assign (h : Agrees p fact env) {x : VarId} {w : Value}
    (hmixes : mixes p stmt = true → assigned fact stmt = .nac) (hx : stmt.defined? = some x)
    (hw : Yields p env stmt w) : Agrees p (transferStmt p stmt fact) (env.set x w) := by
  intro v u hv hu
  rw [get_transferStmt]
  by_cases hvx : v = x
  · subst hvx
    rw [if_pos ⟨hx, hv⟩]
    have huw : u = w := by simpa [Env.set, eq_comm] using hu
    rw [huw]
    exact h.yields_le hmixes hx hv hw
  · rw [if_neg fun hdefined => hvx (Option.some.inj (hdefined.1.symm.trans hx))]
    exact h v u hv (by simpa [Env.set, hvx] using hu)

/-- A statement that assigns nothing leaves the fact as it is. -/
theorem transferStmt_eq (hnone : stmt.defined? = none) (fact : ConstFact) :
    transferStmt p stmt fact = fact := by
  unfold transferStmt
  rw [hnone]

end Statements

/-! ## 3. Control -/

/-- Control goes along an edge. -/
theorem exists_edge_of_step {p : Program} {stmts : List Stmt} {s t : Body.State}
    (h : Step p stmts s t) :
    ∃ e ∈ bodyEdges stmts, e.source = s.index + 1 ∧ e.target = t.index + 1 := by
  have hmem : ∀ {i stmt e}, stmts[i]? = some stmt →
      e ∈ stmtEdges (stmts.length + 1) (i + 1) stmt → e ∈ bodyEdges stmts :=
    fun hi he => mem_bodyEdges.mpr (.inr ⟨_, _, hi, he⟩)
  cases h with
  | assign hi _ hx hw =>
    cases hw <;> exact ⟨⟨_, _, .fallThrough⟩, hmem hi List.mem_cons_self, rfl, rfl⟩
  | go hi _ _ hj =>
    cases hj with
    | jump => exact ⟨⟨_, _, .goto⟩, hmem hi List.mem_cons_self, rfl, rfl⟩
    | taken => exact ⟨⟨_, _, .ifTrue⟩, hmem hi List.mem_cons_self, rfl, rfl⟩
    | passed =>
      exact ⟨⟨_, _, .ifFalse⟩, hmem hi (List.mem_cons_of_mem _ List.mem_cons_self), rfl, rfl⟩
    | case _ hcase =>
      exact ⟨⟨_, _, .switchCase _⟩, hmem hi (List.mem_append_left _ (List.mem_map_of_mem hcase)),
        rfl, rfl⟩
    | otherwise =>
      exact ⟨⟨_, _, .switchDefault⟩, hmem hi (List.mem_append_right _ List.mem_cons_self), rfl, rfl⟩
    | _ => exact ⟨⟨_, _, .fallThrough⟩, hmem hi List.mem_cons_self, rfl, rfl⟩

/-! ## 4. Runs -/

section Runs

variable {p : Program} {m : MethodId} {order : VisitOrder} {allowance : Nat}
  {r : MethodFacts ConstFact}

theorem MixesUnknown.assigned_eq (h : MixesUnknown p r) (hflow : r.flow = p.flowOf m)
    (hdirection : r.facts.direction = .forward) {i : Nat} {stmt : Stmt}
    (hi : (p.methodAt m).stmts[i]? = some stmt) (hmixes : mixes p stmt = true) :
    assigned ((problem p (p.flowOf m)).inputAt r.facts (i + 1)) stmt = .nac := by
  have hstmts : r.flow.stmts[i]? = some stmt := by
    rw [hflow]
    simpa [Program.flowOf, MethodFlow.ofStmts] using hi
  have hall := h i (Array.getElem?_eq_some_iff.mp hstmts).1
  rw [hstmts, getD_in? p (p.flowOf m) hdirection] at hall
  simpa [hmixes] using hall

/-- Facts only grow along an edge. -/
theorem output_le_input (hp : p.JumpsInside) (hr : analyzeWithin p m order allowance = some r)
    {e : FlowEdge EdgeKind} (he : e ∈ bodyEdges (p.methodAt m).stmts) :
    (problem p (p.flowOf m)).outputAt r.facts e.source ≤
      (problem p (p.flowOf m)).inputAt r.facts e.target := by
  obtain ⟨-, hrun⟩ := of_analyzeWithin hr
  obtain ⟨-, hpos, hlt⟩ := ends_of_mem_bodyEdges (hp.targetsInside m) he
  have hsolves := DataflowProblem.solves_of_solveWithin (admissible hp m) hrun
  have hbinds := (closed_binds hp m).of_solveWithin (admissible hp m) hrun
  rw [hsolves.input e.target hlt (beq_eq_false_iff_ne.mpr (Nat.ne_of_gt hpos))]
  exact (regular p (p.flowOf m)).le_joined (hp.coherent m) hbinds hlt
    ((mem_inEdges_ofStmts hlt).mpr ⟨he, rfl⟩)

/-- The fact behind a statement is the transfer of the fact before it. -/
theorem output_eq (hp : p.JumpsInside) (hr : analyzeWithin p m order allowance = some r) {i : Nat}
    {stmt : Stmt} (hi : (p.methodAt m).stmts[i]? = some stmt) :
    (problem p (p.flowOf m)).outputAt r.facts (i + 1) =
      transferStmt p stmt ((problem p (p.flowOf m)).inputAt r.facts (i + 1)) := by
  obtain ⟨-, hrun⟩ := of_analyzeWithin hr
  have hsolves := DataflowProblem.solves_of_solveWithin (admissible hp m) hrun
  have hlt : i + 1 < (p.flowOf m).graph.nodeCount :=
    Nat.succ_lt_succ (Nat.lt_succ_of_lt (List.getElem?_eq_some_iff.mp hi).1)
  have hstmt : (p.flowOf m).stmtAt? (i + 1) = some stmt := (stmtAt?_ofStmts m i).trans hi
  rw [hsolves.output (i + 1) hlt rfl, transferAt_of_stmtAt? hstmt]

/-- Before the first statement the parameters are unknown. -/
theorem agrees_start {env : Env} (h : Starts p m env) :
    Agrees p (unknown p (p.methodAt m).params) env := by
  intro v w hv hw
  have hparam : v ∈ (p.methodAt m).params := by
    refine (h.others v (by simp [hw])).resolve_right fun ⟨_, href⟩ => ?_
    -- the receiver holds a reference
    unfold Program.holdsInt at hv
    cases hty : p.varTy v with
    | prim k =>
      rw [hty] at href
      cases href
    | object c =>
      rw [hty] at hv
      cases hv
    | array elem =>
      rw [hty] at hv
      cases hv
  rw [get_unknown, if_pos ⟨hparam, hv⟩]
  exact ConstValue.le_nac _

/-- **One statement keeps the variables covered**, from the fact before it to the fact behind it. -/
theorem Agrees.step (hp : p.JumpsInside) (hr : analyzeWithin p m order allowance = some r)
    (hmix : MixesUnknown p r) {s t : Body.State} (hstep : Step p (p.methodAt m).stmts s t)
    (h : Agrees p ((problem p (p.flowOf m)).inputAt r.facts (s.index + 1)) s.env) :
    Agrees p ((problem p (p.flowOf m)).outputAt r.facts (s.index + 1)) t.env := by
  obtain ⟨hflow, hrun⟩ := of_analyzeWithin hr
  have hdirection := (DataflowProblem.solves_of_solveWithin (admissible hp m) hrun).direction
  cases hstep with
  | assign hi _ hx hw =>
    rw [output_eq hp hr hi]
    exact h.assign (hmix.assigned_eq hflow hdirection hi) hx hw
  | go hi _ hnone _ =>
    rw [output_eq hp hr hi, transferStmt_eq hnone]
    exact h

/-- **Wherever a run arrives, the fact covers its variables.** -/
theorem agrees_of_reaches (hp : p.JumpsInside) (hr : analyzeWithin p m order allowance = some r)
    (hmix : MixesUnknown p r) {s : Body.State} (h : Reaches p m s) :
    Agrees p ((problem p (p.flowOf m)).inputAt r.facts (s.index + 1)) s.env := by
  induction h with
  | start hstart =>
    obtain ⟨-, hrun⟩ := of_analyzeWithin hr
    have hsolves := DataflowProblem.solves_of_solveWithin (admissible hp m) hrun
    have hentry := output_le_input hp hr (mem_bodyEdges.mpr (.inl rfl))
    rw [(hsolves.boundary 0 (Nat.succ_pos _) rfl).2] at hentry
    exact (agrees_start hstart).mono hentry
  | step _ hstep ih =>
    obtain ⟨e, he, hsource, htarget⟩ := exists_edge_of_step hstep
    have hedge := output_le_input hp hr he
    rw [hsource, htarget] at hedge
    exact (ih.step hp hr hmix hstep).mono hedge

end Runs

/-- **The reported facts cover every run.** Before a statement a variable of integer-like type has
    only values that the fact there allows, and so, where the fact reports a constant, only that
    one; provided that what such variables take from variables of other types is unknown. -/
theorem constants_cover_runs {source : String} {p : Program} (hp : Program.ofSource source = .ok p)
    {m : MethodId} {order : VisitOrder} {allowance : Nat} {r : MethodFacts ConstFact}
    (hr : analyzeWithin p m order allowance = some r) (hmix : MixesUnknown p r) {i : Nat}
    {env : Env} (hrun : Reaches p m ⟨i, env⟩) (hi : i < (p.methodAt m).stmts.length) :
    ∃ fact, r.in? i = some fact ∧ ∀ v, p.holdsInt v = true →
      (∀ c, env v = some (.int c) → .const c ≤ fact.get v) ∧
      ∀ c, fact.get v = .const c → ∀ w, env v = some w → w = .int c := by
  have hinside := Program.jumpsInside_of_ofSource hp
  have hagrees := agrees_of_reaches hinside hr hmix hrun
  obtain ⟨-, hsolve⟩ := of_analyzeWithin hr
  have hsolves := DataflowProblem.solves_of_solveWithin (admissible hinside m) hsolve
  have hlt : i + 1 < r.facts.inputs.size := by
    rw [hsolves.inputs]
    exact Nat.succ_lt_succ (Nat.lt_succ_of_lt hi)
  have hin : r.in? i = some ((problem p (p.flowOf m)).inputAt r.facts (i + 1)) := by
    unfold MethodFacts.in? Facts.in? DataflowProblem.inputAt
    rw [hsolves.direction, Array.getD_eq_getD_getElem?]
    show r.facts.inputs[i + 1]? = some (r.facts.inputs[i + 1]?.getD _)
    rw [Array.getElem?_eq_getElem hlt]
    rfl
  refine ⟨_, hin, fun v hv => ⟨fun c hc => hagrees v _ hv hc, fun c hc w hw => ?_⟩⟩
  have hle := hagrees v w hv hw
  rw [hc] at hle
  cases w with
  | int n => rw [ConstValue.const_le_const.mp hle]
  | other n => cases ConstValue.eq_nac_of_le hle

/-- An integer is compared with a long value, which the analysis calls unknown. -/
def mixed : String :=
  "class A \x7b
    static method void main(int p, long q) \x7b
      var int x;
      var boolean b;
      x = 7;
      b = p == q;
      return;
    \x7d
  \x7d"

/-- The variables of a run over it at its last statement. -/
def mixedEnv : Env := (((Env.empty.set 0 (.int 3)).set 1 (.other 9)).set 2 (.int 7)).set 3 (.int 0)

set_option maxRecDepth 2000 in
/-- The run has the constant that is reported. -/
theorem constants_cover_runs_mixed :
    ∃ p r, Program.ofSource mixed = .ok p ∧ analyzeWithin p 0 .lifo 20 = some r ∧
      Reaches p 0 ⟨2, mixedEnv⟩ ∧ ∃ fact, r.in? 2 = some fact ∧ fact.get 2 = .const 7 ∧
        ∀ w, mixedEnv 2 = some w → w = .int 7 := by
  obtain ⟨p, hp, h⟩ := Program.exists_of_any_ofSource mixed
    (fun p => (analyzeWithin p 0 .lifo 20).any fun r => decide (MixesUnknown p r ∧
      ((r.in? 2).map (·.get 2)) = some (.const 7) ∧ p.holdsInt 1 = false ∧ p.holdsInt 2 = true ∧
      (p.methodAt 0).params = [0, 1] ∧ (p.methodAt 0).stmts =
        [.assign 2 (.int 7), .assign 3 (.binary .eq 0 1), .ret none])) (by
    have htext : mixed.toList = _ := String.toList_ofList
    rw [Program.ofSource, lex_eq htext]
    decide +kernel)
  obtain ⟨r, hr, h⟩ := (Option.any_eq_true _ _).mp h
  obtain ⟨hmix, hseven, hlong, hint, hparams, hstmts⟩ := of_decide_eq_true h
  have hrun : Reaches p 0 ⟨2, mixedEnv⟩ := by
    have hfirst : Step p (p.methodAt 0).stmts ⟨0, (Env.empty.set 0 (.int 3)).set 1 (.other 9)⟩
        ⟨1, ((Env.empty.set 0 (.int 3)).set 1 (.other 9)).set 2 (.int 7)⟩ :=
      @Step.assign p _ 0 _ (.assign 2 (.int 7)) 2 _ (by rw [hstmts]; rfl) (by decide) rfl .int
    refine ((Reaches.start (starts_two hparams _ _)).step hfirst).step ?_
    refine @Step.assign p _ 1 _ (.assign 3 (.binary .eq 0 1)) 3 _ (by rw [hstmts]; rfl) (by decide)
      rfl (.binary (.comparison rfl rfl (fun hints => ?_) rfl (.inl rfl)))
    have hq := hints.2.1
    rw [hlong] at hq
    cases hq
  obtain ⟨fact, hfact, hvalues⟩ := constants_cover_runs hp hr hmix hrun (by rw [hstmts]; decide)
  rw [hfact] at hseven
  have hseven : fact.get 2 = .const 7 := Option.some.inj hseven
  exact ⟨p, r, hp, hr, hrun, fact, hfact, hseven, (hvalues 2 hint).2 7 hseven⟩

/-- Two long values are compared, and where they are equal the result is set to what it is. -/
def longs : String :=
  "class Main \x7b
    static method void main(long a, long b) \x7b
      var boolean same;
      same = a == b;
      if a != b goto done;
      same = 1;
      done: return;
    \x7d
  \x7d"

/-- The variables of a run with different values at the last statement. -/
def longsEnv : Env := ((Env.empty.set 0 (.other 4)).set 1 (.other 5)).set 2 (.int 0)

set_option maxRecDepth 2000 in
/-- **Without the condition a reported constant may be wrong**: with different values the result is
    zero, and one is reported. -/
theorem longs_constant_is_wrong :
    ∃ p r, Program.ofSource longs = .ok p ∧ analyzeWithin p 0 .fifo 40 = some r ∧
      Reaches p 0 ⟨3, longsEnv⟩ ∧ p.holdsInt 2 = true ∧ longsEnv 2 = some (.int 0) ∧
      ((r.in? 3).map (·.get 2)) = some (.const 1) := by
  obtain ⟨p, hp, h⟩ := Program.exists_of_any_ofSource longs
    (fun p => (analyzeWithin p 0 .fifo 40).any fun r : MethodFacts ConstFact => decide (
      p.holdsInt 0 = false ∧ p.holdsInt 2 = true ∧ ((r.in? 3).map (·.get 2)) = some (.const 1) ∧
      (p.methodAt 0).params = [0, 1] ∧ (p.methodAt 0).stmts =
        [.assign 2 (.binary .eq 0 1), .branch 0 .ne 1 3, .assign 2 (.int 1), .ret none])) (by
    have htext : longs.toList = _ := String.toList_ofList
    rw [Program.ofSource, lex_eq htext]
    decide +kernel)
  obtain ⟨r, hr, h⟩ := (Option.any_eq_true _ _).mp h
  obtain ⟨hlong, hint, hone, hparams, hstmts⟩ := of_decide_eq_true h
  have hcompares : ∀ env : Env, env 0 = some (.other 4) → env 1 = some (.other 5) →
      ∀ op : BinaryOp, op.isComparison = true → ∀ c, c = 0 ∨ c = 1 →
        Computes p env op 0 1 (.int c) := by
    intro env ha hb op hop c hc
    refine .comparison ha hb (fun hints => ?_) hop hc
    have hfirst := hints.1.1
    rw [hlong] at hfirst
    cases hfirst
  have hrun : Reaches p 0 ⟨3, longsEnv⟩ := by
    have hfirst : Step p (p.methodAt 0).stmts ⟨0, (Env.empty.set 0 (.other 4)).set 1 (.other 5)⟩
        ⟨1, longsEnv⟩ :=
      @Step.assign p _ 0 _ (.assign 2 (.binary .eq 0 1)) 2 _ (by rw [hstmts]; rfl) (by decide) rfl
        (.binary (hcompares _ rfl rfl .eq rfl 0 (.inl rfl)))
    refine ((Reaches.start (starts_two hparams _ _)).step hfirst).step ?_
    exact @Step.go p _ 1 _ (.branch 0 .ne 1 3) 3 (by rw [hstmts]; rfl) (by decide) rfl
      (.taken (hcompares _ rfl rfl .ne rfl 1 (.inr rfl)) (by decide))
  exact ⟨p, r, hp, hr, hrun, hint, rfl, hone⟩

end Constants

end ObjectFlow
