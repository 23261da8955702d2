/-
  File:      ObjectFlow/Proofs/Dataflow/UselessAssignments.lean
  Subject:   USELESS ASSIGNMENTS CAN BE TAKEN OUT, all at once: nothing that is seen of a run changes.

  The two runs go on in step. Their variables need not have the same values, only those that are
  live do; an assignment that is taken out changes a variable that is not.

  * `before_eq`, `before_le_after`: the equations of live variables along a body;
  * `Alike`: the live variables have the same values, and `Alike.step`: one statement keeps that;
  * `observe_withoutUseless`: so the two runs are seen to be the same.
-/
import Mathlib.Data.Fintype.Powerset
import ObjectFlow.Dataflow.DeadCode
import ObjectFlow.Proofs.Dataflow.LivenessFlow
import ObjectFlow.Proofs.Execution.Observed
import ObjectFlow.Proofs.Program.WellFormed

namespace ObjectFlow

/-! ## 1. Live variables along a body -/

namespace Liveness

section Equations

variable {p : Program} {m : MethodId} {order : VisitOrder} {allowance : Nat}
  {live : MethodFacts IdSet}

/-- The variables live before a statement. -/
def before (live : MethodFacts IdSet) (i : Nat) : IdSet := (live.in? i).getD .empty

/-- The variables live after a statement. -/
def after (live : MethodFacts IdSet) (i : Nat) : IdSet := (live.out? i).getD .empty

/-- Joins are unions, so they keep what unions keep. -/
theorem regular (p : Program) (flow : MethodFlow) {P : IdSet → Prop} (hempty : P .empty)
    (hunion : ∀ {a b : IdSet}, P a → P b → P (a.union b)) : (problem p flow).Regular P where
  initial := hempty
  least _ := bot_le
  boundary _ := hempty
  join := hunion
  edge h := h
  left_le _ := le_sup_left
  right_le _ := le_sup_right
  join_le _ _ := sup_le_sup
  edge_le _ _ h := h

theorem solves_of_analyzeWithin (hp : p.JumpsInside)
    (hlive : analyzeWithin p m order allowance = some live) :
    live.flow = p.flowOf m ∧ (problem p (p.flowOf m)).Solves (p.flowOf m).graph
      (transferAt p (p.flowOf m)) live.facts := by
  obtain ⟨⟨facts, _⟩, hrun, rfl⟩ := Option.map_eq_some_iff.mp hlive
  exact ⟨rfl, DataflowProblem.solves_of_solveWithin (admissible hp m) hrun⟩

theorem before_eq_outputAt (hp : p.JumpsInside)
    (hlive : analyzeWithin p m order allowance = some live) (i : Nat) :
    before live i = (problem p (p.flowOf m)).outputAt live.facts (i + 1) := by
  obtain ⟨-, hsolves⟩ := solves_of_analyzeWithin hp hlive
  unfold before MethodFacts.in? Facts.in? DataflowProblem.outputAt
  rw [hsolves.direction, Array.getD_eq_getD_getElem?]
  rfl

theorem after_eq_inputAt (hp : p.JumpsInside)
    (hlive : analyzeWithin p m order allowance = some live) (i : Nat) :
    after live i = (problem p (p.flowOf m)).inputAt live.facts (i + 1) := by
  obtain ⟨-, hsolves⟩ := solves_of_analyzeWithin hp hlive
  unfold after MethodFacts.out? Facts.out? DataflowProblem.inputAt
  rw [hsolves.direction, Array.getD_eq_getD_getElem?]
  rfl

/-- **Before a statement is live what the statement makes of what is live after it.** -/
theorem before_eq (hp : p.JumpsInside) (hlive : analyzeWithin p m order allowance = some live)
    {i : Nat} {stmt : Stmt} (hi : (p.methodAt m).stmts[i]? = some stmt) :
    before live i = transferStmt p stmt (after live i) := by
  obtain ⟨-, hsolves⟩ := solves_of_analyzeWithin hp hlive
  have hlt := (List.getElem?_eq_some_iff.mp hi).1
  have hinner : (p.flowOf m).graph.isStart .backward (i + 1) = false :=
    beq_eq_false_iff_ne.mpr fun heq => Nat.ne_of_lt hlt (Nat.succ.inj heq)
  have hstmt : (p.flowOf m).stmtAt? (i + 1) = some stmt := (stmtAt?_ofStmts m i).trans hi
  rw [before_eq_outputAt hp hlive, after_eq_inputAt hp hlive,
    hsolves.output (i + 1) (Nat.succ_lt_succ (Nat.lt_succ_of_lt hlt)) hinner, transferAt, hstmt]

/-- **What is live where control may go is live before control goes there.** -/
theorem before_le_after (hp : p.JumpsInside)
    (hlive : analyzeWithin p m order allowance = some live) {i j : Nat}
    (hi : i < (p.methodAt m).stmts.length) {e : FlowEdge EdgeKind}
    (he : e ∈ bodyEdges (p.methodAt m).stmts) (hsource : e.source = i + 1)
    (htarget : e.target = j + 1) : before live j ≤ after live i := by
  obtain ⟨-, hsolves⟩ := solves_of_analyzeWithin hp hlive
  have hinner : (p.flowOf m).graph.isStart .backward (i + 1) = false :=
    beq_eq_false_iff_ne.mpr fun heq => Nat.ne_of_lt hi (Nat.succ.inj heq)
  have hlt : i + 1 < (p.flowOf m).graph.nodeCount := Nat.succ_lt_succ (Nat.lt_succ_of_lt hi)
  rw [before_eq_outputAt hp hlive, after_eq_inputAt hp hlive, hsolves.input (i + 1) hlt hinner,
    ← htarget]
  exact (regular (P := fun _ => True) p (p.flowOf m) trivial fun _ _ => trivial).le_joined
    (hp.coherent m) (fun _ _ => trivial) hlt
    ((mem_outEdges_ofStmts hlt).mpr ⟨he, hsource⟩)

/-- A greater set has a member more. -/
theorem exists_mem_of_lt {a b : IdSet} (h : a < b) : ∃ i, i ∈ b ∧ ¬ i ∈ a := by
  refine Classical.byContradiction fun hnone => h.2 fun i hi => ?_
  exact Classical.byContradiction fun hnot => hnone ⟨i, hi, hnot⟩

/-- **The analysis ends**: only variables that some statement reads are ever live. -/
theorem exists_analyzeWithin (hp : p.JumpsInside) (m : MethodId) (order : VisitOrder) :
    ∃ n live, ∀ allowance, n ≤ allowance → analyzeWithin p m order allowance = some live := by
  obtain ⟨bound, hbound⟩ : ∃ bound, ∀ stmt ∈ (p.methodAt m).stmts, ∀ v ∈ stmt.uses,
      localIndex p v < bound := by
    refine ⟨((p.methodAt m).stmts.flatMap fun stmt => stmt.uses.map (localIndex p)).sum + 1,
      fun stmt hstmt v hv => Nat.lt_succ_of_le (List.le_sum_of_mem ?_)⟩
    exact List.mem_flatMap.mpr ⟨stmt, hstmt, List.mem_map_of_mem hv⟩
  have hregular := regular (P := fun a => ∀ i ∈ a, i < bound) p (p.flowOf m)
    (fun i hi => absurd hi IdSet.not_mem_empty)
    (fun ha hb i hi => (IdSet.mem_union.mp hi).elim (ha i) (hb i))
  have hnode : ∀ n (a : IdSet), (∀ i ∈ a, i < bound) →
      ∀ i ∈ transferAt p (p.flowOf m) n a, i < bound := by
    intro n a ha i hi
    unfold transferAt at hi
    split at hi
    · rename_i stmt hstmt
      obtain ⟨k, -, hk⟩ := Option.bind_eq_some_iff.mp hstmt
      rcases mem_transferStmt.mp hi with ⟨hi, -⟩ | hi
      · exact ha i hi
      · obtain ⟨v, hv, rfl⟩ := List.mem_map.mp hi
        exact hbound stmt (List.mem_toArray.mp (Array.mem_of_getElem? hk)) v hv
    · exact ha i hi
  have hclosed := hregular.closed (hp.coherent m) hnode
  obtain ⟨n, r, hr⟩ := DataflowProblem.exists_solveWithin_of_rising
    (fun a : IdSet => Finset.univ.filter fun i : Fin bound => i.val ∈ a) (admissible hp m) order ()
    (I := fun s => (problem p (p.flowOf m)).Throughout (p.flowOf m).graph
        (fun _ a => ∀ i ∈ a, i < bound) s.facts ∧
      DataflowProblem.Rising (problem p (p.flowOf m)) (p.flowOf m).graph
        (transferAt p (p.flowOf m)) s.facts)
    ⟨hclosed.startFacts, DataflowProblem.start_rising (isMonotone p _)⟩
    (fun s t n _ ⟨hall, hrising⟩ hs _ v => by
      have hall' := v.throughout hclosed hs hall
      refine ⟨⟨hall', v.rising (isMonotone p _) (hp.coherent m) hs hrising⟩, fun hne => ?_⟩
      have hle := v.output_le hs hrising n
      obtain ⟨i, hi, hnew⟩ := exists_mem_of_lt (lt_of_le_of_ne hle (Ne.symm hne))
      have hlt := hall' n (hs.pending n v.pending).1 i hi
      refine Finset.ssubset_iff_subset_ne.mpr ⟨fun k hk => ?_, fun heq => ?_⟩
      · exact Finset.mem_filter.mpr ⟨Finset.mem_univ k, hle _ (Finset.mem_filter.mp hk).2⟩
      · have hmem : (⟨i, hlt⟩ : Fin bound) ∈ Finset.univ.filter fun k : Fin bound =>
            k.val ∈ (problem p (p.flowOf m)).outputAt t.facts n :=
          Finset.mem_filter.mpr ⟨Finset.mem_univ _, hi⟩
        rw [← heq] at hmem
        exact hnew (Finset.mem_filter.mp hmem).2)
  exact ⟨n, ⟨p.flowOf m, r.1⟩, fun allowance hle => by
    unfold analyzeWithin
    simp only
    rw [hr allowance hle]
    rfl⟩

end Equations

end Liveness

/-! ## 2. Bodies without useless assignments -/

namespace DeadCode

/-- Whether a statement is an assignment without effect whose variable is not live afterwards. -/
def isUselessAssign (p : Program) (live : MethodFacts IdSet) (stmt : Stmt) (i : Nat) : Bool :=
  match stmt with
  | .assign _ _ => isUseless p stmt (Liveness.after live i)
  | _ => false

/-- The statements with nothing in the place of useless assignments. -/
def withoutUseless (p : Program) (live : MethodFacts IdSet) (stmts : List Stmt) : List Stmt :=
  stmts.zipIdx.map fun (stmt, i) => if isUselessAssign p live stmt i then .nop else stmt

theorem getElem?_withoutUseless (p : Program) (live : MethodFacts IdSet) (stmts : List Stmt)
    (i : Nat) : (withoutUseless p live stmts)[i]? =
      stmts[i]?.map fun stmt => if isUselessAssign p live stmt i then .nop else stmt := by
  unfold withoutUseless
  rw [List.getElem?_map, List.getElem?_zipIdx]
  cases stmts[i]? <;> simp

/-- A useless assignment only changes a variable, and one that is not live afterwards. -/
theorem act_of_isUselessAssign {V W : Type} {p : Program} {live : MethodFacts IdSet} {stmt : Stmt}
    {i : Nat} (h : isUselessAssign p live stmt i = true) (out : Observed.Outside V W)
    (env : VarId → V) (world : W) :
    Observed.performs stmt = false ∧ ∃ x w, stmt.defined? = some x ∧
      ¬ Liveness.localIndex p x ∈ Liveness.after live i ∧
      Observed.act out env i world stmt = .next (i + 1) (some (x, w)) world := by
  cases stmt with
  | assign x rhs =>
    have hboth : ¬ Liveness.localIndex p x ∈ Liveness.after live i ∧
        hasSideEffect (.assign x rhs) = false := by
      simpa [isUselessAssign, isUseless, StmtOf.defined?, IdSet.contains] using h
    have hperforms : Observed.performs (.assign x rhs) = false := by
      cases rhs with
      | binary op l r =>
        cases op with
        | div => cases hboth.2
        | rem => cases hboth.2
        | _ => rfl
      | cast ty y => cases hboth.2
      | _ => rfl
    refine ⟨hperforms, ?_⟩
    unfold Observed.act
    rw [if_neg (Bool.eq_false_iff.mp hperforms)]
    cases rhs with
    | var y => exact ⟨x, _, rfl, hboth.1, rfl⟩
    | int n => exact ⟨x, _, rfl, hboth.1, rfl⟩
    | binary op l r => exact ⟨x, _, rfl, hboth.1, rfl⟩
    | cast ty y => cases hboth.2
  | _ => cases h

/-! ## 3. One statement -/

open Liveness Observed

variable {V W : Type} {p : Program} {m : MethodId} {order : VisitOrder} {allowance : Nat}
  {live : MethodFacts IdSet}

/-- **When control goes on**, it goes along an edge of the statement, and the variable assigned is
    the one the statement defines. -/
theorem of_act_eq_next {out : Outside V W} {env : VarId → V} {i j : Nat} {world world' : W}
    {stmt : Stmt} {assigned : Option (VarId × V)}
    (h : act out env i world stmt = .next j assigned world') (exit : Nat) :
    assigned.map (·.1) = stmt.defined? ∧ ∃ e ∈ stmtEdges exit (i + 1) stmt, e.target = j + 1 := by
  have hfall : ∀ kind, ⟨i + 1, i + 1 + 1, kind⟩ ∈ stmtEdges exit (i + 1) stmt →
      ∃ e ∈ stmtEdges exit (i + 1) stmt, e.target = i + 1 + 1 :=
    fun kind he => ⟨_, he, rfl⟩
  unfold act at h
  split at h
  · rename_i hperforms
    split at h
    · cases h
    · cases h
      refine ⟨by cases stmt.defined? <;> rfl, hfall .fallThrough ?_⟩
      cases stmt with
      | branch _ _ _ _ | jump _ | switch _ _ _ | ret _ => cases hperforms
      | _ => exact List.mem_cons_self
  · rename_i hperforms
    cases stmt with
    | assign x rhs =>
      cases rhs with
      | cast ty y => exact absurd rfl hperforms
      | _ =>
        cases h
        exact ⟨rfl, hfall .fallThrough List.mem_cons_self⟩
    | branch l op r target =>
      cases h
      refine ⟨rfl, ?_⟩
      split
      · exact ⟨_, List.mem_cons_self, rfl⟩
      · exact ⟨_, List.mem_cons_of_mem _ List.mem_cons_self, rfl⟩
    | jump target =>
      cases h
      exact ⟨rfl, _, List.mem_cons_self, rfl⟩
    | switch on cases otherwise =>
      cases h
      refine ⟨rfl, ?_⟩
      cases hcase : cases.find? fun c => out.isCase (env on) c.1 with
      | none => exact ⟨_, List.mem_append_right _ List.mem_cons_self, rfl⟩
      | some c =>
        have hc := List.mem_of_find?_eq_some hcase
        exact ⟨_, List.mem_append_left _ (List.mem_map_of_mem hc), rfl⟩
    | ret value => cases h
    | nop =>
      cases h
      exact ⟨rfl, hfall .fallThrough List.mem_cons_self⟩
    | _ => exact absurd rfl hperforms

/-- **The live variables have the same values.** -/
def Alike (p : Program) (m : MethodId) (live : IdSet) (env env' : VarId → V) : Prop :=
  ∀ v ∈ (p.methodAt m).vars, localIndex p v ∈ live → env v = env' v

theorem Alike.mono {live live' : IdSet} {env env' : VarId → V} (h : Alike p m live env env')
    (hle : live' ≤ live) : Alike p m live' env env' :=
  fun v hv hlive => h v hv (hle _ hlive)

/-- No two variables of a method have the same number. -/
theorem localIndex_inj (hp : p.Coherent) {v w : VarId} (hv : v ∈ (p.methodAt m).vars)
    (hw : w ∈ (p.methodAt m).vars) (h : localIndex p v = localIndex p w) : v = w := by
  rcases Nat.lt_or_ge m p.methods.size with hm | hm
  · have hplaced := (hp.methods m hm).vars
    obtain ⟨k, hk⟩ := List.mem_iff_getElem?.mp hv
    obtain ⟨l, hl⟩ := List.mem_iff_getElem?.mp hw
    unfold localIndex at h
    rw [(hplaced hk).2.2, (hplaced hl).2.2] at h
    rw [h, hl] at hk
    exact (Option.some.inj hk).symm
  · have hnone : p.methodAt m = default := by simp [Program.methodAt, hm]
    rw [hnone] at hv
    exact absurd hv List.not_mem_nil

section Statements

variable (hp : p.Filled) {i : Nat} {stmt : Stmt} (hi : (p.methodAt m).stmts[i]? = some stmt)
include hp hi

/-- The variables of a statement are variables of its method. -/
theorem mem_vars_of_stmt {v : VarId} (hv : stmt.defined? = some v ∨ v ∈ stmt.uses) :
    v ∈ (p.methodAt m).vars := by
  have hstmt : p.stmt? ⟨m, i⟩ = some stmt := by
    unfold MethodDecl.stmts at hi
    rwa [List.getElem?_map, Array.getElem?_toList] at hi
  refine ((hp.known_of_stmt? hstmt).vars v (List.mem_append.mpr ?_)).mem
  exact hv.imp (fun hv => Option.mem_toList.mpr hv) id

/-- A variable the statement does not define has another number than the one it defines. -/
theorem localIndex_ne {v x : VarId} (hv : v ∈ (p.methodAt m).vars) (hx : stmt.defined? = some x)
    (hne : v ≠ x) : localIndex p v ≠ localIndex p x := by
  exact fun heq => hne (localIndex_inj hp.coherent hv (mem_vars_of_stmt hp hi (.inl hx)) heq)

variable (hinside : p.JumpsInside) (hlive : analyzeWithin p m order allowance = some live)
include hinside hlive

/-- What a statement reads is live before it. -/
theorem Alike.uses {env env' : VarId → V} (h : Alike p m (before live i) env env') :
    ∀ v ∈ stmt.uses, env v = env' v := by
  intro v hv
  refine h v (mem_vars_of_stmt hp hi (.inr hv)) ?_
  rw [before_eq hinside hlive hi]
  exact mem_transferStmt.mpr (.inr (List.mem_map_of_mem hv))

/-- What is live after a statement and not assigned is live before it. -/
theorem Alike.of_not_defined {env env' : VarId → V} (h : Alike p m (before live i) env env')
    {v : VarId} (hv : v ∈ (p.methodAt m).vars) (hafter : localIndex p v ∈ after live i)
    (hne : stmt.defined? ≠ some v) : env v = env' v := by
  refine h v hv ?_
  rw [before_eq hinside hlive hi]
  refine mem_transferStmt.mpr (.inl ⟨hafter, fun x hx => ?_⟩)
  exact localIndex_ne hp hi hv hx fun heq => hne (heq ▸ hx)

/-- **A statement that both runs do keeps their live variables alike.** -/
theorem Alike.put {env env' : VarId → V} (h : Alike p m (before live i) env env')
    {assigned : Option (VarId × V)} (hassigned : assigned.map (·.1) = stmt.defined?) :
    Alike p m (after live i) (put env assigned) (put env' assigned) := by
  intro v hv hafter
  cases assigned with
  | none => exact h.of_not_defined hp hi hinside hlive hv hafter (by rw [← hassigned]; nofun)
  | some assigned =>
    obtain ⟨x, w⟩ := assigned
    unfold Observed.put
    by_cases hvx : v = x
    · simp only [hvx, if_true]
    · simp only [hvx, if_false]
      refine h.of_not_defined hp hi hinside hlive hv hafter fun hx => ?_
      exact hvx (Option.some.inj (hx.symm.trans hassigned.symm))

/-- **So does an assignment that only one run does**, when its variable is not live afterwards. -/
theorem Alike.drop {env env' : VarId → V} (h : Alike p m (before live i) env env') {x : VarId}
    {w : V} (hx : stmt.defined? = some x) (hdead : ¬ localIndex p x ∈ after live i) :
    Alike p m (after live i) (Observed.put env (some (x, w))) env' := by
  intro v hv hafter
  have hvx : v ≠ x := fun heq => hdead (heq ▸ hafter)
  unfold Observed.put
  simp only [hvx, if_false]
  exact h.of_not_defined hp hi hinside hlive hv hafter fun hv =>
    hvx (Option.some.inj (hv.symm.trans hx))

omit hp in
/-- The live variables are alike where control goes on. -/
theorem Alike.next {env env' : VarId → V} (h : Alike p m (after live i) env env')
    {out : Outside V W} {start : VarId → V} {j : Nat} {world world' : W}
    {assigned : Option (VarId × V)} (hact : act out start i world stmt = .next j assigned world') :
    Alike p m (before live j) env env' := by
  obtain ⟨-, e, he, htarget⟩ := of_act_eq_next hact ((p.methodAt m).stmts.length + 1)
  exact h.mono (before_le_after hinside hlive (List.getElem?_eq_some_iff.mp hi).1
    (mem_bodyEdges.mpr (.inr ⟨i, stmt, hi, he⟩)) (source_of_mem_stmtEdges he) htarget)

end Statements

/-! ## 4. Runs -/

/-- **The runs are seen to be the same**, from wherever their live variables are alike. -/
theorem observe_withoutUseless (hp : p.Filled) (hinside : p.JumpsInside)
    (hlive : analyzeWithin p m order allowance = some live) (out : Outside V W) (n : Nat) {i : Nat}
    {env env' : VarId → V} (h : Alike p m (before live i) env env') (world : W) :
    observe out (withoutUseless p live (p.methodAt m).stmts) n i env' world =
      observe out (p.methodAt m).stmts n i env world := by
  induction n generalizing i env env' world with
  | zero => rfl
  | succ n ih =>
    unfold observe
    rw [getElem?_withoutUseless]
    cases hi : (p.methodAt m).stmts[i]? with
    | none => rfl
    | some stmt =>
      simp only [Option.map_some]
      by_cases huseless : isUselessAssign p live stmt i = true
      · -- the one run assigns a variable that is not live, the other goes on
        obtain ⟨hperforms, x, w, hx, hdead, hact⟩ := act_of_isUselessAssign huseless out env world
        have hnop : act out env' i world .nop = .next (i + 1) none world := rfl
        have hnext := (h.drop hp hi hinside hlive (w := w) hx hdead).next hi hinside hlive hact
        rw [if_pos huseless, hact, hnop]
        simp only [Observed.put] at hnext ⊢
        rw [ih hnext world, effectOf, effectOf, hperforms]
        rfl
      · -- both runs do the same statement, on the same operands
        have huses := h.uses hp hi hinside hlive
        have hsame : act out env' i world stmt = act out env i world stmt :=
          act_congr out (fun v hv => (huses v hv).symm) i world
        have heffect : effectOf env' stmt = effectOf env stmt := by
          unfold effectOf
          rw [List.map_congr_left huses]
        rw [if_neg huseless, hsame, heffect]
        cases hact : act out env i world stmt with
        | next j assigned world' =>
          have hassigned := (of_act_eq_next hact 0).1
          have hnext := (h.put hp hi hinside hlive hassigned).next hi hinside hlive hact
          simp only
          rw [ih hnext world']
        | trapped w => rfl
        | returned value => rfl

/-- **Taking out the useless assignments changes nothing that is seen.** For every accepted program,
    method and order of visits the live variables are found, and whatever values the variables start
    with and whatever the world outside does, the run without the assignments that are useless by
    them visits the same statements, acts on the world with the same operands in the same order,
    traps or returns the same value, or goes on as long. -/
theorem removing_useless_assignments_is_unseen {source : String} {p : Program}
    (hp : Program.ofSource source = .ok p) (m : MethodId) (order : VisitOrder) :
    (∃ n live, ∀ allowance, n ≤ allowance → analyzeWithin p m order allowance = some live) ∧
    ∀ allowance live, analyzeWithin p m order allowance = some live →
      ∀ {V W : Type} (out : Outside V W) (env : VarId → V) (world : W) (n : Nat),
        observe out (withoutUseless p live (p.methodAt m).stmts) n 0 env world =
          observe out (p.methodAt m).stmts n 0 env world := by
  have hinside := Program.jumpsInside_of_ofSource hp
  refine ⟨exists_analyzeWithin hinside m order, fun allowance live hlive V W out env world n => ?_⟩
  exact observe_withoutUseless (Program.filled_of_ofSource hp) hinside hlive out n
    (fun _ _ _ => rfl) world

/-- Of the assignments in the loop `b` and `d` are useless, and `a` is not, because `b` reads it. -/
def idle : String :=
  "class Main \x7b
    static method int main(int n, int k) \x7b
      var int a, b, c, d;
      again: a = n + k;
      b = a * k;
      c = n / k;
      d = c;
      n = n - k;
      if k < n goto again;
      return n;
    \x7d
  \x7d"

set_option maxRecDepth 2000 in
/-- Both are taken out; the division, which may trap, would stay even if nothing read it. -/
theorem removing_useless_assignments_is_unseen_idle :
    ∃ p live, Program.ofSource idle = .ok p ∧ analyzeWithin p 0 .lifo 40 = some live ∧
      (p.methodAt 0).stmts.length = 7 ∧
      (withoutUseless p live (p.methodAt 0).stmts).take 4 =
        [.assign 2 (.binary .add 0 1), .nop, .assign 4 (.binary .div 0 1), .nop] ∧
      ∀ {V W : Type} (out : Outside V W) (env : VarId → V) (world : W) (n : Nat),
        observe out (withoutUseless p live (p.methodAt 0).stmts) n 0 env world =
          observe out (p.methodAt 0).stmts n 0 env world := by
  obtain ⟨p, hp, h⟩ := Program.exists_of_any_ofSource idle
    (fun p => (analyzeWithin p 0 .lifo 40).any fun live => decide (
      (p.methodAt 0).stmts.length = 7 ∧ (withoutUseless p live (p.methodAt 0).stmts).take 4 =
        [.assign 2 (.binary .add 0 1), .nop, .assign 4 (.binary .div 0 1), .nop])) (by
    have htext : idle.toList = _ := String.toList_ofList
    rw [Program.ofSource, lex_eq htext]
    decide +kernel)
  obtain ⟨live, hlive, h⟩ := (Option.any_eq_true _ _).mp h
  obtain ⟨hlength, htake⟩ := of_decide_eq_true h
  exact ⟨p, live, hp, hlive, hlength, htake,
    (removing_useless_assignments_is_unseen hp 0 .lifo).2 40 live hlive⟩

end DeadCode

end ObjectFlow
