/-
  File:      ObjectFlow/Proofs/Program/WellFormed.lean
  Subject:   EVERY ACCEPTED PROGRAM IS WELL FORMED.

  * `Program.IdsInRange`: every id stored in a declaration or a statement is in range;
  * `Program.UsesExact`: the accesses through a variable are listed exactly, and in order;
  * `Program.WellFormed`: these, with jumps, variables, fields, calls, returns and names as every
    analysis relies on them;
  * `wellFormed_of_ofSource`: so it is for every text that is accepted.
-/
import ObjectFlow.Calls.ClassHierarchy
import ObjectFlow.Proofs.PointsTo.Rules
import ObjectFlow.Proofs.Program.Bodies

namespace ObjectFlow

/-! ## 1. Ids in range -/

/-- The classes a type mentions. -/
def Ty.classes : Ty → List ClassId
  | .prim _ => []
  | .object c => [c]
  | .array elem => elem.classes

theorem Ty.Known.classes_lt {p : Program} {ty : Ty} (h : ty.Known p) :
    ∀ c ∈ ty.classes, c < p.classes.size := by
  induction ty with
  | prim t => exact fun c hc => absurd hc List.not_mem_nil
  | object d =>
    intro c hc
    rw [List.mem_singleton.mp hc]
    exact h.1
  | array elem ih => exact ih h

namespace StmtOf

variable {τ : Type}

/-- The variables of a statement. -/
def vars (stmt : StmtOf τ) : List VarId := stmt.defined?.toList ++ stmt.uses

/-- The classes a statement mentions. -/
def classes : StmtOf τ → List ClassId
  | .alloc _ ty _ => ty.classes
  | .assign _ (.cast ty _) => ty.classes
  | .call i => [i.target.owner]
  | _ => []

/-- The fields a statement accesses. -/
def fields : StmtOf τ → List FieldId
  | .loadField _ _ f | .storeField _ f _ => [f]
  | _ => []

/-- The subsignatures a statement calls. -/
def subsigs : StmtOf τ → List SubsigId
  | .call i => [i.target.subsig]
  | _ => []

end StmtOf

/-- Sites in the order of their methods, and within a method in the order of its statements. -/
def Site.Before (a b : Site) : Prop := a.method < b.method ∨ a.method = b.method ∧ a.index < b.index

namespace Program

/-- **Every id that is stored is in range.** -/
structure IdsInRange (p : Program) : Prop where
  supertypes : ∀ c < p.classes.size,
    ∀ d ∈ (p.classAt c).superClass.toList ++ (p.classAt c).interfaces, d < p.classes.size
  subtypes : ∀ c, ∀ d ∈ p.directSubtypes c, d < p.classes.size
  members : ∀ c < p.classes.size,
    (∀ f ∈ (p.classAt c).fields, f < p.fields.size) ∧
      ∀ m ∈ (p.classAt c).methods, m < p.methods.size
  fields : ∀ f < p.fields.size,
    ∀ c ∈ (p.fieldAt f).owner :: (p.fieldAt f).ty.classes, c < p.classes.size
  signatures : ∀ m < p.methods.size, (p.methodAt m).subsig < p.subsigs.size ∧
    ∀ c ∈ (p.methodAt m).owner ::
      ((p.methodAt m).retType :: (p.methodAt m).paramTypes).flatMap Ty.classes, c < p.classes.size
  locals : ∀ m < p.methods.size,
    ∀ v ∈ (p.methodAt m).this.toList ++ (p.methodAt m).params ++ (p.methodAt m).vars, v < p.vars.size
  vars : ∀ v < p.vars.size, (p.varAt v).method < p.methods.size ∧
    ∀ c ∈ (p.varAt v).ty.classes, c < p.classes.size
  stmts : ∀ {site stmt}, p.stmt? site = some stmt → site.method < p.methods.size ∧
    (∀ v ∈ stmt.vars, v < p.vars.size) ∧ (∀ c ∈ stmt.classes, c < p.classes.size) ∧
    (∀ f ∈ stmt.fields, f < p.fields.size) ∧ ∀ s ∈ stmt.subsigs, s < p.subsigs.size

variable {p : Program}

/-- A statement of the program is known. -/
theorem Filled.known_of_stmt? (h : p.Filled) {site : Site} {stmt : Stmt}
    (hstmt : p.stmt? site = some stmt) : stmt.Known p site.method := by
  obtain ⟨i, hi, rfl⟩ := Option.map_eq_some_iff.mp hstmt
  exact h.known site.method (method_lt_of_stmt? hstmt) i (Array.mem_of_getElem? hi)

theorem Filled.idsInRange (h : p.Filled) : p.IdsInRange where
  supertypes c hc d hd := by
    have hclass := h.coherent.classes c hc
    rcases List.mem_append.mp hd with hd | hd
    · exact (hclass.superClass d (Option.mem_toList.mp hd)).1
    · exact (hclass.interfaces d hd).1
  subtypes c d hd := by
    have hids : d ∈ p.classIds := by
      rcases List.mem_append.mp hd with hd | hd
      · rcases List.mem_append.mp hd with hd | hd
        · exact (List.mem_filter.mp hd).1
        · obtain ⟨e, he, hd⟩ := List.mem_flatMap.mp hd
          obtain ⟨_, _, rfl⟩ := List.mem_map.mp hd
          exact (List.mem_filter.mp he).1
      · obtain ⟨e, he, hd⟩ := List.mem_flatMap.mp hd
        obtain ⟨_, _, rfl⟩ := List.mem_map.mp hd
        exact (List.mem_filter.mp he).1
    exact List.mem_range.mp hids
  members c hc := ⟨(h.coherent.classes c hc).fields, (h.coherent.classes c hc).methods⟩
  fields f hf c hc := by
    have hfield := h.coherent.fields f hf
    rcases List.mem_cons.mp hc with rfl | hc
    · exact hfield.owner
    · exact hfield.ty.classes_lt c hc
  signatures m hm := by
    have hmethod := h.coherent.methods m hm
    refine ⟨hmethod.subsig, fun c hc => ?_⟩
    rcases List.mem_cons.mp hc with rfl | hc
    · exact hmethod.owner.1
    · obtain ⟨t, ht, hc⟩ := List.mem_flatMap.mp hc
      rcases List.mem_cons.mp ht with rfl | ht
      · exact hmethod.retType.classes_lt c hc
      · exact (hmethod.paramTypes t ht).classes_lt c hc
  locals m hm v hv := by
    have hmethod := h.coherent.methods m hm
    refine h.coherent.var_lt hm ?_
    rcases List.mem_append.mp hv with hv | hv
    · rcases List.mem_append.mp hv with hv | hv
      · exact hmethod.this v (Option.mem_toList.mp hv)
      · exact hmethod.params v hv
    · exact hv
  vars v hv := ⟨(h.coherent.vars v hv).method, (h.coherent.vars v hv).ty.classes_lt⟩
  stmts {site stmt} hstmt := by
    have hm := method_lt_of_stmt? hstmt
    have hknown := h.known_of_stmt? hstmt
    refine ⟨hm, fun v hv => h.coherent.var_lt hm (hknown.vars v hv).mem, fun c hc => ?_,
      fun f hf => ?_, fun s hs => ?_⟩
    · have hfits := hknown.fits
      cases stmt with
      | alloc lhs ty length => exact hfits.1.classes_lt c hc
      | assign lhs rhs =>
        cases rhs with
        | cast ty v => exact Ty.Known.classes_lt hfits c hc
        | _ => cases hc
      | call i => exact List.mem_singleton.mp hc ▸ hfits.2.owner
      | _ => cases hc
    · have hfits := hknown.fits
      cases stmt with
      | loadField lhs base field => exact List.mem_singleton.mp hf ▸ FieldAccess.field hfits
      | storeField base field rhs => exact List.mem_singleton.mp hf ▸ FieldAccess.field hfits
      | _ => cases hf
    · have hfits := hknown.fits
      cases stmt with
      | call i => exact List.mem_singleton.mp hs ▸ hfits.2.subsig
      | _ => cases hs


/-! ## 2. Accesses through a variable -/

theorem sitesOf_pairwise (p : Program) (m : MethodId) :
    (p.sitesOf m).Pairwise fun a b => a.1.Before b.1 := by
  refine List.pairwise_map.mpr ?_
  have hindex : ((p.methodAt m).stmts.zipIdx.map (·.2)).Pairwise (· < ·) := by
    rw [List.zipIdx_map_snd]
    exact List.pairwise_lt_range'
  exact (List.pairwise_map.mp hindex).imp fun hlt => .inr ⟨rfl, hlt⟩

theorem sitesWhere_pairwise (p : Program) (test : Stmt → Bool) :
    (p.sitesWhere test).Pairwise Site.Before := by
  refine List.pairwise_map.mpr (List.Pairwise.filter _ ?_)
  refine List.pairwise_flatMap.mpr ⟨fun m _ => p.sitesOf_pairwise m, ?_⟩
  refine List.pairwise_lt_range.imp fun {m n} hlt a ha b hb => .inl ?_
  rw [(mem_sitesOf.mp ha).1, (mem_sitesOf.mp hb).1]
  exact hlt

/-- **The accesses through a variable are listed exactly, each kind in order.** -/
structure UsesExact (p : Program) (v : VarId) : Prop where
  loadFields : ∀ {site}, site ∈ (p.usesOf v).loadFields ↔
    ∃ x f, p.stmt? site = some (.loadField x (some v) f)
  storeFields : ∀ {site}, site ∈ (p.usesOf v).storeFields ↔
    ∃ f y, p.stmt? site = some (.storeField (some v) f y)
  loadArrays : ∀ {site}, site ∈ (p.usesOf v).loadArrays ↔
    ∃ x k, p.stmt? site = some (.loadArray x v k)
  storeArrays : ∀ {site}, site ∈ (p.usesOf v).storeArrays ↔
    ∃ k y, p.stmt? site = some (.storeArray v k y)
  invokes : ∀ {site}, site ∈ (p.usesOf v).invokes ↔
    ∃ i, p.invoke? site = some i ∧ i.base = some v
  inOrder : ∀ sites ∈ [(p.usesOf v).loadFields, (p.usesOf v).storeFields, (p.usesOf v).loadArrays,
    (p.usesOf v).storeArrays, (p.usesOf v).invokes], sites.Pairwise Site.Before

theorem usesExact (p : Program) (v : VarId) : p.UsesExact v where
  loadFields := mem_loadFields
  storeFields := mem_storeFields
  loadArrays := mem_loadArrays
  storeArrays := mem_storeArrays
  invokes {site} := by
    simp only [invoke?_eq_some_iff]
    exact mem_invokes
  inOrder sites hsites := by
    simp only [List.mem_cons, List.not_mem_nil, or_false] at hsites
    unfold usesOf at hsites
    dsimp only at hsites
    rcases hsites with rfl | rfl | rfl | rfl | rfl <;> exact p.sitesWhere_pairwise _

/-! ## 3. Returns -/

/-- Where a partial function is defined along a list, and what it gives there, in order. -/
theorem exists_indices_filterMap {α β : Type} (f : α → Option β) (l : List α) :
    ∃ indices : List Nat, indices.Pairwise (· < ·) ∧
      (∀ i, i ∈ indices ↔ ∃ b, l[i]?.bind f = some b) ∧
      indices.map (fun i => l[i]?.bind f) = (l.filterMap f).map some := by
  induction l with
  | nil => exact ⟨[], .nil, by simp, rfl⟩
  | cons a l ih =>
    obtain ⟨indices, hsorted, hmem, hmap⟩ := ih
    have hsorted' : (indices.map (· + 1)).Pairwise (· < ·) :=
      List.pairwise_map.mpr (hsorted.imp Nat.succ_lt_succ)
    have hmap' : (indices.map (· + 1)).map (fun i => (a :: l)[i]?.bind f) =
        (l.filterMap f).map some := by
      rw [List.map_map, ← hmap]
      rfl
    have hsucc : ∀ i, i + 1 ∈ indices.map (· + 1) ↔ ∃ b, (a :: l)[i + 1]?.bind f = some b := by
      intro i
      rw [List.getElem?_cons_succ, ← hmem i]
      simp
    cases ha : f a with
    | none =>
      refine ⟨indices.map (· + 1), hsorted', fun i => ?_, ?_⟩
      · cases i with
        | zero => simp [ha]
        | succ i => exact hsucc i
      · rw [hmap', List.filterMap_cons_none ha]
    | some b =>
      refine ⟨0 :: indices.map (· + 1), List.pairwise_cons.mpr ⟨?_, hsorted'⟩, fun i => ?_, ?_⟩
      · intro i hi
        obtain ⟨j, -, rfl⟩ := List.mem_map.mp hi
        exact Nat.succ_pos j
      · cases i with
        | zero => simp [ha]
        | succ i =>
          rw [← hsucc i]
          simp
      · rw [List.map_cons, hmap', List.filterMap_cons_some ha, List.map_cons]
        simp [ha]

theorem returned?_eq_some_iff {stmt : Stmt} {v : VarId} :
    stmt.returned? = some v ↔ stmt = .ret (some v) := by
  cases stmt <;> simp [StmtOf.returned?]

/-- The returned variables are those of the return statements, taken in order. -/
theorem returnVars_inOrder (p : Program) (m : MethodId) :
    ∃ indices : List Nat, indices.Pairwise (· < ·) ∧
      (∀ i, i ∈ indices ↔ ∃ v, p.stmt? ⟨m, i⟩ = some (.ret (some v))) ∧
      indices.map (fun i => p.stmt? ⟨m, i⟩) =
        (p.methodAt m).returnVars.map fun v => some (.ret (some v)) := by
  have hat : ∀ i, p.stmt? ⟨m, i⟩ = (p.methodAt m).stmts[i]? := fun i => by
    simp [stmt?, MethodDecl.stmts]
  have hret : ∀ i v, (p.methodAt m).stmts[i]?.bind (·.returned?) = some v ↔
      p.stmt? ⟨m, i⟩ = some (.ret (some v)) := fun i v => by
    rw [hat, Option.bind_eq_some_iff]
    simp [returned?_eq_some_iff]
  obtain ⟨indices, hsorted, hmem, hmap⟩ :=
    exists_indices_filterMap StmtOf.returned? (p.methodAt m).stmts
  have hmem : ∀ i, i ∈ indices ↔ ∃ v, p.stmt? ⟨m, i⟩ = some (.ret (some v)) := fun i => by
    rw [hmem i]
    exact exists_congr fun v => hret i v
  refine ⟨indices, hsorted, hmem, ?_⟩
  calc
    indices.map (fun i => p.stmt? ⟨m, i⟩)
        = indices.map fun i =>
            ((p.methodAt m).stmts[i]?.bind (·.returned?)).map fun v => .ret (some v) := by
          refine List.map_congr_left fun i hi => ?_
          obtain ⟨v, hv⟩ := (hmem i).mp hi
          rw [(hret i v).mpr hv, hv, Option.map_some]
    _ = ((p.methodAt m).returnVars.map some).map (Option.map fun v => .ret (some v)) := by
          rw [MethodDecl.returnVars, ← hmap, List.map_map]
          rfl
    _ = (p.methodAt m).returnVars.map fun v => some (.ret (some v)) := by
          rw [List.map_map]
          rfl

/-! ## 4. Calls -/

theorem Coherent.of_declaredMethod? (h : p.Coherent) {c : ClassId} {s : SubsigId} {m : MethodId}
    (hm : p.declaredMethod? c s = some m) : m < p.methods.size ∧ (p.methodAt m).subsig = s := by
  refine ⟨?_, by simpa using List.find?_some hm⟩
  have hmem := List.mem_of_find?_eq_some hm
  rcases Nat.lt_or_ge c p.classes.size with hlt | hge
  · exact (h.classes c hlt).methods m hmem
  · -- past the end of the table stands a class without members
    have hnone : p.classAt c = default := by simp [classAt, hge]
    rw [hnone] at hmem
    exact absurd hmem List.not_mem_nil

theorem Coherent.of_lookup? (h : p.Coherent) {c : ClassId} {s : SubsigId} {m : MethodId}
    (hm : p.lookup? c s = some m) : m < p.methods.size ∧ (p.methodAt m).subsig = s := by
  obtain ⟨d, -, hd⟩ := List.exists_of_findSome?_eq_some hm
  exact h.of_declaredMethod? hd

theorem Coherent.of_dispatch? (h : p.Coherent) {c : ClassId} {s : SubsigId} {m : MethodId}
    (hm : p.dispatch? c s = some m) : m < p.methods.size ∧ (p.methodAt m).subsig = s := by
  obtain ⟨d, -, hd⟩ := List.exists_of_findSome?_eq_some hm
  exact h.of_declaredMethod? (Option.filter_eq_some_iff.mp hd).1

/-- The method is found for the call, by one of the ways to find it. -/
def FoundFor (p : Program) (i : Invoke) (m : MethodId) : Prop :=
  (∃ c, p.lookup? c i.target.subsig = some m) ∨ (∃ c, p.dispatch? c i.target.subsig = some m) ∨
    (∃ receiver, p.callee? receiver i = some m) ∨ m ∈ ClassHierarchy.targets p i

/-- A method that is found for a call has the subsignature the call names. -/
theorem Coherent.of_foundFor (h : p.Coherent) {i : Invoke} {m : MethodId} (hm : p.FoundFor i m) :
    m < p.methods.size ∧ (p.methodAt m).subsig = i.target.subsig := by
  rcases hm with ⟨c, hm⟩ | ⟨c, hm⟩ | ⟨receiver, hm⟩ | hm
  · exact h.of_lookup? hm
  · exact h.of_dispatch? hm
  · unfold callee? at hm
    split at hm
    · exact h.of_lookup? hm
    · exact h.of_dispatch? hm
    · obtain ⟨ty, -, hm⟩ := Option.bind_eq_some_iff.mp hm
      obtain ⟨c, -, hm⟩ := Option.bind_eq_some_iff.mp hm
      exact h.of_dispatch? hm
    · obtain ⟨ty, -, hm⟩ := Option.bind_eq_some_iff.mp hm
      obtain ⟨c, -, hm⟩ := Option.bind_eq_some_iff.mp hm
      exact h.of_dispatch? hm
    · cases hm
  · unfold ClassHierarchy.targets at hm
    dsimp only at hm
    split at hm
    · exact h.of_lookup? (Option.mem_toList.mp (IdSet.mem_ofList.mp hm))
    · exact h.of_dispatch? (Option.mem_toList.mp (IdSet.mem_ofList.mp hm))
    · obtain ⟨c, -, hm⟩ := List.mem_filterMap.mp (IdSet.mem_ofList.mp hm)
      exact h.of_dispatch? hm
    · obtain ⟨c, -, hm⟩ := List.mem_filterMap.mp (IdSet.mem_ofList.mp hm)
      exact h.of_dispatch? hm
    · exact absurd hm IdSet.not_mem_empty

/-- **A method that is found for a call has a parameter for each argument.** -/
theorem Filled.params_of_foundFor (h : p.Filled) {site : Site} {i : Invoke}
    (hi : p.invoke? site = some i) {m : MethodId} (hm : p.FoundFor i m) :
    (p.methodAt m).params.length = i.args.length := by
  obtain ⟨hlt, hsubsig⟩ := h.coherent.of_foundFor hm
  have harity := (h.coherent.methods m hlt).arity
  rw [hsubsig] at harity
  have hcall := (h.known_of_stmt? (invoke?_eq_some_iff.mp hi)).fits.2.arity
  rw [h.complete m hlt]
  exact Option.some.inj (harity.symm.trans hcall)

/-! ## 5. Well-formed programs -/

/-- **What every analysis relies on.** Three parts hold by construction: a statement and its line
    are one entry of a body (`lines`), and the returned variables and the uses are computed from the
    statements (`returns`, `uses`). -/
structure WellFormed (p : Program) : Prop where
  ids : p.IdsInRange
  jumps : ∀ m, ∀ stmt ∈ (p.methodAt m).stmts, ∀ t ∈ stmt.targets, t < (p.methodAt m).stmts.length
  locals : ∀ {site stmt}, p.stmt? site = some stmt → ∀ v ∈ stmt.vars,
    (p.varAt v).method = site.method ∧
      (p.methodAt site.method).vars[(p.varAt v).localIndex]? = some v
  lines : ∀ m, ((p.methodAt m).body.map (·.line)).size = (p.methodAt m).stmts.length
  loads : ∀ {site x base f}, p.stmt? site = some (.loadField x base f) →
    (base.isSome ↔ (p.fieldAt f).isStatic = false)
  stores : ∀ {site base f y}, p.stmt? site = some (.storeField base f y) →
    (base.isSome ↔ (p.fieldAt f).isStatic = false)
  receivers : ∀ {site i}, p.invoke? site = some i →
    (i.base.isSome ↔ i.kind = .special ∨ i.kind = .virtual ∨ i.kind = .interface)
  declared : ∀ m < p.methods.size,
    p.declaredMethod? (p.methodAt m).owner (p.methodAt m).subsig = some m
  classNames : p.NamesDistinct
  returns : ∀ m, ∃ indices : List Nat, indices.Pairwise (· < ·) ∧
    (∀ i, i ∈ indices ↔ ∃ v, p.stmt? ⟨m, i⟩ = some (.ret (some v))) ∧
    indices.map (fun i => p.stmt? ⟨m, i⟩) =
      (p.methodAt m).returnVars.map fun v => some (.ret (some v))
  uses : ∀ v, p.UsesExact v
  arity : ∀ {site i m}, p.invoke? site = some i → p.FoundFor i m →
    m < p.methods.size ∧ (p.methodAt m).params.length = i.args.length

theorem FieldAccess.isSome_iff {m : MethodId} {base : Option VarId} {f : FieldId}
    (h : p.FieldAccess m base f) : base.isSome ↔ (p.fieldAt f).isStatic = false := by
  rw [h.kind]
  cases base <;> simp

theorem hasReceiver_iff (kind : CallKind) :
    kind.hasReceiver = true ↔ kind = .special ∨ kind = .virtual ∨ kind = .interface := by
  cases kind <;> simp [CallKind.hasReceiver]

/-- **Every program that is read from a text is well formed.** -/
theorem wellFormed_of_ofSource {source : String} (h : ofSource source = .ok p) : p.WellFormed := by
  have hfilled := filled_of_ofSource h
  refine ⟨hfilled.idsInRange, fun m stmt hstmt t ht => ?_, fun {site stmt} hstmt v hv => ?_,
    fun m => ?_, fun hstmt => ?_, fun hstmt => ?_, fun {site i} hi => ?_, fun m hm => ?_,
    hfilled.coherent.names, p.returnVars_inOrder, p.usesExact, fun hi hm => ?_⟩
  · exact (jumpsInside_of_ofSource h).target_lt hstmt ht
  · have hm := method_lt_of_stmt? hstmt
    have hmem := ((hfilled.known_of_stmt? hstmt).vars v hv).mem
    have hvar := hfilled.coherent.vars v (hfilled.coherent.var_lt hm hmem)
    obtain ⟨i, hi⟩ := List.mem_iff_getElem?.mp hmem
    obtain ⟨-, hmethod, -⟩ := (hfilled.coherent.methods _ hm).vars hi
    exact ⟨hmethod, hmethod ▸ hvar.place⟩
  · simp [MethodDecl.stmts]
  · exact FieldAccess.isSome_iff (hfilled.known_of_stmt? hstmt).fits
  · exact FieldAccess.isSome_iff (hfilled.known_of_stmt? hstmt).fits
  · rw [(hfilled.known_of_stmt? (invoke?_eq_some_iff.mp hi)).fits.1]
    exact hasReceiver_iff i.kind
  · exact (hfilled.coherent.methods m hm).declared
  · exact ⟨(hfilled.coherent.of_foundFor hm).1, hfilled.params_of_foundFor hi hm⟩

/-- Every kind of call and of access, labels before and behind the jumps to them, and a class that
    is mentioned before it is declared. -/
def cells : String :=
  "class Cell extends Base implements Shape \x7b
    static field Cell root;
    field Late next;
    method Late step(Late a, int n) \x7b
      var Late[] all;
      var int k;
      Cell.root = this;
      all = new Late[n];
      all[k] = a;
      a = all[k];
      this.next = a;
      a = this.next;
      switch (n) \x7b case -1: done; default: again; \x7d
      again:
      if k < n goto done;
      a = virtualinvoke this.<Cell: Late step(Late, int)>(a, n);
      goto again;
      done:
      return a;
    \x7d
    static method void main() \x7b
      var Cell c;
      var Late l;
      c = new Cell;
      specialinvoke c.<Base: void init()>();
      l = interfaceinvoke c.<Shape: Late pick()>();
      dynamicinvoke <Hidden: void run(Cell)>(c);
      staticinvoke <Cell: void main()>();
      return;
    \x7d
  \x7d
  interface Shape \x7b method Late pick(); \x7d
  class Late \x7b \x7d"

set_option maxRecDepth 4000 in
theorem wellFormed_of_ofSource_cells :
    ∃ p, ofSource cells = .ok p ∧ p.methods.size = 3 ∧ p.WellFormed := by
  obtain ⟨p, hp, hsize⟩ := exists_of_any_ofSource cells (fun p => decide (p.methods.size = 3)) (by
    have htext : cells.toList = _ := String.toList_ofList
    rw [ofSource, lex_eq htext]
    decide +kernel)
  exact ⟨p, hp, of_decide_eq_true hsize, wellFormed_of_ofSource hp⟩

end Program

end ObjectFlow
