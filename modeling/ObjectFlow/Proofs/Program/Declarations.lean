/-
  File:      ObjectFlow/Proofs/Program/Declarations.lean
  Subject:   WHEN ALL DECLARATIONS HAVE BEEN READ, THEY FIT TOGETHER.

  * `Program.Declared`: declarations fit, every method has a variable for each of its parameters,
    and no method has a body yet;
  * `Declaring.addThis`, `Declaring.addParams`: a method between its declaration and its last
    parameter;
  * one lemma for each reader of declarations, up to `reads_readClasses`.
-/
import ObjectFlow.Proofs.Program.Reading
import ObjectFlow.Proofs.Program.Subsignatures

namespace ObjectFlow

namespace Program

/-! ## 1. Programs of declarations -/

/-- Every method has as many parameters as its declaration lists. -/
def Complete (p : Program) : Prop :=
  ∀ m < p.methods.size, (p.methodAt m).params.length = (p.methodAt m).paramTypes.length

def Bodyless (p : Program) : Prop := ∀ m, (p.methodAt m).body = #[]

/-- **What holds of a program while its declarations are read.** -/
structure Declared (p : Program) : Prop where
  coherent : p.Coherent
  complete : p.Complete
  bodyless : p.Bodyless

theorem declared_empty : ({} : Program).Declared where
  coherent := coherent_empty
  complete _ hm := absurd hm (Nat.not_lt_zero _)
  bodyless _ := rfl

variable {p q : Program}

/-- Only methods can become incomplete. -/
theorem Declared.sameMethods (h : p.Declared) (hq : q.Coherent) (hmethods : q.methods = p.methods) :
    q.Declared where
  coherent := hq
  complete m hm := by
    rw [hmethods] at hm
    rw [methodAt, hmethods]
    exact h.complete m hm
  bodyless m := by
    rw [methodAt, hmethods]
    exact h.bodyless m

theorem Declared.internClass (h : p.Declared) (name : String) : (p.internClass name).2.Declared := by
  refine h.sameMethods (h.coherent.internClass name) ?_
  rcases p.internClass_cases name with ⟨c, -, -, heq⟩ | ⟨-, heq⟩ <;> rw [heq]

theorem Declared.internSubsig (h : p.Declared) (text : String) :
    (p.internSubsig text).2.Declared := by
  refine h.sameMethods (h.coherent.internSubsig text) ?_
  rcases p.internSubsig_cases text with ⟨s, -, -, heq⟩ | ⟨-, heq⟩ <;> rw [heq]

/-! ## 2. A method and its parameters -/

/-- The method `m` has been declared with parameters of the types `types`, and the first `seen` of
    them are known. -/
structure Declaring (p : Program) (m : MethodId) (types : List Ty) (seen : Nat) : Prop where
  coherent : p.Coherent
  bodyless : p.Bodyless
  lt : m < p.methods.size
  others : ∀ n < p.methods.size, n ≠ m →
    (p.methodAt n).params.length = (p.methodAt n).paramTypes.length
  types : (p.methodAt m).paramTypes = types
  seen : (p.methodAt m).params.length = seen

/-- When all parameters are known, the method is complete. -/
theorem Declaring.declared {m : MethodId} {types : List Ty} (h : p.Declaring m types types.length) :
    p.Declared where
  coherent := h.coherent
  complete n hn := by
    by_cases hnm : n = m
    · rw [hnm, h.seen, h.types]
    · exact h.others n hn hnm
  bodyless := h.bodyless

/-- A variable of the method that is made its receiver or a parameter. -/
theorem Declaring.addNamed {m : MethodId} {types : List Ty} {seen : Nat}
    (h : p.Declaring m types seen) {name : String} (hname : IsName name) {ty : Ty}
    (hty : ty.Known p) (this : Option VarId) (params : List VarId)
    (hthis : ∀ v ∈ this, v ∈ ((p.addVar m name ty).2.methodAt m).vars)
    (hparams : ∀ v ∈ params, v ∈ ((p.addVar m name ty).2.methodAt m).vars)
    {f : MethodDecl → MethodDecl}
    (hf : f ((p.addVar m name ty).2.methodAt m) =
      { (p.addVar m name ty).2.methodAt m with this := this, params := params }) :
    ((p.addVar m name ty).2.modifyMethod m f).Declaring m types params.length := by
  have hm : m < (p.addVar m name ty).2.methods.size :=
    Nat.lt_of_lt_of_le h.lt (fills_addVar h.lt name ty).methods
  have hat : ∀ n, ((p.addVar m name ty).2.modifyMethod m f).methodAt n =
      if n = m then { (p.addVar m name ty).2.methodAt m with this := this, params := params }
      else p.methodAt n := by
    intro n
    rw [methodAt_modifyMethod _ m n f hm, hf]
    split
    · rfl
    · rename_i hnm
      rw [methodAt_addVar h.lt, if_neg hnm]
  have hsize : ((p.addVar m name ty).2.modifyMethod m f).methods.size = p.methods.size := by
    simp [modifyMethod, Program.addVar]
  have hnew := (hat m).trans (if_pos rfl)
  refine ⟨(h.coherent.addVar h.lt hname hty).nameVars hm hthis hparams hf, fun n => ?_, ?_,
    fun n hn hnm => ?_, ?_, ?_⟩
  · rw [hat]
    split
    · rw [methodAt_addVar h.lt, if_pos rfl]
      exact h.bodyless m
    · exact h.bodyless n
  · rw [hsize]
    exact h.lt
  · rw [hat, if_neg hnm]
    exact h.others n (hsize ▸ hn) hnm
  · rw [hnew, methodAt_addVar h.lt, if_pos rfl]
    exact h.types
  · rw [hnew]

theorem grows_nameVars {m : MethodId} (hm : m < p.methods.size) {f : MethodDecl → MethodDecl}
    (hvars : (f (p.methodAt m)).vars = (p.methodAt m).vars) : p.Grows (p.modifyMethod m f) :=
  { Grows.refl p with
    methods := by simp [modifyMethod]
    methodVars := fun {n} _ =>
      kept_modifyMethod p hm MethodDecl.vars hvars n ▸ List.prefix_refl _ }

theorem Declaring.addThis {m : MethodId} {types : List Ty} (h : p.Declaring m types 0)
    {owner : ClassId} (howner : (Ty.object owner).Known p) :
    (p.addThis m owner).Declaring m types 0 ∧ p.Grows (p.addThis m owner) := by
  have hvars : ((p.addVar m "this" (.object owner)).2.methodAt m).vars =
      (p.methodAt m).vars ++ [p.vars.size] := by rw [methodAt_addVar h.lt, if_pos rfl]
  have hparams : ((p.addVar m "this" (.object owner)).2.methodAt m).params = [] := by
    rw [methodAt_addVar h.lt, if_pos rfl]
    exact List.length_eq_zero_iff.mp h.seen
  have hfills := fills_addVar h.lt "this" (.object owner)
  refine ⟨?_, hfills.toGrows.trans (grows_nameVars (Nat.lt_of_lt_of_le h.lt hfills.methods) rfl)⟩
  refine h.addNamed isName_this howner (some p.vars.size) [] ?_
    (fun v hv => absurd hv List.not_mem_nil) ?_
  · intro v hv
    cases hv
    rw [hvars]
    exact List.mem_append_right _ List.mem_cons_self
  · rw [← hparams]

theorem Declaring.addParam {m : MethodId} {types : List Ty} {seen : Nat}
    (h : p.Declaring m types seen) {name : String} (hname : IsName name) {ty : Ty}
    (hty : ty.Known p) :
    (p.addParam m name ty).Declaring m types (seen + 1) ∧ p.Grows (p.addParam m name ty) := by
  have hold : ∀ {v}, v ∈ (p.methodAt m).vars → v ∈ ((p.addVar m name ty).2.methodAt m).vars :=
    fun hv => (fills_addVar h.lt name ty).mem_vars h.lt hv
  have hmethod := h.coherent.methods m h.lt
  have hthis : ((p.addVar m name ty).2.methodAt m).this = (p.methodAt m).this := by
    rw [methodAt_addVar h.lt, if_pos rfl]
  have hparams : ((p.addVar m name ty).2.methodAt m).params = (p.methodAt m).params := by
    rw [methodAt_addVar h.lt, if_pos rfl]
  have hfills := fills_addVar h.lt name ty
  refine ⟨?_, hfills.toGrows.trans (grows_nameVars (Nat.lt_of_lt_of_le h.lt hfills.methods) rfl)⟩
  have hseen : ((p.methodAt m).params ++ [p.vars.size]).length = seen + 1 := by
    rw [List.length_append, h.seen]
    rfl
  rw [← hseen]
  refine h.addNamed hname hty (p.methodAt m).this _ (fun v hv => hold (hmethod.this v hv))
    (fun v hv => ?_) ?_
  · rcases List.mem_append.mp hv with hv | hv
    · exact hold (hmethod.params v hv)
    · rw [methodAt_addVar h.lt, if_pos rfl, List.mem_singleton.mp hv]
      exact List.mem_append_right _ List.mem_cons_self
  · rw [← hthis, ← hparams]

theorem Declaring.addParams {m : MethodId} {types : List Ty} {seen : Nat}
    {params : List (String × Ty)} (h : p.Declaring m types seen)
    (hparams : ∀ x ∈ params, IsName x.1 ∧ x.2.Known p) :
    (params.foldl (fun p (name, ty) => p.addParam m name ty) p).Declaring m types
        (seen + params.length) ∧
      p.Grows (params.foldl (fun p (name, ty) => p.addParam m name ty) p) := by
  induction params generalizing p seen with
  | nil => exact ⟨h, .refl p⟩
  | cons x params ih =>
    have hx := hparams x List.mem_cons_self
    obtain ⟨hfirst, hgrows⟩ := h.addParam hx.1 hx.2
    obtain ⟨hrest, hgrows'⟩ := ih hfirst fun y hy =>
      let hy := hparams y (List.mem_cons_of_mem x hy)
      ⟨hy.1, hy.2.grows hgrows⟩
    refine ⟨?_, hgrows.trans hgrows'⟩
    rw [List.length_cons, Nat.add_comm params.length 1, ← Nat.add_assoc]
    exact hrest

/-- A method that has just been declared. -/
theorem Declared.addMethod (h : p.Declared) {d : MethodDecl} (hd : p.Admits d)
    (hbody : d.body = #[]) :
    (p.addMethod d).2.Declaring p.methods.size d.paramTypes 0 := by
  have hat : ∀ n, (p.addMethod d).2.methodAt n = if n = p.methods.size then d else p.methodAt n :=
    fun n => getD_push p.methods d n default
  have hnew := (hat p.methods.size).trans (if_pos rfl)
  have hsize : (p.addMethod d).2.methods.size = p.methods.size + 1 := by
    simp [Program.addMethod, modifyClass]
  refine ⟨h.coherent.addMethod hd, fun n => ?_, ?_, fun n hn hne => ?_, ?_, ?_⟩
  · rw [hat]
    split
    · exact hbody
    · exact h.bodyless n
  · rw [hsize]
    exact Nat.lt_succ_self _
  · rw [hsize] at hn
    rw [hat, if_neg hne]
    exact h.complete n (Nat.lt_of_le_of_ne (Nat.le_of_lt_succ hn) hne)
  · rw [hnew]
  · rw [hnew, hd.params]
    rfl

end Program

/-! ## 3. Members -/

/-- Declarations are read. -/
def Phase.declarations : Phase where
  Holds := Program.Declared
  To := Program.Grows
  refl := Program.Grows.refl
  trans := Program.Grows.trans

theorem mentions_declarations : Phase.declarations.Mentions where
  internClass hp name := ⟨hp.internClass name, (Program.internClass_spec _ name).1.toGrows⟩
  internSubsig hp text := ⟨hp.internSubsig text, (Program.internSubsig_spec _ text).1.toGrows⟩

/-- A body that was passed over belongs to a method of the program. -/
def PendingBody.Ready (p : Program) (body : PendingBody) : Prop :=
  body.method < p.methods.size ∧ Reader.Spelled body.tokens

theorem PendingBody.Ready.grows {p q : Program} {body : PendingBody} (h : body.Ready p)
    (hg : p.Grows q) : body.Ready q :=
  ⟨Nat.lt_of_lt_of_le h.1 hg.methods, h.2⟩

namespace Reader

open Program

variable {α β : Type} {p : Program} {owner : ClassId}

theorem peeks_get : Peeks p get fun s => s.program = p ∧ Spelled s.tokens := by
  intro tokens d a s _ ht hrun
  cases hrun
  exact ⟨trivial, rfl, ht, rfl, ht⟩

theorem peeks_skipBody : Peeks p skipBody fun _ => True := by
  refine (peeks_expect _).after fun opening _ => ?_
  refine peeks_get.after fun s hs => ?_
  split
  · rename_i rest hrest
    intro tokens d a t _ _ hrun
    cases hrun
    refine ⟨trivial, hs.1, fun u hu => ?_, trivial⟩
    exact hs.2 u ((skipBlock?_suffix hrest).mem hu)
  · exact reads_fail

theorem reads_readField (howner : (Ty.object owner).Known p) (isStatic : Bool) :
    Reads .declarations p (readField owner isStatic) fun _ _ => True := by
  refine (reads_readType mentions_declarations).bind fun q ty _ hpq hty => ?_
  refine peeks_identifier.after fun (found, name) hname => ?_
  refine (peeks_expect _).dropped.after fun _ _ => ?_
  refine peeks_program.after fun _ hq => ?_
  subst hq
  refine reads_guard fun hfresh => reads_update fun hq => ?_
  have howner := howner.grows hpq
  refine ⟨hq.sameMethods (hq.coherent.addField howner hname hty ?_) rfl, grows_addField howner.1,
    trivial⟩
  simpa using hfresh

theorem reads_readParam :
    Reads .declarations p readParam fun q x => IsName x.1 ∧ x.2.Known q := by
  refine (reads_readType mentions_declarations).bind fun q ty _ _ hty => ?_
  exact peeks_identifier.after fun (_, name) hname => reads_pure ⟨hname, hty⟩

theorem reads_readParams :
    Reads .declarations p readParams fun q params => ∀ x ∈ params, IsName x.1 ∧ x.2.Known q := by
  have hclose : ∀ {q : Program} {params : List (String × Ty)},
      (∀ x ∈ params, IsName x.1 ∧ x.2.Known q) →
      Reads .declarations q (discard (expect (.mark .rightParen)) >>= fun _ => pure params)
        fun q params => ∀ x ∈ params, IsName x.1 ∧ x.2.Known q := fun h =>
    (peeks_expect _).dropped.after fun _ _ => reads_pure h
  refine (peeks_expect _).dropped.after fun _ _ => ?_
  refine (peeks_check _).after fun empty _ => ?_
  dsimp only
  split
  · exact hclose fun x hx => absurd hx List.not_mem_nil
  · refine Reads.bind (reads_commas ?_ fun q _ => reads_readParam) fun q params _ _ h => hclose h
    exact fun q r x hqr hx => ⟨hx.1, hx.2.grows hqr⟩

/-- Two changes of the program, one right after the other, are one. -/
theorem reads_update_modify {φ : Phase} {f : Program → α × Program} {g : α → Program → Program}
    {k : α → Reader β} {post : Program → β → Prop}
    (h : Reads φ p ((update fun q => ((f q).1, g (f q).1 (f q).2)) >>= k) post) :
    Reads φ p (update f >>= fun a => modifyProgram (g a) >>= fun _ => k a) post := h

/-- A method, its receiver and its parameters enter the program together. -/
theorem reads_enterMethod {d : MethodDecl} (hd : p.Admits d) (hbody : d.body = #[])
    {params : List (String × Ty)} (htypes : d.paramTypes = params.map (·.2))
    (hparams : ∀ x ∈ params, IsName x.1 ∧ x.2.Known p) :
    Reads .declarations p (enterMethod d params) fun q m => m < q.methods.size := by
  have hgrows := grows_addMethod hd.owner.1
  -- the method without parameters, and then with all of them
  have hlater : ∀ {q : Program} {m : MethodId}, p.Grows q → q.Declaring m d.paramTypes 0 →
      let r := params.foldl (fun p (name, ty) => p.addParam m name ty) q
      r.Declared ∧ p.Grows r ∧ m < r.methods.size := by
    intro q m hpq hq
    obtain ⟨hr, hqr⟩ := hq.addParams fun x hx => ⟨(hparams x hx).1, (hparams x hx).2.grows hpq⟩
    have hlength : 0 + params.length = d.paramTypes.length := by
      rw [Nat.zero_add, htypes, List.length_map]
    rw [hlength] at hr
    exact ⟨hr.declared, hpq.trans hqr, hr.lt⟩
  unfold enterMethod
  cases d.isStatic with
  | true =>
    refine reads_update_modify ?_
    refine Reads.bind (reads_update fun hp => ?_) fun q m _ _ hm => reads_pure hm
    exact hlater hgrows (hp.addMethod hd hbody)
  | false =>
    refine reads_update_modify (reads_update_modify ?_)
    refine Reads.bind (reads_update fun hp => ?_) fun q m _ _ hm => reads_pure hm
    obtain ⟨hthis, hgrows'⟩ := (hp.addMethod hd hbody).addThis (hd.owner.grows hgrows)
    exact hlater (hgrows.trans hgrows') hthis

theorem reads_readHeader (howner : (Ty.object owner).Known p) (isStatic isAbstract : Bool)
    (start : LineToken) :
    Reads .declarations p (readHeader owner isStatic isAbstract start)
      fun q header => header.1 < q.methods.size := by
  refine (reads_readType mentions_declarations).bind fun p₁ retType _ hgrows₁ hret => ?_
  refine peeks_identifier.after fun (found, name) hname => ?_
  refine reads_readParams.bind fun p₂ params _ hgrows₂ hparams => ?_
  refine peeks_program.after fun _ hp₂ => ?_
  subst hp₂
  have hret := hret.grows hgrows₂
  have howner := (howner.grows hgrows₁).grows hgrows₂
  refine (reads_internSubsig mentions_declarations _).bind
    fun p₃ id _ _ ⟨hfills, hid, htext⟩ => ?_
  refine reads_guard fun hfresh => ?_
  refine (peeks_check _).after fun hasBody _ => ?_
  refine reads_guard fun _ => ?_
  have hgrows₃ := hfills.toGrows
  have hknown : ∀ t ∈ params.map (·.2), t.Known p₂ := by
    intro t ht
    obtain ⟨x, hx, rfl⟩ := List.mem_map.mp ht
    exact (hparams x hx).2
  have hfresh : p₃.declaredMethod? owner id = none := by
    rw [hfills.declaredMethod?_eq howner.1]
    simpa using hfresh
  have hspelled : p₃.subsigAt id = p₃.declaredSubsig retType name (params.map (·.2)) := by
    rw [htext, hgrows₃.declaredSubsig_eq hret name hknown]
    rfl
  exact (reads_enterMethod ⟨howner.grows hgrows₃, hname, hid, fun t ht => (hknown t ht).grows hgrows₃,
      hret.grows hgrows₃, hfresh, hspelled, rfl, rfl, rfl⟩ rfl rfl fun x hx =>
      ⟨(hparams x hx).1, (hparams x hx).2.grows hgrows₃⟩).bind
    fun q m _ _ hm => reads_pure hm

theorem reads_readRest {header : MethodId × Bool} (hm : header.1 < p.methods.size) :
    Reads .declarations p (readRest header) fun q body => ∀ b ∈ body, b.Ready q := by
  unfold readRest
  split
  · refine peeks_get.after fun s hs => ?_
    refine peeks_skipBody.after fun _ _ => reads_pure fun b hb => ?_
    cases hb
    exact ⟨hm, hs.2⟩
  · refine (peeks_expectOr _ _).dropped.after fun _ _ => reads_pure fun b hb => ?_
    cases hb

theorem reads_readMemberHead (howner : (Ty.object owner).Known p) :
    Reads .declarations p (readMemberHead owner) fun q header? =>
      ∀ header ∈ header?, header.1 < q.methods.size := by
  refine (peeks_accept _).after fun isStatic _ => ?_
  refine (peeks_accept _).after fun isAbstract _ => ?_
  refine (peeks_accept _).after fun isField _ => ?_
  split
  · exact (reads_readField howner isStatic).bind fun _ _ _ _ _ => reads_pure fun b hb => by cases hb
  · refine (peeks_expectOr _ _).after fun start _ => ?_
    refine ((reads_readHeader howner isStatic isAbstract start).mono ?_).map some
    exact fun q header _ hm h hh => Option.some.inj hh ▸ hm

theorem reads_readMember (howner : (Ty.object owner).Known p) :
    Reads .declarations p (readMember owner) fun q body => ∀ b ∈ body, b.Ready q := by
  refine (reads_readMemberHead howner).bind fun q header? _ _ hheader => ?_
  cases header? with
  | none => exact reads_pure fun b hb => by cases hb
  | some header => exact reads_readRest (hheader header rfl)

theorem reads_readMembers (howner : (Ty.object owner).Known p) (bound : Nat) :
    Reads .declarations p (readMembers owner bound) fun q bodies => ∀ b ∈ bodies, b.Ready q := by
  induction bound generalizing p with
  | zero => exact reads_pure fun b hb => absurd hb List.not_mem_nil
  | succ bound ih =>
    refine (peeks_check _).after fun closed _ => ?_
    split
    · exact reads_pure fun b hb => absurd hb List.not_mem_nil
    · refine peeks_atEnd.after fun ended _ => ?_
      split
      · exact peeks_peek.after fun _ _ => reads_fail_bind
      · refine (reads_readMember howner).bind fun q body _ hpq hbody => ?_
        refine (ih (howner.grows hpq)).bind fun r bodies _ hqr hbodies => reads_pure fun b hb => ?_
        rcases List.mem_append.mp hb with hb | hb
        · exact (hbody b (Option.mem_toList.mp hb)).grows hqr
        · exact hbodies b hb

/-! ## 4. Classes -/

theorem reads_readClassName :
    Reads .declarations p readClassName fun q c => (Ty.object c).Known q :=
  peeks_identifier.after fun (_, name) hname =>
    (reads_internClass mentions_declarations name).mono fun _ _ _ hc => ⟨hc.1, hc.2 ▸ hname⟩

theorem reads_classNames :
    Reads .declarations p (commas readClassName) fun q cs => ∀ c ∈ cs, (Ty.object c).Known q :=
  reads_commas (fun _ _ _ hqr hc => hc.grows hqr) fun _ _ => reads_readClassName

theorem reads_readSupertypes (isInterface : Bool) :
    Reads .declarations p (readSupertypes isInterface) fun q x =>
      (∀ c ∈ x.1, (Ty.object c).Known q) ∧ ∀ c ∈ x.2, (Ty.object c).Known q := by
  unfold readSupertypes
  split
  · refine (peeks_accept _).after fun extended _ => ?_
    split
    · exact reads_classNames.bind fun q cs _ _ hcs => reads_pure ⟨fun c hc => (by cases hc), hcs⟩
    · exact reads_pure ⟨fun c hc => (by cases hc), fun c hc => (by cases hc)⟩
  · -- what follows the superclass, if there is one
    have hinterfaces : ∀ {q : Program} {superClass : Option ClassId},
        (∀ c ∈ superClass, (Ty.object c).Known q) →
        Reads .declarations q
          (do
            let interfaces ←
              if ← accept (.keyword .implementsClause) then commas readClassName else pure []
            return (superClass, interfaces)) fun q x =>
          (∀ c ∈ x.1, (Ty.object c).Known q) ∧ ∀ c ∈ x.2, (Ty.object c).Known q := by
      intro q superClass hsuper
      refine (peeks_accept _).after fun implementing _ => ?_
      dsimp only
      split
      · exact reads_classNames.bind fun r cs _ hqr hcs =>
          reads_pure ⟨fun c hc => (hsuper c hc).grows hqr, hcs⟩
      · exact reads_pure ⟨hsuper, fun c hc => (by cases hc)⟩
    refine (peeks_accept _).after fun extended _ => ?_
    dsimp only
    split
    · have hclass : Reads .declarations p (some <$> readClassName) fun q superClass =>
          ∀ c ∈ superClass, (Ty.object c).Known q :=
        (reads_readClassName.mono fun q c _ hc d hd => Option.some.inj hd ▸ hc).map some
      exact hclass.bind fun q superClass _ _ hsuper => hinterfaces hsuper
    · exact hinterfaces fun c hc => by cases hc

theorem reads_readNamedClass (isAbstract isInterface : Bool) :
    Reads .declarations p (readNamedClass isAbstract isInterface) fun q c => (Ty.object c).Known q := by
  refine peeks_identifier.after fun x hname => ?_
  refine (reads_internClass mentions_declarations x.2).bind fun p₁ owner _ _ howner => ?_
  refine peeks_program.after fun _ _ => reads_guard fun _ => ?_
  refine (reads_readSupertypes isInterface).bind fun p₂ supertypes _ hgrows hsuper => ?_
  have hc := Nat.lt_of_lt_of_le howner.1 hgrows.classes
  have hknown : (Ty.object owner).Known p₂ := by
    refine ⟨hc, ?_⟩
    rw [hgrows.className howner.1, howner.2]
    exact hname
  refine Reads.bind (reads_update fun hp => ?_) fun p₃ _ _ hgrows₃ (_ : True) =>
    reads_pure (hknown.grows hgrows₃)
  exact ⟨hp.sameMethods (hp.coherent.declareClass hknown rfl rfl rfl hsuper.1 hsuper.2) rfl,
    grows_modifyClass hc rfl, trivial⟩

theorem reads_readClassHead :
    Reads .declarations p readClassHead fun q c => (Ty.object c).Known q := by
  refine (peeks_accept _).after fun isAbstract _ => ?_
  refine (peeks_accept _).after fun isInterface _ => ?_
  dsimp only
  split
  · exact (peeks_expectOr _ _).dropped.after fun _ _ => reads_readNamedClass isAbstract isInterface
  · exact reads_readNamedClass isAbstract isInterface

theorem reads_readClass :
    Reads .declarations p readClass fun q bodies => ∀ b ∈ bodies, b.Ready q := by
  refine reads_readClassHead.bind fun q owner _ _ howner => ?_
  refine (peeks_expect _).dropped.after fun _ _ => ?_
  refine peeks_remaining.after fun bound _ => ?_
  refine (reads_readMembers howner bound).bind fun q bodies _ _ hbodies => ?_
  exact (peeks_expect _).dropped.after fun _ _ => reads_pure hbodies

/-- **When the classes have been read, their declarations fit together**, and every body that is
    left belongs to one of the methods. -/
theorem reads_readClasses (bound : Nat) :
    Reads .declarations p (readClasses bound) fun q bodies => ∀ b ∈ bodies, b.Ready q := by
  induction bound generalizing p with
  | zero => exact reads_pure fun b hb => absurd hb List.not_mem_nil
  | succ bound ih =>
    refine peeks_atEnd.after fun ended _ => ?_
    split
    · exact reads_pure fun b hb => absurd hb List.not_mem_nil
    · refine reads_readClass.bind fun q bodies _ _ hbodies => ?_
      refine ih.bind fun r later _ hqr hlater => reads_pure fun b hb => ?_
      rcases List.mem_append.mp hb with hb | hb
      · exact (hbodies b hb).grows hqr
      · exact hlater b hb

end Reader

end ObjectFlow
