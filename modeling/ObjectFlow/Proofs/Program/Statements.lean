/-
  File:      ObjectFlow/Proofs/Program/Statements.lean
  Subject:   STATEMENTS THAT FIT THE PROGRAM THEY ARE READ INTO.

  * `Program.FieldAccess`, `Program.RefKnown`: a field as it is accessed, a method as it is called;
  * `StmtOf.Known`: what is read off a statement when it is read: its variables are those their
    names stand for, its types, fields and methods are known, a field is accessed as it was
    declared, and a call has the arguments its signature lists;
  * `Known.fills`: what is read later does not change that, as names keep their meaning.
-/
import ObjectFlow.Proofs.Program.Declarations
import ObjectFlow.Proofs.Program.Jumps

namespace ObjectFlow

namespace Program

/-! ## 1. Superclasses -/

variable {p q : Program}

theorem superChain_eq (hp : p.Coherent) (h : p.Fills q) (bound : Nat) {c : ClassId}
    (hc : c < p.classes.size) : q.superChain bound c = p.superChain bound c := by
  induction bound generalizing c with
  | zero => rfl
  | succ bound ih =>
    rw [superChain, superChain, h.classAt hc]
    cases hsuper : (p.classAt c).superClass with
    | none => rfl
    | some d =>
      dsimp only
      rw [ih ((hp.classes c hc).superClass d hsuper).1]

/-- A longer chain goes on behind a shorter one. -/
theorem superChain_prefix (p : Program) {bound bound' : Nat} (h : bound ≤ bound') (c : ClassId) :
    p.superChain bound c <+: p.superChain bound' c := by
  induction bound generalizing bound' c with
  | zero => exact List.nil_prefix
  | succ bound ih =>
    obtain ⟨bound', rfl⟩ : ∃ n, bound' = n + 1 := ⟨bound' - 1, by omega⟩
    rw [superChain, superChain, List.prefix_cons_inj]
    split
    · exact ih (Nat.le_of_succ_le_succ h) _
    · exact List.prefix_refl _

theorem mem_superChain_lt (hp : p.Coherent) {bound : Nat} {c d : ClassId} (hc : c < p.classes.size)
    (hd : d ∈ p.superChain bound c) : d < p.classes.size := by
  induction bound generalizing c with
  | zero => exact absurd hd List.not_mem_nil
  | succ bound ih =>
    rw [superChain] at hd
    rcases List.mem_cons.mp hd with rfl | hd
    · exact hc
    · split at hd
      · rename_i parent hparent
        exact ih ((hp.classes c hc).superClass parent hparent).1 hd
      · exact absurd hd List.not_mem_nil

theorem findSome?_of_prefix {α β : Type} {f g : α → Option β} {xs ys : List α} {b : β}
    (h : xs <+: ys) (hfg : ∀ x ∈ xs, g x = f x) (hb : xs.findSome? f = some b) :
    ys.findSome? g = some b := by
  obtain ⟨rest, rfl⟩ := h
  have hsame : xs.findSome? g = xs.findSome? f := by
    clear hb
    induction xs with
    | nil => rfl
    | cons x xs ih =>
      rw [List.findSome?_cons, List.findSome?_cons, hfg x List.mem_cons_self,
        ih fun y hy => hfg y (List.mem_cons_of_mem x hy)]
  rw [List.findSome?_append, hsame, hb]
  rfl

/-- A field that was found stays the one that is found. -/
theorem Fills.resolveField? (h : p.Fills q) (hp : p.Coherent) {c : ClassId}
    (hc : c < p.classes.size) {name : String} {f : FieldId}
    (hf : p.resolveField? c name = some f) : q.resolveField? c name = some f := by
  refine findSome?_of_prefix ?_ (fun d hd => ?_) hf
  · rw [ancestors, ancestors, superChain_eq hp h _ hc]
    exact superChain_prefix p h.classes c
  · exact h.declaredField?_eq (mem_superChain_lt hp hc hd) name

theorem mem_fields_of_declaredField? {c : ClassId} {name : String} {f : FieldId}
    (h : p.declaredField? c name = some f) :
    f ∈ (p.classAt c).fields ∧ (p.fieldAt f).name = name :=
  ⟨List.mem_of_find?_eq_some h, by simpa using List.find?_some h⟩

/-- A field that is found is one of the program, and has the name it was looked for by. -/
theorem Coherent.of_resolveField? (hp : p.Coherent) {c : ClassId} {name : String} {f : FieldId}
    (hf : p.resolveField? c name = some f) : f < p.fields.size ∧ (p.fieldAt f).name = name := by
  obtain ⟨d, -, hd⟩ := List.exists_of_findSome?_eq_some hf
  obtain ⟨hmem, hname⟩ := mem_fields_of_declaredField? hd
  refine ⟨?_, hname⟩
  rcases Nat.lt_or_ge d p.classes.size with hlt | hge
  · exact (hp.classes d hlt).fields f hmem
  · -- past the end of the table stands a class without members
    have hnone : p.classAt d = default := by simp [classAt, hge]
    rw [hnone] at hmem
    exact absurd hmem List.not_mem_nil

/-! ## 2. Variables by name -/

/-- In the method, the name of the variable stands for it. -/
def Named (p : Program) (m : MethodId) (v : VarId) : Prop := p.varByName? m (p.varName v) = some v

/-- **Declarations and the meaning of names stay as they are** from `p` to `q`. -/
structure FillsBodies (p q : Program) : Prop extends Fills p q where
  varByName : ∀ {m name v}, m < p.methods.size → p.varByName? m name = some v →
    q.varByName? m name = some v

theorem FillsBodies.refl (p : Program) : p.FillsBodies p := ⟨.refl p, fun _ h => h⟩

theorem FillsBodies.trans {r : Program} (h : p.FillsBodies q) (h' : q.FillsBodies r) :
    p.FillsBodies r :=
  ⟨h.toFills.trans h'.toFills, fun hm hv =>
    h'.varByName (Nat.lt_of_lt_of_le hm h.methods) (h.varByName hm hv)⟩

theorem named_of_varByName? {m : MethodId} {name : String} {v : VarId}
    (h : p.varByName? m name = some v) : p.Named m v := by
  have hname : p.varName v = name := by simpa using List.find?_some h
  rw [Named, hname]
  exact h

theorem Named.mem {m : MethodId} {v : VarId} (h : p.Named m v) : v ∈ (p.methodAt m).vars :=
  List.mem_reverse.mp (List.mem_of_find?_eq_some h)

theorem Coherent.var_lt (hp : p.Coherent) {m : MethodId} (hm : m < p.methods.size) {v : VarId}
    (hv : v ∈ (p.methodAt m).vars) : v < p.vars.size := by
  obtain ⟨i, hi⟩ := List.mem_iff_getElem?.mp hv
  exact ((hp.methods m hm).vars hi).1

theorem Named.fills {m : MethodId} {v : VarId} (h : p.Named m v) (hp : p.Coherent)
    (hf : p.FillsBodies q) (hm : m < p.methods.size) : q.Named m v := by
  rw [Named, hf.varName_eq (hp.var_lt hm h.mem)]
  exact hf.varByName hm h

/-! ## 3. Statements -/

/-- A field access as it is written: through a variable of a class that has the field, or through
    a class when the field is static. -/
structure FieldAccess (p : Program) (m : MethodId) (base : Option VarId) (f : FieldId) : Prop where
  field : f < p.fields.size
  kind : (p.fieldAt f).isStatic = base.isNone
  found : ∀ b ∈ base, p.Named m b ∧
    ∃ c, (p.varTy b).class? = some c ∧ p.resolveField? c (p.fieldAt f).name = some f

/-- A method as a call names it, with the number of its arguments. -/
structure RefKnown (p : Program) (r : MethodRef) (arity : Nat) : Prop where
  owner : r.owner < p.classes.size
  subsig : r.subsig < p.subsigs.size
  arity : subsigArity? (p.subsigAt r.subsig) = some arity
  /-- The signature the class and the subsignature were cut from. -/
  written : ∃ text subsig, IsSignature text ∧
    cutSignature? text = some ((p.classAt r.owner).name, subsig) ∧
    p.subsigAt r.subsig = normalSubsig subsig

theorem RefKnown.fills {r : MethodRef} {arity : Nat} (h : p.RefKnown r arity) (hf : p.Fills q) :
    q.RefKnown r arity := by
  refine ⟨Nat.lt_of_lt_of_le h.owner hf.classes, Nat.lt_of_lt_of_le h.subsig hf.subsigs, ?_, ?_⟩
  · rw [hf.subsigAt h.subsig]
    exact h.arity
  · rw [hf.subsigAt h.subsig, hf.className h.owner]
    exact h.written

theorem FieldAccess.fills {m : MethodId} {base : Option VarId} {f : FieldId}
    (h : p.FieldAccess m base f) (hp : p.Coherent) (hf : p.FillsBodies q)
    (hm : m < p.methods.size) : q.FieldAccess m base f := by
  have hfield := hf.fieldAt h.field
  refine ⟨Nat.lt_of_lt_of_le h.field hf.fields, ?_, fun b hb => ?_⟩
  · rw [hfield]
    exact h.kind
  · obtain ⟨hnamed, c, hc, hresolve⟩ := h.found b hb
    have hlt := hp.var_lt hm hnamed.mem
    refine ⟨hnamed.fills hp hf hm, c, hf.varTy_eq hlt ▸ hc, ?_⟩
    rw [hfield]
    exact hf.toFills.resolveField? hp ((hp.vars b hlt).ty.class_lt hc) hresolve

end Program

namespace StmtOf

variable {τ : Type} {p q : Program}

/-- The types, fields and methods in the statement fit the program. -/
def Fits (p : Program) (m : MethodId) : StmtOf τ → Prop
  | .alloc _ ty length => ty.Known p ∧ (length.isSome → ∃ elem, ty = .array elem)
  | .assign _ (.cast ty _) => ty.Known p
  | .loadField _ base field => p.FieldAccess m base field
  | .storeField base field _ => p.FieldAccess m base field
  | .call i => i.base.isSome = i.kind.hasReceiver ∧ p.RefKnown i.target i.args.length
  | .branch _ op _ _ => op.isComparison = true
  | .ret none => (p.methodAt m).retType = .prim .void
  | _ => True

/-- **What is known of a statement of the method `m` once it has been read.** -/
structure Known (p : Program) (m : MethodId) (stmt : StmtOf τ) : Prop where
  vars : ∀ v ∈ stmt.defined?.toList ++ stmt.uses, p.Named m v
  fits : stmt.Fits p m

theorem Fits.fills {m : MethodId} {stmt : StmtOf τ} (h : stmt.Fits p m) (hp : p.Coherent)
    (hf : p.FillsBodies q) (hm : m < p.methods.size) : stmt.Fits q m := by
  cases stmt with
  | alloc lhs ty length => exact ⟨h.1.grows hf.toGrows, h.2⟩
  | assign lhs rhs =>
    cases rhs with
    | cast ty v => exact Ty.Known.grows h hf.toGrows
    | _ => trivial
  | loadField lhs base field => exact Program.FieldAccess.fills h hp hf hm
  | storeField base field rhs => exact Program.FieldAccess.fills h hp hf hm
  | call i => exact ⟨h.1, h.2.fills hf.toFills⟩
  | branch left op right target => exact h
  | ret value =>
    cases value with
    | none => exact ((congrArg MethodDecl.retType (hf.header m) :)).trans h
    | some v => trivial
  | _ => trivial

/-- What is read later leaves a statement as known as it was. -/
theorem Known.fills {m : MethodId} {stmt : StmtOf τ} (h : stmt.Known p m) (hp : p.Coherent)
    (hf : p.FillsBodies q) (hm : m < p.methods.size) : stmt.Known q m :=
  ⟨fun v hv => (h.vars v hv).fills hp hf hm, h.fits.fills hp hf hm⟩

/-- What is known of a statement does not depend on where it jumps. -/
theorem Known.resolve {ε τ' : Type} {f : τ → Except ε τ'} {m : MethodId} {stmt : StmtOf τ}
    {stmt' : StmtOf τ'} (h : stmt.Known p m) (hresolve : stmt.resolve f = .ok stmt') :
    stmt'.Known p m := by
  cases stmt with
  | branch left op right target =>
    obtain ⟨i, -, hresolve⟩ := Reader.bind_eq_ok hresolve
    cases hresolve
    exact ⟨h.vars, h.fits⟩
  | jump target =>
    obtain ⟨i, -, hresolve⟩ := Reader.bind_eq_ok hresolve
    cases hresolve
    exact ⟨h.vars, h.fits⟩
  | switch on cases otherwise =>
    obtain ⟨cases', -, hresolve⟩ := Reader.bind_eq_ok hresolve
    obtain ⟨i, -, hresolve⟩ := Reader.bind_eq_ok hresolve
    cases hresolve
    exact ⟨h.vars, h.fits⟩
  | assign lhs rhs =>
    cases hresolve
    cases rhs <;> exact ⟨h.vars, h.fits⟩
  | ret value =>
    cases hresolve
    cases value <;> exact ⟨h.vars, h.fits⟩
  | _ =>
    cases hresolve
    exact ⟨h.vars, h.fits⟩

end StmtOf

end ObjectFlow
