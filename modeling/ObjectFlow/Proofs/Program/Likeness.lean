/-
  File:      ObjectFlow/Proofs/Program/Likeness.lean
  Subject:   PROGRAMS THAT ARE ALIKE: the same declarations, variables and statements, up to the
             numbers of what is only mentioned.

  Classes that are not declared, and subsignatures that no method declares, get their numbers when
  they are first mentioned. Two programs that mention them in another order number them otherwise;
  their types and calls are the same when they are the same by name.

  * `Ty.Alike`, `MethodRef.Alike`, `StmtOf.Alike`: types, calls and statements by name;
  * `Fills.resolveField?_eq`: what is only mentioned does not change which field a name stands for;
  * `Program.Writes`: a program with more variables in one of its methods;
  * `Program.Kin`: two programs that hold the same declarations;
  * `Program.Alike`: and the same variables and bodies.
-/
import Mathlib.Data.Fintype.Pigeonhole
import ObjectFlow.Proofs.Program.Bodies

namespace ObjectFlow

/-! ## 1. Types, calls and statements by name -/

/-- Classes of one name. -/
structure ClassAlike (p q : Program) (c c' : ClassId) : Prop where
  left : c < p.classes.size
  right : c' < q.classes.size
  name : (q.classAt c').name = (p.classAt c).name

/-- Types of one name. -/
def Ty.Alike (p q : Program) : Ty → Ty → Prop
  | .prim t, .prim t' => t' = t
  | .object c, .object c' => ClassAlike p q c c'
  | .array elem, .array elem' => elem.Alike p q elem'
  | _, _ => False

/-- Methods of one class and subsignature. -/
structure MethodRef.Alike (p q : Program) (r r' : MethodRef) : Prop where
  owner : ClassAlike p q r.owner r'.owner
  left : r.subsig < p.subsigs.size
  right : r'.subsig < q.subsigs.size
  subsig : q.subsigAt r'.subsig = p.subsigAt r.subsig

/-- **Statements that do the same**: of one kind, with the same variables, constants, operators
    and fields, with types and methods of one name, and with targets that correspond. -/
inductive StmtOf.Alike {τ τ' : Type} (p q : Program) (T : τ → τ' → Prop) :
    StmtOf τ → StmtOf τ' → Prop
  | alloc {x ty ty' length} (h : ty.Alike p q ty') : Alike p q T (.alloc x ty length)
      (.alloc x ty' length)
  | var {x v} : Alike p q T (.assign x (.var v)) (.assign x (.var v))
  | int {x value} : Alike p q T (.assign x (.int value)) (.assign x (.int value))
  | binary {x op l r} : Alike p q T (.assign x (.binary op l r)) (.assign x (.binary op l r))
  | cast {x ty ty' v} (h : ty.Alike p q ty') : Alike p q T (.assign x (.cast ty v))
      (.assign x (.cast ty' v))
  | loadField {x base f} : Alike p q T (.loadField x base f) (.loadField x base f)
  | storeField {base f y} : Alike p q T (.storeField base f y) (.storeField base f y)
  | loadArray {x base index} : Alike p q T (.loadArray x base index) (.loadArray x base index)
  | storeArray {base index y} : Alike p q T (.storeArray base index y) (.storeArray base index y)
  | call {kind target target' base args result} (h : target.Alike p q target') :
      Alike p q T (.call ⟨kind, target, base, args, result⟩)
        (.call ⟨kind, target', base, args, result⟩)
  | branch {l op r t t'} (h : T t t') : Alike p q T (.branch l op r t) (.branch l op r t')
  | jump {t t'} (h : T t t') : Alike p q T (.jump t) (.jump t')
  | switch {on cases cases' t t'} (h : T t t')
      (hcases : List.Forall₂ (fun a b => b.1 = a.1 ∧ T a.2 b.2) cases cases') :
      Alike p q T (.switch on cases t) (.switch on cases' t')
  | ret {value} : Alike p q T (.ret value) (.ret value)
  | nop : Alike p q T .nop .nop

section Growth

variable {p q p' q' : Program}

theorem ClassAlike.grows {c c' : ClassId} (h : ClassAlike p q c c') (hp : p.Grows p')
    (hq : q.Grows q') : ClassAlike p' q' c c' where
  left := Nat.lt_of_lt_of_le h.left hp.classes
  right := Nat.lt_of_lt_of_le h.right hq.classes
  name := by rw [hp.className h.left, hq.className h.right, h.name]

theorem Ty.Alike.grows {ty ty' : Ty} (h : ty.Alike p q ty') (hp : p.Grows p') (hq : q.Grows q') :
    ty.Alike p' q' ty' := by
  induction ty generalizing ty' with
  | prim t =>
    cases ty' with
    | prim t' => exact h
    | _ => exact h.elim
  | object c =>
    cases ty' with
    | object c' => exact ClassAlike.grows h hp hq
    | _ => exact h.elim
  | array elem ih =>
    cases ty' with
    | array elem' => exact ih h
    | _ => exact h.elim

theorem MethodRef.Alike.grows {r r' : MethodRef} (h : r.Alike p q r') (hp : p.Grows p')
    (hq : q.Grows q') : r.Alike p' q' r' where
  owner := h.owner.grows hp hq
  left := Nat.lt_of_lt_of_le h.left hp.subsigs
  right := Nat.lt_of_lt_of_le h.right hq.subsigs
  subsig := by rw [hp.subsigAt h.left, hq.subsigAt h.right, h.subsig]

/-- What is read later leaves statements alike. -/
theorem StmtOf.Alike.grows {τ τ' : Type} {T : τ → τ' → Prop} {s : StmtOf τ} {s' : StmtOf τ'}
    (h : s.Alike p q T s') (hp : p.Grows p') (hq : q.Grows q') : s.Alike p' q' T s' := by
  cases h with
  | alloc h => exact .alloc (h.grows hp hq)
  | cast h => exact .cast (h.grows hp hq)
  | call h => exact .call (h.grows hp hq)
  | branch h => exact .branch h
  | jump h => exact .jump h
  | switch h hcases => exact .switch h hcases
  | _ => constructor

/-- A type is alike itself. -/
theorem Ty.Known.alike {ty : Ty} (h : ty.Known p) : ty.Alike p p ty := by
  induction ty with
  | prim t => exact rfl
  | object c => exact ⟨h.1, h.1, rfl⟩
  | array elem ih => exact ih h

theorem StmtOf.Fits.alike {τ : Type} {m : MethodId} {stmt : StmtOf τ} (h : stmt.Fits p m) :
    stmt.Alike p p Eq stmt := by
  cases stmt with
  | alloc x ty length => exact .alloc h.1.alike
  | assign x rhs =>
    cases rhs with
    | cast ty v => exact .cast (Ty.Known.alike h)
    | _ => constructor
  | call i => exact .call ⟨⟨h.2.owner, h.2.owner, rfl⟩, h.2.subsig, h.2.subsig, rfl⟩
  | branch left op right target => exact .branch rfl
  | jump target => exact .jump rfl
  | switch on cases otherwise =>
    exact .switch rfl (List.forall₂_same.mpr fun _ _ => ⟨rfl, rfl⟩)
  | _ => constructor

theorem StmtOf.resolveCases_eq {ε τ τ' σ : Type} {T : τ → τ' → Prop} {f : τ → Except ε σ}
    {f' : τ' → Except ε σ} {arms : List (Int32 × τ)} {arms' : List (Int32 × τ')}
    (h : List.Forall₂ (fun a b => b.1 = a.1 ∧ T a.2 b.2) arms arms')
    (hf : ∀ {a a' b}, T a a' → f a = .ok b → f' a' = .ok b) {resolved : List (Int32 × σ)}
    (hr : resolveCases f arms = .ok resolved) : resolveCases f' arms' = .ok resolved := by
  induction h generalizing resolved with
  | nil => exact hr
  | @cons arm arm' rest rest' harm _ ih =>
    obtain ⟨value, target⟩ := arm
    obtain ⟨value', target'⟩ := arm'
    obtain ⟨rfl, htarget⟩ := harm
    obtain ⟨b, hb, hr⟩ := Reader.bind_eq_ok hr
    obtain ⟨later, hlater, hr⟩ := Reader.bind_eq_ok hr
    cases hr
    rw [resolveCases, hf htarget hb, ih hlater]
    rfl

/-- Resolving corresponding targets to the same ones leaves statements alike. -/
theorem StmtOf.Alike.resolve {ε τ τ' σ : Type} {T : τ → τ' → Prop} {f : τ → Except ε σ}
    {f' : τ' → Except ε σ} {s : StmtOf τ} {s' : StmtOf τ'} {r : StmtOf σ} (h : s.Alike p q T s')
    (hf : ∀ {a a' b}, T a a' → f a = .ok b → f' a' = .ok b) (hr : s.resolve f = .ok r) :
    ∃ r', s'.resolve f' = .ok r' ∧ r.Alike p q Eq r' := by
  cases h with
  | branch ht =>
    obtain ⟨b, hb, hr⟩ := Reader.bind_eq_ok hr
    cases hr
    refine ⟨_, ?_, .branch rfl⟩
    rw [StmtOf.resolve, hf ht hb]
    rfl
  | jump ht =>
    obtain ⟨b, hb, hr⟩ := Reader.bind_eq_ok hr
    cases hr
    refine ⟨_, ?_, .jump rfl⟩
    rw [StmtOf.resolve, hf ht hb]
    rfl
  | switch ht hcases =>
    obtain ⟨arms, harms, hr⟩ := Reader.bind_eq_ok hr
    obtain ⟨b, hb, hr⟩ := Reader.bind_eq_ok hr
    cases hr
    refine ⟨_, ?_, .switch rfl (List.forall₂_same.mpr fun _ _ => ⟨rfl, rfl⟩)⟩
    rw [StmtOf.resolve, resolveCases_eq hcases hf harms, hf ht hb]
    rfl
  | alloc hty =>
    cases hr
    exact ⟨_, rfl, .alloc hty⟩
  | cast hty =>
    cases hr
    exact ⟨_, rfl, .cast hty⟩
  | call htarget =>
    cases hr
    exact ⟨_, rfl, .call htarget⟩
  | _ =>
    cases hr
    exact ⟨_, rfl, by constructor⟩

end Growth

/-! ## 2. Fields by name -/

namespace Program

/-- The class that many steps up from a class. -/
def superAt (p : Program) : Nat → ClassId → Option ClassId
  | 0, c => some c
  | i + 1, c => (p.classAt c).superClass.bind (p.superAt i)

variable {d p q : Program}

theorem superAt_add (p : Program) (i j : Nat) (c : ClassId) :
    p.superAt (i + j) c = (p.superAt i c).bind (p.superAt j) := by
  induction i generalizing c with
  | zero =>
    rw [Nat.zero_add]
    rfl
  | succ i ih =>
    rw [Nat.succ_add]
    simp only [superAt]
    cases (p.classAt c).superClass with
    | none => rfl
    | some parent => exact ih parent

theorem mem_superChain {bound : Nat} {c x : ClassId} :
    x ∈ p.superChain bound c ↔ ∃ i < bound, p.superAt i c = some x := by
  induction bound generalizing c with
  | zero => simp [superChain]
  | succ bound ih =>
    rw [superChain, List.mem_cons]
    constructor
    · intro h
      rcases h with rfl | h
      · exact ⟨0, Nat.succ_pos bound, rfl⟩
      · split at h
        · rename_i parent hparent
          obtain ⟨i, hi, hx⟩ := ih.mp h
          refine ⟨i + 1, Nat.succ_lt_succ hi, ?_⟩
          rw [superAt, hparent]
          exact hx
        · exact absurd h List.not_mem_nil
    · rintro ⟨i, hi, hx⟩
      cases i with
      | zero => exact .inl (Option.some.inj hx).symm
      | succ i =>
        obtain ⟨parent, hparent, hx⟩ := Option.bind_eq_some_iff.mp hx
        rw [hparent]
        exact .inr (ih.mpr ⟨i, Nat.lt_of_succ_lt_succ hi, hx⟩)

/-- A class above another is met in as many steps as there are classes: a longer way up passes a
    class twice. -/
theorem mem_ancestors (hp : p.Coherent) {c x : ClassId} (hc : c < p.classes.size) {n : Nat}
    (hx : p.superAt n c = some x) : x ∈ p.ancestors c := by
  induction n using Nat.strongRecOn with
  | _ n ih =>
    rcases Nat.lt_or_ge n p.classes.size with hlt | hge
    · exact mem_superChain.mpr ⟨n, hlt, hx⟩
    · -- every step up to the last one leads to a class of the program
      have hstep : ∀ i : Fin (n + 1), ∃ y : Fin p.classes.size, p.superAt i c = some y.val := by
        intro i
        obtain ⟨k, hk⟩ := Nat.exists_eq_add_of_le (Nat.le_of_lt_succ i.isLt)
        rw [hk, superAt_add] at hx
        obtain ⟨y, hy, -⟩ := Option.bind_eq_some_iff.mp hx
        have hmem : y ∈ p.superChain (i.val + 1) c :=
          mem_superChain.mpr ⟨i, Nat.lt_succ_self _, hy⟩
        exact ⟨⟨y, mem_superChain_lt hp hc hmem⟩, hy⟩
      choose f hf using hstep
      obtain ⟨i, j, hne, heq⟩ := Fintype.exists_ne_map_eq_of_card_lt f (by
        rw [Fintype.card_fin, Fintype.card_fin]
        omega)
      have hsame : p.superAt i c = p.superAt j c := by rw [hf i, hf j, heq]
      -- the way between the two meetings can be left out
      have hshort : ∀ {a b : Nat}, a < b → b ≤ n → p.superAt a c = p.superAt b c →
          x ∈ p.ancestors c := by
        intro a b hab hbn hsame
        refine ih (a + (n - b)) (by omega) ?_
        rw [superAt_add, hsame, ← superAt_add, Nat.add_sub_cancel' hbn]
        exact hx
      rcases Nat.lt_or_gt_of_ne (Fin.val_ne_of_ne hne) with hij | hji
      · exact hshort hij (Nat.le_of_lt_succ j.isLt) hsame
      · exact hshort hji (Nat.le_of_lt_succ i.isLt) hsame.symm

/-- **What is only mentioned does not change which field a name stands for.** -/
theorem Fills.resolveField?_eq (h : d.Fills p) (hd : d.Coherent) {c : ClassId}
    (hc : c < d.classes.size) (name : String) :
    p.resolveField? c name = d.resolveField? c name := by
  cases hfound : d.resolveField? c name with
  | some f => exact h.resolveField? hd hc hfound
  | none =>
    refine List.findSome?_eq_none_iff.mpr fun x hx => ?_
    rw [ancestors, superChain_eq hd h _ hc] at hx
    obtain ⟨n, -, hn⟩ := mem_superChain.mp hx
    have hmem := mem_ancestors hd hc hn
    rw [h.declaredField?_eq (mem_superChain_lt hd hc hmem)]
    exact List.findSome?_eq_none_iff.mp hfound x hmem

/-- A class that is only mentioned has no fields. -/
theorem Fills.lt_of_resolveField? (h : d.Fills p) {c : ClassId} {name : String} {f : FieldId}
    (hf : p.resolveField? c name = some f) : c < d.classes.size := by
  by_contra hge
  have hmembers : (p.classAt c).superClass = none ∧ (p.classAt c).fields = [] := by
    rcases Nat.lt_or_ge c p.classes.size with hlt | hout
    · rw [h.phantom (Nat.le_of_not_lt hge) hlt]
      exact ⟨rfl, rfl⟩
    · have hnone : p.classAt c = default := by simp [Program.classAt, hout]
      rw [hnone]
      exact ⟨rfl, rfl⟩
  have hchain : ∀ bound, ∀ x ∈ p.superChain bound c, x = c := by
    intro bound x hx
    cases bound with
    | zero => exact absurd hx List.not_mem_nil
    | succ bound =>
      rw [superChain, hmembers.1] at hx
      exact List.mem_singleton.mp hx
  obtain ⟨x, hx, hfound⟩ := List.exists_of_findSome?_eq_some hf
  rw [hchain _ x hx, declaredField?, hmembers.2] at hfound
  cases hfound

/-! ## 3. What is added while a body is read -/

/-- **Only the method `m` gets variables** from `p` to `q`: behind the ones it has, and under names
    that are new to it. Bodies stay as they are. -/
structure Writes (m : MethodId) (p q : Program) : Prop extends FillsBodies p q where
  body : ∀ n, (q.methodAt n).body = (p.methodAt n).body
  others : ∀ n, n ≠ m → (q.methodAt n).vars = (p.methodAt n).vars
  new : (q.methodAt m).vars =
    (p.methodAt m).vars ++ List.range' p.vars.size (q.vars.size - p.vars.size)
  fresh : ∀ {u v}, p.vars.size ≤ v → v < q.vars.size → u ∈ (q.methodAt m).vars → u < v →
    q.varName u ≠ q.varName v

variable {m : MethodId} {r : Program}

theorem Writes.refl (p : Program) : p.Writes m p where
  toFillsBodies := .refl p
  body _ := rfl
  others _ _ := rfl
  new := by simp
  fresh hle hlt := absurd hlt (Nat.not_lt.mpr hle)

theorem Writes.trans (h : p.Writes m q) (h' : q.Writes m r) : p.Writes m r where
  toFillsBodies := h.toFillsBodies.trans h'.toFillsBodies
  body n := (h'.body n).trans (h.body n)
  others n hn := (h'.others n hn).trans (h.others n hn)
  new := by
    have hpq := h.vars
    have hqr := h'.vars
    have hrange : List.range' p.vars.size (q.vars.size - p.vars.size) ++
        List.range' q.vars.size (r.vars.size - q.vars.size) =
          List.range' p.vars.size (r.vars.size - p.vars.size) := by
      have hstart : q.vars.size = p.vars.size + (q.vars.size - p.vars.size) := by omega
      have hcount : q.vars.size - p.vars.size + (r.vars.size - q.vars.size) =
          r.vars.size - p.vars.size := by omega
      conv_lhs => rw [hstart]
      rw [Nat.add_sub_cancel_left, ← hstart, ← hcount, ← List.range'_append_1, ← hstart]
    rw [h'.new, h.new, List.append_assoc, hrange]
  fresh {u v} hle hlt hu huv := by
    rcases Nat.lt_or_ge v q.vars.size with hv | hv
    · -- both are variables of the program in between
      have hu' : u ∈ (q.methodAt m).vars := by
        rw [h'.new] at hu
        rcases List.mem_append.mp hu with hu | hu
        · exact hu
        · exact absurd (Nat.lt_trans huv hv) (Nat.not_lt.mpr (List.mem_range'_1.mp hu).1)
      rw [h'.varName_eq (Nat.lt_trans huv hv), h'.varName_eq hv]
      exact h.fresh hle hv hu' huv
    · exact h'.fresh hv hlt hu huv

theorem writes_of_sameVars (hf : p.Fills q) (hmethods : q.methods = p.methods)
    (hvars : q.vars = p.vars) : p.Writes m q := by
  have hat : ∀ n, q.methodAt n = p.methodAt n := fun n => by rw [methodAt, methodAt, hmethods]
  refine ⟨fillsBodies_of_sameVars hf hmethods hvars, fun n => ?_, fun n _ => ?_, ?_,
    fun hle hlt => ?_⟩
  · rw [hat]
  · rw [hat]
  · simp [hat, hvars]
  · rw [hvars] at hlt
    exact absurd hlt (Nat.not_lt.mpr hle)

theorem Filled.writes_addVar (h : p.Filled) (hm : m < p.methods.size) {name : String}
    (hname : IsName name) {ty : Ty} (hty : ty.Known p) (hfresh : p.varByName? m name = none) :
    p.Writes m (p.addVar m name ty).2 := by
  have hf := (h.addVar hm hname hty hfresh).2
  have hat := methodAt_addVar hm name ty
  have hsize : (p.addVar m name ty).2.vars.size = p.vars.size + 1 := by
    simp [Program.addVar, modifyMethod]
  refine ⟨hf, fun n => ?_, fun n hn => ?_, ?_, fun {u v} hle hlt hu huv => ?_⟩
  · rw [hat]
    split
    · rename_i hn
      rw [hn]
    · rfl
  · rw [hat, if_neg hn]
  · rw [hat, if_pos rfl, hsize, Nat.add_sub_cancel_left]
    rfl
  · obtain rfl : v = p.vars.size := by omega
    rw [hat, if_pos rfl] at hu
    have hold : u ∈ (p.methodAt m).vars := by
      rcases List.mem_append.mp hu with hu | hu
      · exact hu
      · exact absurd (List.mem_singleton.mp hu) (Nat.ne_of_lt huv)
    have hnew : (p.addVar m name ty).2.varName p.vars.size = name := by
      simp [Program.addVar, varName, varAt, modifyMethod]
    rw [hnew, hf.varName_eq huv]
    simpa using List.find?_eq_none.mp hfresh u (List.mem_reverse.mpr hold)

/-! ## 4. Programs that are alike -/

/-- **Two programs with the declarations of `d`.** -/
structure Kin (d p q : Program) : Prop where
  declared : d.Coherent
  left : d.Fills p
  right : d.Fills q
  leftFilled : p.Filled
  rightFilled : q.Filled

/-- **Two programs of the same declarations** with the same variables under the same numbers, and
    bodies that do the same. -/
structure Alike (d p q : Program) : Prop extends Kin d p q where
  vars : q.vars.size = p.vars.size
  varName : ∀ {v}, v < p.vars.size → q.varName v = p.varName v
  varTy : ∀ {v}, v < p.vars.size → (p.varTy v).Alike p q (q.varTy v)
  methodVars : ∀ m, (q.methodAt m).vars = (p.methodAt m).vars
  bodies : ∀ m, List.Forall₂ (StmtOf.Alike p q Eq) (p.methodAt m).stmts (q.methodAt m).stmts

theorem methodAt_of_le (h : p.methods.size ≤ m) : p.methodAt m = default := by
  simp [methodAt, h]

theorem Coherent.mem_vars_lt (hp : p.Coherent) {v : VarId} (hv : v ∈ (p.methodAt m).vars) :
    v < p.vars.size := by
  rcases Nat.lt_or_ge m p.methods.size with hm | hm
  · exact hp.var_lt hm hv
  · rw [methodAt_of_le hm] at hv
    exact absurd hv List.not_mem_nil

namespace Kin

/-- A class that is declared has one number. -/
theorem class_eq (h : Kin d p q) {c c' : ClassId} (hc : ClassAlike p q c c')
    (hlt : c < d.classes.size) : c' = c := by
  refine h.rightFilled.coherent.names hc.right (Nat.lt_of_lt_of_le hlt h.right.classes) ?_
  rw [hc.name, h.left.className hlt, h.right.className hlt]

theorem classByName? (h : Kin d p q) {name : String} {c : ClassId}
    (hc : p.classByName? name = some c) (hlt : c < d.classes.size) :
    q.classByName? name = some c := by
  rw [h.leftFilled.coherent.names.classByName?_eq_some_iff] at hc
  rw [h.rightFilled.coherent.names.classByName?_eq_some_iff]
  refine ⟨Nat.lt_of_lt_of_le hlt h.right.classes, ?_⟩
  rw [h.right.className hlt, ← h.left.className hlt, hc.2]

theorem fieldAt_eq (h : Kin d p q) (f : FieldId) : q.fieldAt f = p.fieldAt f := by
  rw [fieldAt, fieldAt, h.right.sameFields, h.left.sameFields]

theorem retType_eq (h : Kin d p q) (m : MethodId) :
    (q.methodAt m).retType = (p.methodAt m).retType :=
  (congrArg MethodDecl.retType ((h.right.header m).trans (h.left.header m).symm) :)

theorem methods_size (h : Kin d p q) : q.methods.size = p.methods.size := by
  rw [h.right.sameMethods, h.left.sameMethods]

/-- A field that is found in a class is found in a class of that name. -/
theorem resolveField? (h : Kin d p q) {c c' : ClassId} (hc : ClassAlike p q c c') {name : String}
    {f : FieldId} (hf : p.resolveField? c name = some f) : q.resolveField? c' name = some f := by
  have hlt := h.left.lt_of_resolveField? hf
  rw [h.class_eq hc hlt, h.right.resolveField?_eq h.declared hlt,
    ← h.left.resolveField?_eq h.declared hlt, hf]

/-- Programs go on to hold the declarations. -/
theorem fills {p' q' : Program} (h : Kin d p q) (hp : p.Fills p') (hp' : p'.Filled)
    (hq : q.Fills q') (hq' : q'.Filled) : Kin d p' q' :=
  ⟨h.declared, h.left.trans hp, h.right.trans hq, hp', hq'⟩

end Kin

namespace Alike

theorem varByName?_eq (h : Alike d p q) (m : MethodId) (name : String) :
    q.varByName? m name = p.varByName? m name := by
  rw [varByName?, varByName?, h.methodVars]
  refine List.find?_congr fun v hv => ?_
  rw [h.varName (h.leftFilled.coherent.mem_vars_lt (List.mem_reverse.mp hv))]

/-- A filled program is alike itself. -/
theorem refl (hd : d.Coherent) (hf : d.Fills p) (hp : p.Filled) : Alike d p p where
  toKin := ⟨hd, hf, hf, hp, hp⟩
  vars := rfl
  varName _ := rfl
  varTy hv := (hp.coherent.vars _ hv).ty.alike
  methodVars _ := rfl
  bodies m := by
    refine List.forall₂_same.mpr fun stmt hstmt => ?_
    obtain ⟨i, hi, rfl⟩ := List.mem_map.mp hstmt
    have hm : m < p.methods.size := by
      by_contra hm
      rw [methodAt_of_le (Nat.le_of_not_lt hm)] at hi
      exact absurd hi List.not_mem_nil
    exact (hp.known m hm i (Array.mem_toList_iff.mp hi)).fits.alike

/-! ## 5. What keeps programs alike -/

/-- Classes and subsignatures may be mentioned on either side. -/
theorem mentions {p' q' : Program} (h : Alike d p q) (hp : p.Fills p') (hp' : p'.Filled)
    (hsame : p'.methods = p.methods ∧ p'.vars = p.vars) (hq : q.Fills q') (hq' : q'.Filled)
    (hsame' : q'.methods = q.methods ∧ q'.vars = q.vars) : Alike d p' q' := by
  have hleft : ∀ n, p'.methodAt n = p.methodAt n := fun n => by
    rw [methodAt, methodAt, hsame.1]
  have hright : ∀ n, q'.methodAt n = q.methodAt n := fun n => by
    rw [methodAt, methodAt, hsame'.1]
  have hvar : ∀ v, p'.varAt v = p.varAt v := fun v => by rw [varAt, varAt, hsame.2]
  have hvar' : ∀ v, q'.varAt v = q.varAt v := fun v => by rw [varAt, varAt, hsame'.2]
  refine ⟨h.toKin.fills hp hp' hq hq', ?_, fun {v} hv => ?_, fun {v} hv => ?_, fun n => ?_,
    fun n => ?_⟩
  · rw [hsame.2, hsame'.2, h.vars]
  · rw [Program.varName, Program.varName, hvar, hvar']
    exact h.varName (hsame.2 ▸ hv)
  · rw [Program.varTy, Program.varTy, hvar, hvar']
    exact (h.varTy (hsame.2 ▸ hv)).grows hp.toGrows hq.toGrows
  · rw [hleft, hright, h.methodVars]
  · rw [hleft, hright]
    exact (h.bodies n).imp fun _ _ hs => hs.grows hp.toGrows hq.toGrows

theorem internClass (h : Alike d p q) (name : String) :
    Alike d (p.internClass name).2 (q.internClass name).2 ∧
      ClassAlike (p.internClass name).2 (q.internClass name).2 (p.internClass name).1
        (q.internClass name).1 := by
  obtain ⟨hp, hc, hname⟩ := p.internClass_spec name
  obtain ⟨hq, hc', hname'⟩ := q.internClass_spec name
  refine ⟨h.mentions hp (h.leftFilled.internClass name).1 (p.internClass_same name) hq
    (h.rightFilled.internClass name).1 (q.internClass_same name), hc, hc', ?_⟩
  rw [hname, hname']

theorem internSubsig (h : Alike d p q) (text : String) :
    Alike d (p.internSubsig text).2 (q.internSubsig text).2 := by
  refine h.mentions (p.internSubsig_spec text).1 (h.leftFilled.internSubsig text).1
    (p.internSubsig_same text) (q.internSubsig_spec text).1 (h.rightFilled.internSubsig text).1
    (q.internSubsig_same text)

end Alike

theorem varAt_addVar (p : Program) (m : MethodId) (name : String) (ty : Ty) (v : VarId) :
    (p.addVar m name ty).2.varAt v =
      if v = p.vars.size then ⟨name, ty, m, (p.methodAt m).vars.length⟩ else p.varAt v :=
  getD_push p.vars _ v default

theorem vars_size_addVar (p : Program) (m : MethodId) (name : String) (ty : Ty) :
    (p.addVar m name ty).2.vars.size = p.vars.size + 1 := by
  simp [addVar, modifyMethod]

theorem stmts_addVar (hm : m < p.methods.size) (name : String) (ty : Ty) (n : MethodId) :
    ((p.addVar m name ty).2.methodAt n).stmts = (p.methodAt n).stmts := by
  rw [methodAt_addVar hm]
  split
  · rename_i hn
    rw [hn]
    rfl
  · rfl

namespace Alike

/-- A variable of one name and type may be added on both sides. -/
theorem addVar (h : Alike d p q) (hm : m < p.methods.size) {name : String} (hname : IsName name)
    {ty ty' : Ty} (hty : ty.Known p) (hty' : ty'.Known q) (halike : ty.Alike p q ty')
    (hfresh : p.varByName? m name = none) :
    Alike d (p.addVar m name ty).2 (q.addVar m name ty').2 := by
  have hm' : m < q.methods.size := h.methods_size ▸ hm
  have hfresh' : q.varByName? m name = none := (h.varByName?_eq m name).trans hfresh
  have hp := h.leftFilled.addVar hm hname hty hfresh
  have hq := h.rightFilled.addVar hm' hname hty' hfresh'
  refine ⟨h.toKin.fills hp.2.toFills hp.1 hq.2.toFills hq.1, ?_, fun {v} hv => ?_,
    fun {v} hv => ?_, fun n => ?_, fun n => ?_⟩
  · rw [vars_size_addVar, vars_size_addVar, h.vars]
  · rw [vars_size_addVar] at hv
    rw [Program.varName, Program.varName, varAt_addVar, varAt_addVar, h.vars]
    split
    · rfl
    · rename_i hne
      exact h.varName (Nat.lt_of_le_of_ne (Nat.le_of_lt_succ hv) hne)
  · rw [vars_size_addVar] at hv
    refine Ty.Alike.grows ?_ hp.2.toGrows hq.2.toGrows
    rw [Program.varTy, Program.varTy, varAt_addVar, varAt_addVar, h.vars]
    split
    · exact halike
    · rename_i hne
      exact h.varTy (Nat.lt_of_le_of_ne (Nat.le_of_lt_succ hv) hne)
  · rw [methodAt_addVar hm, methodAt_addVar hm', h.methodVars m, h.vars]
    split
    · rfl
    · exact h.methodVars n
  · rw [stmts_addVar hm, stmts_addVar hm']
    exact (h.bodies n).imp fun _ _ hs => hs.grows hp.2.toGrows hq.2.toGrows

/-- Bodies that do the same may be given to a method on both sides. -/
theorem setBody (h : Alike d p q) (hm : m < p.methods.size) {body body' : Array Instr}
    (hbody : ∀ i ∈ body, i.stmt.Known p m) (hbody' : ∀ i ∈ body', i.stmt.Known q m)
    (halike : List.Forall₂ (StmtOf.Alike p q Eq) (body.toList.map (·.stmt))
      (body'.toList.map (·.stmt))) :
    Alike d (p.modifyMethod m fun e => { e with body := body })
      (q.modifyMethod m fun e => { e with body := body' }) := by
  have hm' : m < q.methods.size := h.methods_size ▸ hm
  have hp := h.leftFilled.setBody hm body hbody
  have hq := h.rightFilled.setBody hm' body' hbody'
  have hat := fun n => methodAt_modifyMethod p m n (fun e => { e with body := body }) hm
  have hat' := fun n => methodAt_modifyMethod q m n (fun e => { e with body := body' }) hm'
  refine ⟨h.toKin.fills hp.2.toFills hp.1 hq.2.toFills hq.1, h.vars, h.varName,
    fun hv => (h.varTy hv).grows hp.2.toGrows hq.2.toGrows, fun n => ?_, fun n => ?_⟩
  · rw [hat, hat']
    split
    · exact h.methodVars m
    · exact h.methodVars n
  · rw [hat, hat']
    split
    · exact halike.imp fun _ _ hs => hs.grows hp.2.toGrows hq.2.toGrows
    · exact (h.bodies n).imp fun _ _ hs => hs.grows hp.2.toGrows hq.2.toGrows

end Alike

end Program

end ObjectFlow
