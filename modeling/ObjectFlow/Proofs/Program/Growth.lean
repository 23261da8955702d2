/-
  File:      ObjectFlow/Proofs/Program/Growth.lean
  Subject:   HOW A PROGRAM GROWS WHILE IT IS READ.

  Tables only get longer. While declarations are read (`Program.Grows`) a class may still get its
  supertypes and members; while bodies are read (`Program.Fills`) declarations stay as they are,
  and only phantom classes, subsignatures, variables and bodies are added.
-/
import ObjectFlow.Program.Hierarchy
import ObjectFlow.Program.Names

namespace ObjectFlow

/-- A method without its variables and its body. -/
def MethodDecl.header (d : MethodDecl) : MethodDecl := { d with vars := [], body := #[] }

namespace Program

/-! ## 1. Parts after a change -/

section Parts

variable (p : Program)

theorem classAt_modifyClass (c d : ClassId) (f : ClassDecl → ClassDecl) (h : c < p.classes.size) :
    (p.modifyClass c f).classAt d = if d = c then f (p.classAt c) else p.classAt d := by
  simp only [classAt, modifyClass, Array.getD_eq_getD_getElem?, Array.getElem?_modify]
  split
  · rename_i hcd
    subst hcd
    simp [h]
  · rename_i hcd
    rw [if_neg fun e => hcd e.symm]

theorem methodAt_modifyMethod (m n : MethodId) (f : MethodDecl → MethodDecl)
    (h : m < p.methods.size) :
    (p.modifyMethod m f).methodAt n = if n = m then f (p.methodAt m) else p.methodAt n := by
  simp only [methodAt, modifyMethod, Array.getD_eq_getD_getElem?, Array.getElem?_modify]
  split
  · rename_i hmn
    subst hmn
    simp [h]
  · rename_i hmn
    rw [if_neg fun e => hmn e.symm]

/-- What a change of one class leaves alone stays the same for every class. -/
theorem kept_modifyClass {α : Type} {c : ClassId} {f : ClassDecl → ClassDecl}
    (hc : c < p.classes.size) (part : ClassDecl → α)
    (hkept : part (f (p.classAt c)) = part (p.classAt c)) (d : ClassId) :
    part ((p.modifyClass c f).classAt d) = part (p.classAt d) := by
  rw [classAt_modifyClass p c d f hc]
  split
  · rename_i hd
    rw [hkept, hd]
  · rfl

/-- What a change of one method leaves alone stays the same for every method. -/
theorem kept_modifyMethod {α : Type} {m : MethodId} {f : MethodDecl → MethodDecl}
    (hm : m < p.methods.size) (part : MethodDecl → α)
    (hkept : part (f (p.methodAt m)) = part (p.methodAt m)) (n : MethodId) :
    part ((p.modifyMethod m f).methodAt n) = part (p.methodAt n) := by
  rw [methodAt_modifyMethod p m n f hm]
  split
  · rename_i hn
    rw [hkept, hn]
  · rfl

theorem getD_push {α : Type} (table : Array α) (a : α) (i : Nat) (d : α) :
    (table.push a).getD i d = if i = table.size then a else table.getD i d := by
  simp only [Array.getD_eq_getD_getElem?, Array.getElem?_push]
  split <;> rfl

theorem getD_push_of_lt {α : Type} {table : Array α} {i : Nat} (h : i < table.size) (a d : α) :
    (table.push a).getD i d = table.getD i d := by
  rw [getD_push, if_neg (Nat.ne_of_lt h)]

end Parts

/-! ## 2. Growth -/

/-- **Nothing is taken back** from `p` to `q`: ids stay in use, and names, fields, variables and
    subsignatures stay what they are. -/
structure Grows (p q : Program) : Prop where
  classes : p.classes.size ≤ q.classes.size
  className : ∀ {c}, c < p.classes.size → (q.classAt c).name = (p.classAt c).name
  fields : p.fields.size ≤ q.fields.size
  fieldAt : ∀ {f}, f < p.fields.size → q.fieldAt f = p.fieldAt f
  methods : p.methods.size ≤ q.methods.size
  methodVars : ∀ {m}, m < p.methods.size → (p.methodAt m).vars <+: (q.methodAt m).vars
  vars : p.vars.size ≤ q.vars.size
  varAt : ∀ {v}, v < p.vars.size → q.varAt v = p.varAt v
  subsigs : p.subsigs.size ≤ q.subsigs.size
  subsigAt : ∀ {s}, s < p.subsigs.size → q.subsigAt s = p.subsigAt s

/-- **Declarations stay as they are** from `p` to `q`: the classes that are new are phantoms, and
    methods get variables and bodies only. -/
structure Fills (p q : Program) : Prop extends Grows p q where
  classAt : ∀ {c}, c < p.classes.size → q.classAt c = p.classAt c
  phantom : ∀ {c}, p.classes.size ≤ c → c < q.classes.size →
    q.classAt c = { name := (q.classAt c).name }
  sameFields : q.fields = p.fields
  sameMethods : q.methods.size = p.methods.size
  header : ∀ m, (q.methodAt m).header = (p.methodAt m).header

variable {p q r : Program}

@[refl] theorem Grows.refl (p : Program) : p.Grows p where
  classes := Nat.le_refl _
  className _ := rfl
  fields := Nat.le_refl _
  fieldAt _ := rfl
  methods := Nat.le_refl _
  methodVars _ := List.prefix_refl _
  vars := Nat.le_refl _
  varAt _ := rfl
  subsigs := Nat.le_refl _
  subsigAt _ := rfl

theorem Grows.trans (h : p.Grows q) (h' : q.Grows r) : p.Grows r where
  classes := Nat.le_trans h.classes h'.classes
  className hc := (h'.className (Nat.lt_of_lt_of_le hc h.classes)).trans (h.className hc)
  fields := Nat.le_trans h.fields h'.fields
  fieldAt hf := (h'.fieldAt (Nat.lt_of_lt_of_le hf h.fields)).trans (h.fieldAt hf)
  methods := Nat.le_trans h.methods h'.methods
  methodVars hm := (h.methodVars hm).trans (h'.methodVars (Nat.lt_of_lt_of_le hm h.methods))
  vars := Nat.le_trans h.vars h'.vars
  varAt hv := (h'.varAt (Nat.lt_of_lt_of_le hv h.vars)).trans (h.varAt hv)
  subsigs := Nat.le_trans h.subsigs h'.subsigs
  subsigAt hs := (h'.subsigAt (Nat.lt_of_lt_of_le hs h.subsigs)).trans (h.subsigAt hs)

theorem Grows.varName_eq (h : p.Grows q) {v : VarId} (hv : v < p.vars.size) :
    q.varName v = p.varName v := congrArg VarDecl.name (h.varAt hv)

theorem Grows.varTy_eq (h : p.Grows q) {v : VarId} (hv : v < p.vars.size) :
    q.varTy v = p.varTy v := congrArg VarDecl.ty (h.varAt hv)

@[refl] theorem Fills.refl (p : Program) : p.Fills p where
  toGrows := .refl p
  classAt _ := rfl
  phantom hle hlt := absurd hlt (Nat.not_lt.mpr hle)
  sameFields := rfl
  sameMethods := rfl
  header _ := rfl

theorem Fills.trans (h : p.Fills q) (h' : q.Fills r) : p.Fills r where
  toGrows := h.toGrows.trans h'.toGrows
  classAt hc := (h'.classAt (Nat.lt_of_lt_of_le hc h.classes)).trans (h.classAt hc)
  phantom hle hlt := by
    rcases Nat.lt_or_ge _ q.classes.size with hq | hq
    · rw [h'.classAt hq]
      exact h.phantom hle hq
    · exact h'.phantom hq hlt
  sameFields := h'.sameFields.trans h.sameFields
  sameMethods := h'.sameMethods.trans h.sameMethods
  header m := (h'.header m).trans (h.header m)

theorem Grows.mem_vars (h : p.Grows q) {m : MethodId} (hm : m < p.methods.size) {v : VarId}
    (hv : v ∈ (p.methodAt m).vars) : v ∈ (q.methodAt m).vars :=
  (h.methodVars hm).subset hv

/-! ## 3. Names that are looked up or added -/

theorem internClass_cases (p : Program) (name : String) :
    (∃ c, c < p.classes.size ∧ (p.classAt c).name = name ∧ p.internClass name = (c, p)) ∨
    (∀ c < p.classes.size, (p.classAt c).name ≠ name) ∧
      p.internClass name =
        (p.classes.size, { p with classes := p.classes.push { name := name } }) := by
  unfold internClass classByName?
  split
  · rename_i c hc
    obtain ⟨hlt, hname, -⟩ := Array.findIdx?_eq_some_iff_getElem.mp hc
    exact .inl ⟨c, hlt, by simpa [classAt, hlt] using hname, rfl⟩
  · rename_i hnone
    refine .inr ⟨fun c hc => ?_, rfl⟩
    have := Array.findIdx?_eq_none_iff.mp hnone _ (Array.getElem_mem hc)
    simpa [classAt, hc] using this

theorem internSubsig_cases (p : Program) (text : String) :
    (∃ s, s < p.subsigs.size ∧ p.subsigAt s = text ∧ p.internSubsig text = (s, p)) ∨
    (∀ s < p.subsigs.size, p.subsigAt s ≠ text) ∧
      p.internSubsig text = (p.subsigs.size, { p with subsigs := p.subsigs.push text }) := by
  unfold internSubsig subsigByText?
  split
  · rename_i s hs
    obtain ⟨hlt, htext, -⟩ := Array.findIdx?_eq_some_iff_getElem.mp hs
    exact .inl ⟨s, hlt, by simpa [subsigAt, hlt] using htext, rfl⟩
  · rename_i hnone
    refine .inr ⟨fun s hs => ?_, rfl⟩
    have := Array.findIdx?_eq_none_iff.mp hnone _ (Array.getElem_mem hs)
    simpa [subsigAt, hs] using this

theorem fills_addClass (p : Program) (name : String) :
    p.Fills { p with classes := p.classes.push { name := name } } where
  classes := by simp
  className hc := congrArg ClassDecl.name (getD_push_of_lt hc _ _)
  fields := Nat.le_refl _
  fieldAt _ := rfl
  methods := Nat.le_refl _
  methodVars _ := List.prefix_refl _
  vars := Nat.le_refl _
  varAt _ := rfl
  subsigs := Nat.le_refl _
  subsigAt _ := rfl
  classAt hc := getD_push_of_lt hc _ _
  phantom {c} hle hlt := by
    have heq : c = p.classes.size := Nat.le_antisymm (by simpa [Nat.lt_succ_iff] using hlt) hle
    subst heq
    simp [Program.classAt]
  sameFields := rfl
  sameMethods := rfl
  header _ := rfl

theorem fills_addSubsig (p : Program) (text : String) :
    p.Fills { p with subsigs := p.subsigs.push text } where
  toGrows := { Grows.refl p with
    subsigs := by simp
    subsigAt := fun hs => getD_push_of_lt hs _ _ }
  classAt _ := rfl
  phantom hle hlt := absurd hlt (Nat.not_lt.mpr hle)
  sameFields := rfl
  sameMethods := rfl
  header _ := rfl

/-- The class a name stands for, after it was looked up or added. -/
theorem internClass_spec (p : Program) (name : String) :
    p.Fills (p.internClass name).2 ∧
      (p.internClass name).1 < (p.internClass name).2.classes.size ∧
      ((p.internClass name).2.classAt (p.internClass name).1).name = name := by
  rcases p.internClass_cases name with ⟨c, hc, hname, h⟩ | ⟨-, h⟩
  · rw [h]
    exact ⟨.refl p, hc, hname⟩
  · rw [h]
    exact ⟨fills_addClass p name, by simp, by simp [Program.classAt]⟩

theorem internSubsig_spec (p : Program) (text : String) :
    p.Fills (p.internSubsig text).2 ∧
      (p.internSubsig text).1 < (p.internSubsig text).2.subsigs.size ∧
      (p.internSubsig text).2.subsigAt (p.internSubsig text).1 = text := by
  rcases p.internSubsig_cases text with ⟨s, hs, htext, h⟩ | ⟨-, h⟩
  · rw [h]
    exact ⟨.refl p, hs, htext⟩
  · rw [h]
    exact ⟨fills_addSubsig p text, by simp, by simp [Program.subsigAt]⟩

theorem internClass_same (p : Program) (name : String) :
    (p.internClass name).2.methods = p.methods ∧ (p.internClass name).2.vars = p.vars := by
  rcases p.internClass_cases name with ⟨c, -, -, h⟩ | ⟨-, h⟩ <;> rw [h] <;> exact ⟨rfl, rfl⟩

theorem internSubsig_same (p : Program) (text : String) :
    (p.internSubsig text).2.methods = p.methods ∧ (p.internSubsig text).2.vars = p.vars := by
  rcases p.internSubsig_cases text with ⟨s, -, -, h⟩ | ⟨-, h⟩ <;> rw [h] <;> exact ⟨rfl, rfl⟩

/-! ## 4. Members, variables and bodies that are added -/

theorem Fills.declaredField?_eq (h : p.Fills q) {c : ClassId} (hc : c < p.classes.size)
    (name : String) : q.declaredField? c name = p.declaredField? c name := by
  have hfield : ∀ f, q.fieldAt f = p.fieldAt f := fun f => by
    rw [Program.fieldAt, Program.fieldAt, h.sameFields]
  simp only [declaredField?, h.classAt hc, hfield]

theorem Fills.declaredMethod?_eq (h : p.Fills q) {c : ClassId} (hc : c < p.classes.size)
    (s : SubsigId) : q.declaredMethod? c s = p.declaredMethod? c s := by
  have hsubsig : ∀ m, (q.methodAt m).subsig = (p.methodAt m).subsig := fun m =>
    (congrArg MethodDecl.subsig (h.header m) :)
  simp only [declaredMethod?, h.classAt hc, hsubsig]

theorem methodAt_addVar {m : MethodId} (hm : m < p.methods.size) (name : String) (ty : Ty)
    (n : MethodId) :
    (p.addVar m name ty).2.methodAt n =
      if n = m then { p.methodAt m with vars := (p.methodAt m).vars ++ [p.vars.size] }
      else p.methodAt n :=
  methodAt_modifyMethod { p with vars := _ } m n _ hm

/-- Only the variables and the bodies of methods change. -/
theorem fills_modifyMethod {m : MethodId} {f : MethodDecl → MethodDecl} (hm : m < p.methods.size)
    (hheader : (f (p.methodAt m)).header = (p.methodAt m).header)
    (hvars : (p.methodAt m).vars <+: (f (p.methodAt m)).vars) : p.Fills (p.modifyMethod m f) where
  toGrows := { Grows.refl p with
    methods := by simp [modifyMethod]
    methodVars := fun {n} _ => by
      rw [methodAt_modifyMethod p m n f hm]
      split
      · rename_i hn
        exact hn ▸ hvars
      · exact List.prefix_refl _ }
  classAt _ := rfl
  phantom hle hlt := absurd hlt (Nat.not_lt.mpr hle)
  sameFields := rfl
  sameMethods := by simp [modifyMethod]
  header := kept_modifyMethod p hm MethodDecl.header hheader

theorem fills_addVarDecl (p : Program) (d : VarDecl) : p.Fills { p with vars := p.vars.push d } where
  toGrows := { Grows.refl p with
    vars := by simp
    varAt := fun hv => getD_push_of_lt hv _ _ }
  classAt _ := rfl
  phantom hle hlt := absurd hlt (Nat.not_lt.mpr hle)
  sameFields := rfl
  sameMethods := rfl
  header _ := rfl

theorem fills_addVar {m : MethodId} (hm : m < p.methods.size) (name : String) (ty : Ty) :
    p.Fills (p.addVar m name ty).2 :=
  (fills_addVarDecl p _).trans <|
    fills_modifyMethod (p := { p with vars := _ }) hm rfl (List.prefix_append _ _)

/-- A class that keeps its name may change otherwise. -/
theorem grows_modifyClass {c : ClassId} {f : ClassDecl → ClassDecl} (hc : c < p.classes.size)
    (hname : (f (p.classAt c)).name = (p.classAt c).name) : p.Grows (p.modifyClass c f) :=
  { Grows.refl p with
    classes := by simp [modifyClass]
    className := fun {d} _ => kept_modifyClass p hc ClassDecl.name hname d }

theorem grows_addField {field : FieldDecl} (howner : field.owner < p.classes.size) :
    p.Grows (p.addField field) :=
  Grows.trans (q := { p with fields := p.fields.push field })
    { Grows.refl p with
      fields := by simp
      fieldAt := fun hf => getD_push_of_lt hf _ _ }
    (grows_modifyClass howner rfl)

theorem grows_addMethod {d : MethodDecl} (howner : d.owner < p.classes.size) :
    p.Grows (p.addMethod d).2 :=
  Grows.trans (q := { p with methods := p.methods.push d })
    { Grows.refl p with
      methods := by simp
      methodVars := fun hm => by
        have hsame := getD_push_of_lt hm d (default : MethodDecl)
        exact congrArg MethodDecl.vars hsame ▸ List.prefix_refl _ }
    (grows_modifyClass howner rfl)

end Program

end ObjectFlow
