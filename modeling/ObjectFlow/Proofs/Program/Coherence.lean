/-
  File:      ObjectFlow/Proofs/Program/Coherence.lean
  Subject:   THE TABLES OF A PROGRAM FIT TOGETHER, whatever has been read so far.

  * `Ty.Known`: the classes of a type are in the table, under proper names;
  * `Program.Coherent`: every id in a declaration is in range, every variable stands at its place
    among those of its method, members are found where they are declared, the subsignature of a
    method is put together from its declaration, and the names of classes and the texts of
    subsignatures are distinct;
  * one lemma for each way a program grows: `Coherent.internClass`, `Coherent.addField`, and so on.
-/
import Mathlib.Data.List.Find
import ObjectFlow.Proofs.Program.Growth
import ObjectFlow.Proofs.Token.Spelling

namespace ObjectFlow

/-! ## 1. Declarations that fit -/

/-- Every class in the type is in the table, under a name that can be written. -/
def Ty.Known (p : Program) : Ty → Prop
  | .prim _ => True
  | .object c => c < p.classes.size ∧ IsName (p.classAt c).name
  | .array elem => elem.Known p

theorem Ty.Known.grows {p q : Program} {ty : Ty} (h : ty.Known p) (hg : p.Grows q) :
    ty.Known q := by
  induction ty with
  | prim t => trivial
  | object c =>
    refine ⟨Nat.lt_of_lt_of_le h.1 hg.classes, ?_⟩
    rw [hg.className h.1]
    exact h.2
  | array elem ih => exact ih h

/-- A type keeps its name. -/
theorem Ty.Known.tyName_eq {p q : Program} {ty : Ty} (h : ty.Known p) (hg : p.Grows q) :
    q.tyName ty = p.tyName ty := by
  induction ty with
  | prim t => rfl
  | object c => exact hg.className h.1
  | array elem ih => exact congrArg (· ++ "[]") (ih h)

theorem Ty.Known.class_lt {p : Program} {ty : Ty} (h : ty.Known p) {c : ClassId}
    (hc : ty.class? = some c) : c < p.classes.size := by
  cases ty with
  | object d =>
    cases hc
    exact h.1
  | _ => cases hc

namespace Program

/-- The text a declared method is known by. -/
def declaredSubsig (p : Program) (retType : Ty) (name : String) (paramTypes : List Ty) : String :=
  p.tyName retType ++ " " ++ name ++ "(" ++ ",".intercalate (paramTypes.map p.tyName) ++ ")"

theorem Grows.declaredSubsig_eq {p q : Program} (hg : p.Grows q) {retType : Ty}
    (hret : retType.Known p) (name : String) {paramTypes : List Ty}
    (htypes : ∀ t ∈ paramTypes, t.Known p) :
    q.declaredSubsig retType name paramTypes = p.declaredSubsig retType name paramTypes := by
  have hnames : paramTypes.map q.tyName = paramTypes.map p.tyName :=
    List.map_congr_left fun t ht => (htypes t ht).tyName_eq hg
  rw [declaredSubsig, declaredSubsig, hret.tyName_eq hg, hnames]

/-- Each variable of a method knows its method and its place. -/
def VarsPlaced (p : Program) (m : MethodId) : Prop :=
  ∀ ⦃i v⦄, (p.methodAt m).vars[i]? = some v →
    v < p.vars.size ∧ (p.varAt v).method = m ∧ (p.varAt v).localIndex = i

structure ClassCoherent (p : Program) (c : ClassId) : Prop where
  declared : (p.classAt c).isPhantom = false → IsName (p.classAt c).name
  superClass : ∀ d ∈ (p.classAt c).superClass, (Ty.object d).Known p
  interfaces : ∀ d ∈ (p.classAt c).interfaces, (Ty.object d).Known p
  fields : ∀ f ∈ (p.classAt c).fields, f < p.fields.size
  methods : ∀ m ∈ (p.classAt c).methods, m < p.methods.size

structure FieldCoherent (p : Program) (f : FieldId) : Prop where
  owner : (p.fieldAt f).owner < p.classes.size
  ownerName : IsName (p.classAt (p.fieldAt f).owner).name
  name : IsName (p.fieldAt f).name
  ty : (p.fieldAt f).ty.Known p
  declared : p.declaredField? (p.fieldAt f).owner (p.fieldAt f).name = some f

structure MethodCoherent (p : Program) (m : MethodId) : Prop where
  owner : (Ty.object (p.methodAt m).owner).Known p
  name : IsName (p.methodAt m).name
  subsig : (p.methodAt m).subsig < p.subsigs.size
  paramTypes : ∀ t ∈ (p.methodAt m).paramTypes, t.Known p
  retType : (p.methodAt m).retType.Known p
  declared : p.declaredMethod? (p.methodAt m).owner (p.methodAt m).subsig = some m
  /-- The subsignature is put together from the types and the name. -/
  spelled : p.subsigAt (p.methodAt m).subsig =
    p.declaredSubsig (p.methodAt m).retType (p.methodAt m).name (p.methodAt m).paramTypes
  this : ∀ v ∈ (p.methodAt m).this, v ∈ (p.methodAt m).vars
  params : ∀ v ∈ (p.methodAt m).params, v ∈ (p.methodAt m).vars
  vars : p.VarsPlaced m

structure VarCoherent (p : Program) (v : VarId) : Prop where
  name : IsName (p.varAt v).name
  ty : (p.varAt v).ty.Known p
  method : (p.varAt v).method < p.methods.size
  place : (p.methodAt (p.varAt v).method).vars[(p.varAt v).localIndex]? = some v

/-- No two classes have one name. -/
def NamesDistinct (p : Program) : Prop :=
  ∀ ⦃c d⦄, c < p.classes.size → d < p.classes.size → (p.classAt c).name = (p.classAt d).name → c = d

/-- No two subsignatures have one text. -/
def SubsigsDistinct (p : Program) : Prop :=
  ∀ ⦃s t⦄, s < p.subsigs.size → t < p.subsigs.size → p.subsigAt s = p.subsigAt t → s = t

/-- **The declarations of a program fit together.** -/
structure Coherent (p : Program) : Prop where
  names : p.NamesDistinct
  subsigs : p.SubsigsDistinct
  classes : ∀ c < p.classes.size, p.ClassCoherent c
  fields : ∀ f < p.fields.size, p.FieldCoherent f
  methods : ∀ m < p.methods.size, p.MethodCoherent m
  vars : ∀ v < p.vars.size, p.VarCoherent v

theorem coherent_empty : ({} : Program).Coherent where
  names _ _ hc := absurd hc (Nat.not_lt_zero _)
  subsigs _ _ hs := absurd hs (Nat.not_lt_zero _)
  classes _ hc := absurd hc (Nat.not_lt_zero _)
  fields _ hf := absurd hf (Nat.not_lt_zero _)
  methods _ hm := absurd hm (Nat.not_lt_zero _)
  vars _ hv := absurd hv (Nat.not_lt_zero _)

variable {p q : Program}

/-- A class is found by its name. -/
theorem NamesDistinct.classByName?_eq_some_iff (h : p.NamesDistinct) {name : String} {c : ClassId} :
    p.classByName? name = some c ↔ c < p.classes.size ∧ (p.classAt c).name = name := by
  have hfound : ∀ {e}, p.classByName? name = some e →
      e < p.classes.size ∧ (p.classAt e).name = name := fun he => by
    obtain ⟨hlt, hname, -⟩ := Array.findIdx?_eq_some_iff_getElem.mp he
    exact ⟨hlt, by simpa [classAt, hlt] using hname⟩
  refine ⟨hfound, ?_⟩
  rintro ⟨hc, hname⟩
  cases he : p.classByName? name with
  | some e => rw [h (hfound he).1 hc ((hfound he).2.trans hname.symm)]
  | none =>
    have := Array.findIdx?_eq_none_iff.mp he _ (Array.getElem_mem hc)
    exact absurd hname (by simpa [classAt, hc] using this)

/-- A subsignature is found by its text. -/
theorem SubsigsDistinct.subsigByText?_eq_some_iff (h : p.SubsigsDistinct) {text : String}
    {s : SubsigId} : p.subsigByText? text = some s ↔ s < p.subsigs.size ∧ p.subsigAt s = text := by
  have hfound : ∀ {t}, p.subsigByText? text = some t →
      t < p.subsigs.size ∧ p.subsigAt t = text := fun ht => by
    obtain ⟨hlt, htext, -⟩ := Array.findIdx?_eq_some_iff_getElem.mp ht
    exact ⟨hlt, by simpa [subsigAt, hlt] using htext⟩
  refine ⟨hfound, ?_⟩
  rintro ⟨hs, htext⟩
  cases ht : p.subsigByText? text with
  | some t => rw [h (hfound ht).1 hs ((hfound ht).2.trans htext.symm)]
  | none =>
    have := Array.findIdx?_eq_none_iff.mp ht _ (Array.getElem_mem hs)
    exact absurd htext (by simpa [subsigAt, hs] using this)

/-! ## 2. What growth keeps -/

theorem ClassCoherent.grows {c : ClassId} (h : p.ClassCoherent c) (hg : p.Grows q)
    (hc : q.classAt c = p.classAt c) : q.ClassCoherent c where
  declared hphantom := hc ▸ h.declared (hc ▸ hphantom)
  superClass d hd := (h.superClass d (hc ▸ hd)).grows hg
  interfaces d hd := (h.interfaces d (hc ▸ hd)).grows hg
  fields f hf := Nat.lt_of_lt_of_le (h.fields f (hc ▸ hf)) hg.fields
  methods m hm := Nat.lt_of_lt_of_le (h.methods m (hc ▸ hm)) hg.methods

/-- A class that is mentioned only says nothing that could be wrong. -/
theorem classCoherent_of_phantom {c : ClassId} {name : String} (h : p.classAt c = { name := name }) :
    p.ClassCoherent c := by
  refine ⟨?_, ?_, ?_, ?_, ?_⟩
  · intro hd
    rw [h] at hd
    cases hd
  all_goals
    intro d hd
    rw [h] at hd
    cases hd

theorem FieldCoherent.grows {f : FieldId} (h : p.FieldCoherent f) (hg : p.Grows q)
    (hf : f < p.fields.size)
    (hdeclared : q.declaredField? (p.fieldAt f).owner (p.fieldAt f).name = some f) :
    q.FieldCoherent f := by
  have hat := hg.fieldAt hf
  refine ⟨?_, ?_, ?_, ?_, ?_⟩ <;> rw [hat]
  · exact Nat.lt_of_lt_of_le h.owner hg.classes
  · rw [hg.className h.owner]
    exact h.ownerName
  · exact h.name
  · exact h.ty.grows hg
  · exact hdeclared

theorem VarCoherent.grows {v : VarId} (h : p.VarCoherent v) (hg : p.Grows q)
    (hv : v < p.vars.size) : q.VarCoherent v := by
  have hat := hg.varAt hv
  refine ⟨?_, ?_, ?_, ?_⟩ <;> rw [hat]
  · exact h.name
  · exact h.ty.grows hg
  · exact Nat.lt_of_lt_of_le h.method hg.methods
  · obtain ⟨later, hlater⟩ := hg.methodVars h.method
    rw [← hlater]
    exact List.getElem?_append_left (List.getElem?_eq_some_iff.mp h.place).1 ▸ h.place

/-- A method keeps fitting while variables are added behind the ones it has. -/
theorem MethodCoherent.grows {m : MethodId} (h : p.MethodCoherent m) (hg : p.Grows q)
    (hm : m < p.methods.size) (hheader : (q.methodAt m).header = (p.methodAt m).header)
    (hdeclared : q.declaredMethod? (p.methodAt m).owner (p.methodAt m).subsig = some m)
    (hvars : q.VarsPlaced m) : q.MethodCoherent m := by
  have howner : (q.methodAt m).owner = (p.methodAt m).owner := (congrArg MethodDecl.owner hheader :)
  have hsubsig : (q.methodAt m).subsig = (p.methodAt m).subsig := (congrArg MethodDecl.subsig hheader :)
  have htypes : (q.methodAt m).paramTypes = (p.methodAt m).paramTypes :=
    (congrArg MethodDecl.paramTypes hheader :)
  have hret : (q.methodAt m).retType = (p.methodAt m).retType := (congrArg MethodDecl.retType hheader :)
  have hname : (q.methodAt m).name = (p.methodAt m).name := (congrArg MethodDecl.name hheader :)
  have hthis : (q.methodAt m).this = (p.methodAt m).this := (congrArg MethodDecl.this hheader :)
  have hparams : (q.methodAt m).params = (p.methodAt m).params := (congrArg MethodDecl.params hheader :)
  refine ⟨?_, ?_, ?_, ?_, ?_, ?_, ?_, ?_, ?_, hvars⟩
  · rw [howner]
    exact h.owner.grows hg
  · rw [hname]
    exact h.name
  · rw [hsubsig]
    exact Nat.lt_of_lt_of_le h.subsig hg.subsigs
  · rw [htypes]
    exact fun t ht => (h.paramTypes t ht).grows hg
  · rw [hret]
    exact h.retType.grows hg
  · rw [howner, hsubsig]
    exact hdeclared
  · rw [hsubsig, hret, hname, htypes, hg.subsigAt h.subsig,
      hg.declaredSubsig_eq h.retType _ h.paramTypes]
    exact h.spelled
  · rw [hthis]
    exact fun v hv => hg.mem_vars hm (h.this v hv)
  · rw [hparams]
    exact fun v hv => hg.mem_vars hm (h.params v hv)

/-- **What has to be looked at when a program grows**: the names, the classes that changed, and
    what is new in each table. -/
theorem Coherent.grows (h : p.Coherent) (hg : p.Grows q) (hnames : q.NamesDistinct)
    (hsubsigs : q.SubsigsDistinct)
    (hclasses : ∀ c < q.classes.size,
      c < p.classes.size ∧ q.classAt c = p.classAt c ∨ q.ClassCoherent c)
    (hdeclaredField : ∀ {c name f}, c < p.classes.size → p.declaredField? c name = some f →
      q.declaredField? c name = some f)
    (hdeclaredMethod : ∀ {c s m}, c < p.classes.size → p.declaredMethod? c s = some m →
      q.declaredMethod? c s = some m)
    (hheader : ∀ m < p.methods.size, (q.methodAt m).header = (p.methodAt m).header)
    (hplaced : ∀ m < p.methods.size, q.VarsPlaced m)
    (hfields : ∀ f, p.fields.size ≤ f → f < q.fields.size → q.FieldCoherent f)
    (hmethods : ∀ m, p.methods.size ≤ m → m < q.methods.size → q.MethodCoherent m)
    (hvars : ∀ v, p.vars.size ≤ v → v < q.vars.size → q.VarCoherent v) : q.Coherent where
  names := hnames
  subsigs := hsubsigs
  classes c hc := by
    rcases hclasses c hc with ⟨hlt, heq⟩ | hnew
    · exact (h.classes c hlt).grows hg heq
    · exact hnew
  fields f hf := by
    rcases Nat.lt_or_ge f p.fields.size with hold | hnew
    · have hfield := h.fields f hold
      exact hfield.grows hg hold (hdeclaredField hfield.owner hfield.declared)
    · exact hfields f hnew hf
  methods m hm := by
    rcases Nat.lt_or_ge m p.methods.size with hold | hnew
    · have hmethod := h.methods m hold
      exact hmethod.grows hg hold (hheader m hold)
        (hdeclaredMethod hmethod.owner.1 hmethod.declared) (hplaced m hold)
    · exact hmethods m hnew hm
  vars v hv := by
    rcases Nat.lt_or_ge v p.vars.size with hold | hnew
    · exact (h.vars v hold).grows hg hold
    · exact hvars v hnew hv

/-- While bodies are read, only names and variables can go wrong. -/
theorem Coherent.fills (h : p.Coherent) (hf : p.Fills q) (hnames : q.NamesDistinct)
    (hsubsigs : q.SubsigsDistinct) (hplaced : ∀ m < p.methods.size, q.VarsPlaced m)
    (hvars : ∀ v, p.vars.size ≤ v → v < q.vars.size → q.VarCoherent v) : q.Coherent := by
  refine h.grows hf.toGrows hnames hsubsigs (fun c hc => ?_) (fun hc hfield => ?_)
    (fun hc hmethod => ?_) (fun m _ => hf.header m) hplaced (fun f hle hlt => ?_) (fun m hle hlt => ?_) hvars
  · rcases Nat.lt_or_ge c p.classes.size with hold | hnew
    · exact .inl ⟨hold, hf.classAt hold⟩
    · exact .inr (classCoherent_of_phantom (hf.phantom hnew hc))
  · rw [hf.declaredField?_eq hc, hfield]
  · rw [hf.declaredMethod?_eq hc, hmethod]
  · rw [hf.sameFields] at hlt
    exact absurd hlt (Nat.not_lt.mpr hle)
  · rw [hf.sameMethods] at hlt
    exact absurd hlt (Nat.not_lt.mpr hle)

theorem NamesDistinct.grows (h : p.NamesDistinct) (hg : p.Grows q)
    (hsize : q.classes.size = p.classes.size) : q.NamesDistinct := by
  intro c d hc hd heq
  rw [hsize] at hc hd
  rw [hg.className hc, hg.className hd] at heq
  exact h hc hd heq

theorem VarsPlaced.grows {m : MethodId} (h : p.VarsPlaced m) (hg : p.Grows q)
    (hvars : (q.methodAt m).vars = (p.methodAt m).vars) : q.VarsPlaced m := by
  intro i v hv
  rw [hvars] at hv
  obtain ⟨hlt, hmethod, hindex⟩ := h hv
  rw [hg.varAt hlt]
  exact ⟨Nat.lt_of_lt_of_le hlt hg.vars, hmethod, hindex⟩

/-! ## 3. The ways a program grows -/

theorem Coherent.internClass (h : p.Coherent) (name : String) :
    (p.internClass name).2.Coherent := by
  rcases p.internClass_cases name with ⟨c, -, -, hintern⟩ | ⟨hfresh, hintern⟩
  · rw [hintern]
    exact h
  · rw [hintern]
    have hf := fills_addClass p name
    have hat : ∀ c, c < p.classes.size + 1 →
        c < p.classes.size ∧ ((p.classes.push { name := name }).getD c default).name =
          (p.classAt c).name ∨
        c = p.classes.size ∧ ((p.classes.push { name := name }).getD c default).name = name := by
      intro c hc
      rcases Nat.lt_succ_iff_lt_or_eq.mp hc with hlt | rfl
      · exact .inl ⟨hlt, hf.className hlt⟩
      · exact .inr ⟨rfl, by simp⟩
    refine h.fills hf ?_ h.subsigs (fun m hm => (h.methods m hm).vars.grows hf.toGrows rfl)
      (fun v hle hlt => absurd hlt (Nat.not_lt.mpr hle))
    intro c d hc hd heq
    rw [Array.size_push] at hc hd
    rcases hat c hc with ⟨hc, hcname⟩ | ⟨rfl, hcname⟩ <;>
      rcases hat d hd with ⟨hd, hdname⟩ | ⟨rfl, hdname⟩
    · exact h.names hc hd (hcname.symm.trans (heq.trans hdname))
    · exact absurd (hcname.symm.trans (heq.trans hdname)) (hfresh c hc)
    · exact absurd (hdname.symm.trans (heq.symm.trans hcname)) (hfresh d hd)
    · rfl

theorem Coherent.internSubsig (h : p.Coherent) (text : String) :
    (p.internSubsig text).2.Coherent := by
  rcases p.internSubsig_cases text with ⟨s, -, -, hintern⟩ | ⟨hfresh, hintern⟩
  · rw [hintern]
    exact h
  · rw [hintern]
    have hf := fills_addSubsig p text
    have hat : ∀ s, s < p.subsigs.size + 1 →
        s < p.subsigs.size ∧ (p.subsigs.push text).getD s "" = p.subsigAt s ∨
        s = p.subsigs.size ∧ (p.subsigs.push text).getD s "" = text := by
      intro s hs
      rcases Nat.lt_succ_iff_lt_or_eq.mp hs with hlt | rfl
      · exact .inl ⟨hlt, hf.subsigAt hlt⟩
      · exact .inr ⟨rfl, by simp⟩
    refine h.fills hf h.names ?_ (fun m hm => (h.methods m hm).vars.grows hf.toGrows rfl)
      (fun v hle hlt => absurd hlt (Nat.not_lt.mpr hle))
    intro s t hs ht heq
    rw [Array.size_push] at hs ht
    rcases hat s hs with ⟨hs, hstext⟩ | ⟨rfl, hstext⟩ <;>
      rcases hat t ht with ⟨ht, httext⟩ | ⟨rfl, httext⟩
    · exact h.subsigs hs ht (hstext.symm.trans (heq.trans httext))
    · exact absurd (hstext.symm.trans (heq.trans httext)) (hfresh s hs)
    · exact absurd (httext.symm.trans (heq.symm.trans hstext)) (hfresh t ht)
    · rfl

theorem Coherent.setBody (h : p.Coherent) {m : MethodId} (hm : m < p.methods.size)
    (body : Array Instr) :
    (p.modifyMethod m fun d => { d with body := body }).Coherent := by
  have hf : p.Fills (p.modifyMethod m fun d => { d with body := body }) :=
    fills_modifyMethod hm rfl (List.prefix_refl _)
  refine h.fills hf h.names h.subsigs (fun n hn => (h.methods n hn).vars.grows hf.toGrows ?_)
    (fun v hle hlt => absurd hlt (Nat.not_lt.mpr hle))
  exact kept_modifyMethod p hm MethodDecl.vars rfl n

theorem Coherent.addVar (h : p.Coherent) {m : MethodId} (hm : m < p.methods.size) {name : String}
    (hname : IsName name) {ty : Ty} (hty : ty.Known p) : (p.addVar m name ty).2.Coherent := by
  have hf := fills_addVar hm name ty
  have hnew : (p.addVar m name ty).2.varAt p.vars.size =
      ⟨name, ty, m, (p.methodAt m).vars.length⟩ := by
    simp [Program.addVar, varAt, modifyMethod]
  have hsize : (p.addVar m name ty).2.vars.size = p.vars.size + 1 := by
    simp [Program.addVar, modifyMethod]
  have hvars : ((p.addVar m name ty).2.methodAt m).vars = (p.methodAt m).vars ++ [p.vars.size] := by
    rw [methodAt_addVar hm, if_pos rfl]
  refine h.fills hf h.names h.subsigs (fun n hn => ?_) (fun v hle hlt => ?_)
  · by_cases hmn : n = m
    · subst hmn
      intro i v hv
      rw [hvars] at hv
      rcases Nat.lt_or_ge i (p.methodAt n).vars.length with hi | hi
      · rw [List.getElem?_append_left hi] at hv
        obtain ⟨hlt, hmethod, hindex⟩ := (h.methods n hn).vars hv
        rw [hf.varAt hlt]
        exact ⟨Nat.lt_of_lt_of_le hlt hf.vars, hmethod, hindex⟩
      · rw [List.getElem?_append_right hi] at hv
        obtain ⟨rfl, hi'⟩ : v = p.vars.size ∧ i = (p.methodAt n).vars.length := by
          rcases Nat.eq_or_lt_of_le hi with heq | hgt
          · rw [← heq, Nat.sub_self] at hv
            exact ⟨(Option.some.inj hv).symm, heq.symm⟩
          · rw [List.getElem?_eq_none (by simp; omega)] at hv
            cases hv
        rw [hnew, hsize]
        exact ⟨Nat.lt_succ_self _, rfl, hi'.symm⟩
    · refine (h.methods n hn).vars.grows hf.toGrows ?_
      rw [methodAt_addVar hm, if_neg hmn]
  · obtain rfl : v = p.vars.size := by omega
    refine ⟨?_, ?_, ?_, ?_⟩ <;> rw [hnew]
    · exact hname
    · exact hty.grows hf.toGrows
    · exact Nat.lt_of_lt_of_le hm hf.methods
    · rw [hvars, List.getElem?_concat_length]

/-- A class that is declared gets its supertypes; its members stay. -/
theorem Coherent.declareClass (h : p.Coherent) {c : ClassId} (hknown : (Ty.object c).Known p)
    {f : ClassDecl → ClassDecl} (hname : (f (p.classAt c)).name = (p.classAt c).name)
    (hfields : (f (p.classAt c)).fields = (p.classAt c).fields)
    (hmethods : (f (p.classAt c)).methods = (p.classAt c).methods)
    (hsuper : ∀ d ∈ (f (p.classAt c)).superClass, (Ty.object d).Known p)
    (hinterfaces : ∀ d ∈ (f (p.classAt c)).interfaces, (Ty.object d).Known p) :
    (p.modifyClass c f).Coherent := by
  have hc := hknown.1
  have hg := grows_modifyClass hc hname
  have hsize : (p.modifyClass c f).classes.size = p.classes.size := Array.size_modify
  have hat := classAt_modifyClass p c
  refine h.grows hg (h.names.grows hg hsize) h.subsigs (fun d hd => ?_)
    (fun {d _ _} _ hfield => ?_) (fun {d _ _} _ hmethod => ?_) (fun _ _ => rfl)
    (fun m hm => (h.methods m hm).vars.grows hg rfl)
    (fun _ hle hlt => absurd hlt (Nat.not_lt.mpr hle))
    (fun _ hle hlt => absurd hlt (Nat.not_lt.mpr hle))
    (fun _ hle hlt => absurd hlt (Nat.not_lt.mpr hle))
  · by_cases hdc : d = c
    · subst hdc
      have hold := h.classes d hc
      have hnew : (p.modifyClass d f).classAt d = f (p.classAt d) := by rw [hat d f hc, if_pos rfl]
      refine .inr ⟨?_, ?_, ?_, ?_, ?_⟩ <;> rw [hnew]
      · rw [hname]
        exact fun _ => hknown.2
      · exact fun e he => (hsuper e he).grows hg
      · exact fun e he => (hinterfaces e he).grows hg
      · rw [hfields]
        exact hold.fields
      · rw [hmethods]
        exact hold.methods
    · rw [hsize] at hd
      exact .inl ⟨hd, by rw [hat d f hc, if_neg hdc]⟩
  · rw [← hfield, declaredField?, declaredField?, kept_modifyClass p hc ClassDecl.fields hfields]
    rfl
  · rw [← hmethod, declaredMethod?, declaredMethod?,
      kept_modifyClass p hc ClassDecl.methods hmethods]
    rfl

theorem Coherent.addField (h : p.Coherent) {field : FieldDecl}
    (howner : (Ty.object field.owner).Known p) (hname : IsName field.name) (hty : field.ty.Known p)
    (hfresh : p.declaredField? field.owner field.name = none) : (p.addField field).Coherent := by
  have hc := howner.1
  have hg := grows_addField hc
  have hsize : (p.addField field).classes.size = p.classes.size := Array.size_modify
  have hat : ∀ d, (p.addField field).classAt d =
      if d = field.owner then
        { p.classAt field.owner with fields := (p.classAt field.owner).fields ++ [p.fields.size] }
      else p.classAt d := fun d =>
    classAt_modifyClass { p with fields := p.fields.push field } field.owner d _ hc
  have hnew : (p.addField field).fieldAt p.fields.size = field := by
    simp [Program.addField, fieldAt, modifyClass]
  have hfieldsSize : (p.addField field).fields.size = p.fields.size + 1 := by
    simp [Program.addField, modifyClass]
  -- what a class declared before, it declares under the same names
  have hold : ∀ {d name}, d < p.classes.size →
      ((p.classAt d).fields.find? fun f => ((p.addField field).fieldAt f).name = name) =
        p.declaredField? d name := fun {d name} hd =>
    List.find?_congr fun f hf => by rw [hg.fieldAt ((h.classes d hd).fields f hf)]
  refine h.grows hg (h.names.grows hg hsize) h.subsigs (fun d hd => ?_)
    (fun {d name f} hd hfield => ?_) (fun {d _ _} _ hmethod => ?_) (fun _ _ => rfl)
    (fun m hm => (h.methods m hm).vars.grows hg rfl) (fun f hle hlt => ?_)
    (fun _ hle hlt => absurd hlt (Nat.not_lt.mpr hle))
    (fun _ hle hlt => absurd hlt (Nat.not_lt.mpr hle))
  · rw [hsize] at hd
    by_cases hdc : d = field.owner
    · subst hdc
      have hclass := h.classes _ hc
      refine .inr ⟨?_, ?_, ?_, ?_, ?_⟩ <;> rw [hat, if_pos rfl]
      · exact hclass.declared
      · exact fun e he => (hclass.superClass e he).grows hg
      · exact fun e he => (hclass.interfaces e he).grows hg
      · intro f hf
        rw [hfieldsSize]
        rcases List.mem_append.mp hf with hf | hf
        · exact Nat.lt_succ_of_lt (hclass.fields f hf)
        · rw [List.mem_singleton.mp hf]
          exact Nat.lt_succ_self _
      · exact hclass.methods
    · exact .inl ⟨hd, by rw [hat, if_neg hdc]⟩
  · rw [declaredField?, hat]
    split
    · rename_i hdc
      subst hdc
      rw [List.find?_append, hold hc, hfield]
      rfl
    · rw [hold hd, hfield]
  · have hsame : ((p.addField field).classAt d).methods = (p.classAt d).methods :=
      kept_modifyClass { p with fields := p.fields.push field } hc ClassDecl.methods rfl d
    rw [← hmethod, declaredMethod?, declaredMethod?, hsame]
    rfl
  · obtain rfl : f = p.fields.size := by omega
    refine ⟨?_, ?_, ?_, ?_, ?_⟩ <;> rw [hnew]
    · rw [hsize]
      exact hc
    · rw [hg.className hc]
      exact howner.2
    · exact hname
    · exact hty.grows hg
    · rw [declaredField?, hat, if_pos rfl, List.find?_append, hold hc, hfresh]
      simp [hnew]

/-- The method may join its class: what it mentions is known, its subsignature is its own there,
    and none of its variables has been declared yet. -/
structure Admits (p : Program) (d : MethodDecl) : Prop where
  owner : (Ty.object d.owner).Known p
  name : IsName d.name
  subsig : d.subsig < p.subsigs.size
  paramTypes : ∀ t ∈ d.paramTypes, t.Known p
  retType : d.retType.Known p
  fresh : p.declaredMethod? d.owner d.subsig = none
  spelled : p.subsigAt d.subsig = p.declaredSubsig d.retType d.name d.paramTypes
  this : d.this = none
  params : d.params = []
  vars : d.vars = []

theorem Coherent.addMethod (h : p.Coherent) {d : MethodDecl} (hd : p.Admits d) :
    (p.addMethod d).2.Coherent := by
  have hc := hd.owner.1
  have hg := grows_addMethod hc
  have hsize : (p.addMethod d).2.classes.size = p.classes.size := Array.size_modify
  have hat : ∀ c, (p.addMethod d).2.classAt c =
      if c = d.owner then
        { p.classAt d.owner with methods := (p.classAt d.owner).methods ++ [p.methods.size] }
      else p.classAt c := fun c =>
    classAt_modifyClass { p with methods := p.methods.push d } d.owner c _ hc
  have hmethodsSize : (p.addMethod d).2.methods.size = p.methods.size + 1 := by
    simp [Program.addMethod, modifyClass]
  have hkept : ∀ {m}, m < p.methods.size → (p.addMethod d).2.methodAt m = p.methodAt m :=
    fun hm => getD_push_of_lt hm _ _
  have hnew : (p.addMethod d).2.methodAt p.methods.size = d := by
    simp [Program.addMethod, methodAt, modifyClass]
  have hold : ∀ {c s}, c < p.classes.size →
      ((p.classAt c).methods.find? fun m => ((p.addMethod d).2.methodAt m).subsig = s) =
        p.declaredMethod? c s := fun {c s} hlt =>
    List.find?_congr fun m hm => by rw [hkept ((h.classes c hlt).methods m hm)]
  refine h.grows hg (h.names.grows hg hsize) h.subsigs (fun c hlt => ?_)
    (fun {c _ _} _ hfield => ?_) (fun {c s m} hlt hmethod => ?_) (fun m hm => by rw [hkept hm])
    (fun m hm => (h.methods m hm).vars.grows hg (by rw [hkept hm]))
    (fun _ hle hlt => absurd hlt (Nat.not_lt.mpr hle)) (fun m hle hlt => ?_)
    (fun _ hle hlt => absurd hlt (Nat.not_lt.mpr hle))
  · rw [hsize] at hlt
    by_cases hco : c = d.owner
    · subst hco
      have hclass := h.classes _ hc
      refine .inr ⟨?_, ?_, ?_, ?_, ?_⟩ <;> rw [hat, if_pos rfl]
      · exact hclass.declared
      · exact fun e he => (hclass.superClass e he).grows hg
      · exact fun e he => (hclass.interfaces e he).grows hg
      · exact hclass.fields
      · intro m hm
        rw [hmethodsSize]
        rcases List.mem_append.mp hm with hm | hm
        · exact Nat.lt_succ_of_lt (hclass.methods m hm)
        · rw [List.mem_singleton.mp hm]
          exact Nat.lt_succ_self _
    · exact .inl ⟨hlt, by rw [hat, if_neg hco]⟩
  · have hsame : ((p.addMethod d).2.classAt c).fields = (p.classAt c).fields :=
      kept_modifyClass { p with methods := p.methods.push d } hc ClassDecl.fields rfl c
    rw [← hfield, declaredField?, declaredField?, hsame]
    rfl
  · rw [declaredMethod?, hat]
    split
    · rename_i hco
      subst hco
      rw [List.find?_append, hold hc, hmethod]
      rfl
    · rw [hold hlt, hmethod]
  · obtain rfl : m = p.methods.size := by omega
    refine ⟨?_, ?_, ?_, ?_, ?_, ?_, ?_, ?_, ?_, ?_⟩
    · rw [hnew]
      exact hd.owner.grows hg
    · rw [hnew]
      exact hd.name
    · rw [hnew]
      exact hd.subsig
    · rw [hnew]
      exact fun t ht => (hd.paramTypes t ht).grows hg
    · rw [hnew]
      exact hd.retType.grows hg
    · rw [hnew, declaredMethod?, hat, if_pos rfl, List.find?_append, hold hc, hd.fresh]
      simp [hnew]
    · rw [hnew, hg.declaredSubsig_eq hd.retType _ hd.paramTypes]
      exact hd.spelled
    · rw [hnew, hd.this]
      exact fun v hv => absurd hv (by simp)
    · rw [hnew, hd.params]
      exact fun v hv => absurd hv List.not_mem_nil
    · intro i v hv
      rw [hnew, hd.vars] at hv
      cases hv

/-- Which of its variables are the receiver and the parameters is a matter of the method. -/
theorem Coherent.nameVars (h : p.Coherent) {m : MethodId} (hm : m < p.methods.size)
    {this : Option VarId} {params : List VarId} (hthis : ∀ v ∈ this, v ∈ (p.methodAt m).vars)
    (hparams : ∀ v ∈ params, v ∈ (p.methodAt m).vars) {f : MethodDecl → MethodDecl}
    (hf : f (p.methodAt m) = { p.methodAt m with this := this, params := params }) :
    (p.modifyMethod m f).Coherent := by
  have hat : ∀ n, (p.modifyMethod m f).methodAt n =
      if n = m then { p.methodAt m with this := this, params := params } else p.methodAt n :=
    fun n => by rw [methodAt_modifyMethod p m n f hm, hf]
  have hsubsig := kept_modifyMethod p hm MethodDecl.subsig (f := f) (by rw [hf])
  have hvars := kept_modifyMethod p hm MethodDecl.vars (f := f) (by rw [hf])
  have hg : p.Grows (p.modifyMethod m f) := { Grows.refl p with
    methods := by simp [modifyMethod]
    methodVars := fun {n} _ => hvars n ▸ List.prefix_refl _ }
  have hdeclared : ∀ c s, (p.modifyMethod m f).declaredMethod? c s = p.declaredMethod? c s := by
    intro c s
    simp only [declaredMethod?, hsubsig]
    rfl
  have hplaced : ∀ n < p.methods.size, (p.modifyMethod m f).VarsPlaced n := fun n hn =>
    (h.methods n hn).vars.grows hg (hvars n)
  refine ⟨h.names, h.subsigs, fun c hc => (h.classes c hc).grows hg rfl,
    fun f hf => (h.fields f hf).grows hg hf (h.fields f hf).declared, fun n hn => ?_,
    fun v hv => (h.vars v hv).grows hg hv⟩
  have hn' : n < p.methods.size := by simpa [modifyMethod] using hn
  have hmethod := h.methods n hn'
  by_cases hnm : n = m
  · subst hnm
    have hnew := (hat n).trans (if_pos rfl)
    refine ⟨?_, ?_, ?_, ?_, ?_, ?_, ?_, ?_, ?_, hplaced n hn'⟩ <;> rw [hnew]
    · exact hmethod.owner.grows hg
    · exact hmethod.name
    · exact hmethod.subsig
    · exact fun t ht => (hmethod.paramTypes t ht).grows hg
    · exact hmethod.retType.grows hg
    · rw [hdeclared]
      exact hmethod.declared
    · rw [hg.declaredSubsig_eq hmethod.retType _ hmethod.paramTypes]
      exact hmethod.spelled
    · exact hthis
    · exact hparams
  · refine hmethod.grows hg hn' ?_ ?_ (hplaced n hn')
    · rw [hat, if_neg hnm]
    · rw [hdeclared]
      exact hmethod.declared

end Program

end ObjectFlow
