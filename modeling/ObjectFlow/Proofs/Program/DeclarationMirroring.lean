/-
  File:      ObjectFlow/Proofs/Program/DeclarationMirroring.lean
  Subject:   DECLARATIONS WITH THE SAME TOKENS, READ TWICE.

  Declarations are read before any body, and bodies are passed over. Two texts whose declarations
  have the same tokens give one and the same program.

  * `Program.VarsListed`: before bodies are read, the variables of a method are its receiver and
    its parameters;
  * `Reader.Twins`: two readers that give the same from the same program;
  * one lemma for each reader of declarations, up to `mirrors_readMemberHead` and
    `twins_readClassHead`: members and classes up to their bodies.
-/
import Mathlib.Data.List.Forall2
import ObjectFlow.Proofs.Program.Declarations
import ObjectFlow.Proofs.Program.Mirroring

namespace ObjectFlow

namespace Program

/-! ## 1. Variables before bodies are read -/

/-- **The variables of each method are its receiver and its parameters.** -/
def VarsListed (p : Program) : Prop := ∀ m,
  (p.methodAt m).vars.length = (p.methodAt m).this.toList.length + (p.methodAt m).params.length

variable {p q : Program} {m : MethodId}

theorem varsListed_empty : ({} : Program).VarsListed := fun _ => rfl

theorem VarsListed.sameMethods (h : p.VarsListed) (hq : q.methods = p.methods) : q.VarsListed := by
  intro n
  rw [methodAt, hq]
  exact h n

theorem methodAt_addMethod (p : Program) (d : MethodDecl) (n : MethodId) :
    (p.addMethod d).2.methodAt n = if n = p.methods.size then d else p.methodAt n :=
  getD_push p.methods d n default

theorem VarsListed.addMethod (h : p.VarsListed) {d : MethodDecl}
    (hd : d.vars = [] ∧ d.this = none ∧ d.params = []) : (p.addMethod d).2.VarsListed := by
  intro n
  rw [methodAt_addMethod]
  split
  · rw [hd.1, hd.2.1, hd.2.2]
    rfl
  · exact h n

/-- A variable of a method that is made its receiver or a parameter. -/
theorem methodAt_addNamed (hm : m < p.methods.size) (name : String) (ty : Ty)
    (f : MethodDecl → MethodDecl) (n : MethodId) :
    ((p.addVar m name ty).2.modifyMethod m f).methodAt n =
      if n = m then f { p.methodAt m with vars := (p.methodAt m).vars ++ [p.vars.size] }
      else p.methodAt n := by
  have hsize : m < (p.addVar m name ty).2.methods.size := by
    simpa [addVar, modifyMethod] using hm
  rw [methodAt_modifyMethod _ m n f hsize, methodAt_addVar hm, methodAt_addVar hm, if_pos rfl]
  split
  · rfl
  · rfl

theorem VarsListed.addThis (h : p.VarsListed) (hm : m < p.methods.size)
    (hthis : (p.methodAt m).this = none) (owner : ClassId) : (p.addThis m owner).VarsListed := by
  intro n
  have hlisted := h m
  rw [hthis] at hlisted
  have hat : (p.addThis m owner).methodAt n = _ := methodAt_addNamed hm _ _ _ n
  rw [hat]
  split
  · simp only [List.length_append, hlisted, Option.toList_none, Option.toList_some,
      List.length_nil, List.length_singleton]
    omega
  · exact h n

theorem VarsListed.addParams (h : p.VarsListed) (hm : m < p.methods.size)
    (params : List (String × Ty)) :
    (params.foldl (fun p (name, ty) => p.addParam m name ty) p).VarsListed ∧
      (params.foldl (fun p (name, ty) => p.addParam m name ty) p).methods.size = p.methods.size := by
  induction params generalizing p with
  | nil => exact ⟨h, rfl⟩
  | cons param params ih =>
    obtain ⟨name, ty⟩ := param
    have hsize : (p.addParam m name ty).methods.size = p.methods.size := by
      simp [addParam, addVar, modifyMethod]
    have hlisted : (p.addParam m name ty).VarsListed := by
      intro n
      have hat : (p.addParam m name ty).methodAt n = _ := methodAt_addNamed hm _ _ _ n
      rw [hat]
      split
      · simp only [List.length_append, h m, List.length_singleton]
        omega
      · exact h n
    obtain ⟨hlater, hlatersize⟩ := ih hlisted (hsize ▸ hm)
    exact ⟨hlater, hlatersize.trans hsize⟩

end Program

/-! ## 2. The same program twice -/

/-- Declarations are read twice, into the same program. -/
def Duo.declarations : Duo where
  Holds p p' := p = p' ∧ p.VarsListed
  To p q := p.methods.size ≤ q.methods.size
  refl _ := Nat.le_refl _
  trans := Nat.le_trans

theorem types_declarations : Duo.declarations.Types fun _ _ ty ty' => ty = ty' where
  prim _ _ := rfl
  object {p q} h name _ := by
    obtain ⟨rfl, hlisted⟩ := h
    have hsame := (p.internClass_same name).1
    refine ⟨⟨rfl, hlisted.sameMethods hsame⟩, ?_, ?_, rfl⟩
    · exact Nat.le_of_eq (congrArg Array.size hsame).symm
    · exact Nat.le_of_eq (congrArg Array.size hsame).symm
  array h := congrArg Ty.array h

namespace Reader

open Program

variable {α β α' β' : Type} {p : Program} {R R₁ R₂ : TokenRel} {j k : Nat}

/-- **Both readers give the same from the same program**, if the first one succeeds. -/
abbrev Twins (R R' : TokenRel) (k : Nat) (p : Program) (r : Reader α) (r' : Reader α')
    (post : α → α' → Prop) : Prop :=
  Mirrors .declarations R R' k p p r r' fun _ _ a a' => post a a'

theorem Twins.bind {r : Reader α} {r' : Reader α'} {f : α → Reader β} {f' : α' → Reader β'}
    {mid : α → α' → Prop} {post : β → β' → Prop} (hr : Twins R R₁ j p r r' mid)
    (hf : ∀ q a a', p.methods.size ≤ q.methods.size → mid a a' → Twins R₁ R₂ k q (f a) (f' a') post) :
    Twins R R₂ k p (r >>= f) (r' >>= f') post := by
  refine Mirrors.bind hr fun q q' a a' hq hpq _ hmid => ?_
  obtain ⟨rfl, -⟩ := hq
  exact hf q a a' hpq hmid

theorem Twins.bindFirst {r : Reader α} {r' : Reader α'} {f : α → Reader β} {f' : α' → Reader β'}
    {mid : α → α' → Prop} {post : β → β' → Prop} (hr : Twins R R₁ k p r r' mid)
    (hf : ∀ q a a', p.methods.size ≤ q.methods.size → mid a a' → Twins R₁ R₂ 0 q (f a) (f' a') post) :
    Twins R R₂ k p (r >>= f) (r' >>= f') post := by
  refine Mirrors.bindFirst hr fun q q' a a' hq hpq _ hmid => ?_
  obtain ⟨rfl, -⟩ := hq
  exact hf q a a' hpq hmid

theorem twins_update {f : Program → α × Program}
    (h : p.VarsListed → (f p).2.VarsListed ∧ p.methods.size ≤ (f p).2.methods.size) :
    Twins R R 0 p (update f) (update f) Eq :=
  mirrors_update fun hp => ⟨⟨rfl, (h hp.2).1⟩, (h hp.2).2, (h hp.2).2, rfl⟩

/-- A change that leaves the methods alone. -/
theorem twins_update_of_same {f : Program → α × Program} (h : (f p).2.methods = p.methods) :
    Twins R R 0 p (update f) (update f) Eq :=
  twins_update fun hp => ⟨hp.sameMethods h, Nat.le_of_eq (congrArg Array.size h).symm⟩

theorem twins_internClass (name : String) :
    Twins R R 0 p (internClass name) (internClass name) Eq :=
  twins_update_of_same (p.internClass_same name).1

theorem twins_commas (hR : Parallel R) {item : Reader α}
    (hitem : ∀ q, Twins R R j q item item Eq) :
    Twins R R 0 p (commas item) (commas item) Eq := by
  refine mirrors_of_holds fun _ => ?_
  have hlist : Mirrors .declarations R R 0 p p (commas item) (commas item)
      fun _ _ => List.Forall₂ Eq := by
    refine mirrors_commas (j := j) hR (fun _ _ _ _ _ _ _ _ h => h) fun q q' _ _ => ?_
    intro tokens tokens' said a s said' hq
    obtain ⟨rfl, -⟩ := id hq
    exact hitem q said' hq
  exact hlist.mono fun _ _ as as' _ _ h => List.forall₂_eq_eq_eq ▸ h

/-! ## 3. Members -/

theorem twins_readType (hR : Parallel R) : Twins R R 1 p readType readType Eq :=
  mirrors_readType hR types_declarations

theorem twins_readField (hR : Parallel R) (owner : ClassId) (isStatic : Bool) :
    Twins R R 0 p (readField owner isStatic) (readField owner isStatic) Eq := by
  refine Twins.bind (twins_readType hR) fun q ty ty' _ hty => ?_
  subst hty
  refine Mirrors.after (glances_identifier hR) fun (found, name) (found', name') hname => ?_
  obtain ⟨-, heq⟩ := hname
  obtain rfl : name = name' := heq
  refine Mirrors.after (glances_expect hR rfl).dropped fun _ _ _ => ?_
  refine mirrors_program (mirrors_guard id fun _ => ?_)
  exact twins_update_of_same rfl

theorem twins_readParam (hR : Parallel R) : Twins R R 1 p readParam readParam Eq := by
  refine Twins.bindFirst (twins_readType hR) fun q ty ty' _ hty => ?_
  subst hty
  refine (Mirrors.after (glances_identifier hR) fun (found, name) (found', name') hname => ?_)
  obtain ⟨-, heq⟩ := hname
  obtain rfl : name = name' := heq
  exact mirrors_pure rfl

theorem twins_readParams (hR : Parallel R) : Twins R R 0 p readParams readParams Eq := by
  have hclose : ∀ {q : Program} (params : List (String × Ty)), Twins R R 0 q
      (discard (expect (.mark .rightParen)) >>= fun _ => pure params)
      (discard (expect (.mark .rightParen)) >>= fun _ => pure params) Eq := fun params =>
    Mirrors.after (glances_expect hR rfl).dropped fun _ _ _ => mirrors_pure rfl
  refine Mirrors.after (glances_expect hR rfl).dropped fun _ _ _ => ?_
  refine Mirrors.after (glances_check hR _) fun empty _ hempty => ?_
  subst hempty
  cases empty with
  | true => exact hclose []
  | false =>
    refine Twins.bind (twins_commas hR fun q => twins_readParam hR) fun q params _ _ hparams => ?_
    subst hparams
    exact hclose params

/-- A method enters the program with its receiver and its parameters. -/
theorem mirrors_enterMethod {d : MethodDecl} (hd : d.vars = [] ∧ d.this = none ∧ d.params = [])
    (params : List (String × Ty)) :
    Mirrors .declarations R R 0 p p (enterMethod d params) (enterMethod d params)
      fun q _ m m' => m = m' ∧ m = p.methods.size ∧ m < q.methods.size := by
  have hsize : (p.addMethod d).2.methods.size = p.methods.size + 1 := by
    simp [addMethod, modifyClass]
  have hm : p.methods.size < (p.addMethod d).2.methods.size := hsize ▸ Nat.lt_succ_self _
  -- all changes are one
  have hchange : ∀ {g : Program → Program}, (p.VarsListed →
      (g (p.addMethod d).2).VarsListed ∧
        (g (p.addMethod d).2).methods.size = (p.addMethod d).2.methods.size) →
      Mirrors .declarations R R 0 p p
        (update fun q => (q.methods.size, params.foldl
          (fun r (name, ty) => r.addParam q.methods.size name ty) (g (q.addMethod d).2)))
        (update fun q => (q.methods.size, params.foldl
          (fun r (name, ty) => r.addParam q.methods.size name ty) (g (q.addMethod d).2)))
        fun q _ m m' => m = m' ∧ m = p.methods.size ∧ m < q.methods.size := by
    intro g hg
    refine mirrors_update fun hp => ?_
    obtain ⟨hlisted, hgsize⟩ := hg hp.2
    obtain ⟨hlast, hlastsize⟩ := hlisted.addParams (hgsize ▸ hm) params
    have hlt : p.methods.size < (params.foldl (fun r (name, ty) =>
        r.addParam p.methods.size name ty) (g (p.addMethod d).2)).methods.size := by
      rw [hlastsize, hgsize]
      exact hm
    exact ⟨⟨rfl, hlast⟩, Nat.le_of_lt hlt, Nat.le_of_lt hlt, rfl, rfl, hlt⟩
  unfold enterMethod
  cases d.isStatic with
  | true => exact hchange (g := id) fun hp => ⟨hp.addMethod hd, rfl⟩
  | false =>
    refine hchange (g := (·.addThis p.methods.size d.owner)) fun hp => ⟨?_, ?_⟩
    · refine (hp.addMethod hd).addThis hm ?_ d.owner
      rw [methodAt_addMethod, if_pos rfl, hd.2.1]
    · simp [addThis, addVar, modifyMethod]

theorem mirrors_readHeader (hR : Parallel R) (owner : ClassId) (isStatic isAbstract : Bool)
    (start start' : LineToken) :
    Mirrors .declarations R R 0 p p (readHeader owner isStatic isAbstract start)
      (readHeader owner isStatic isAbstract start') fun q _ x x' =>
        x = x' ∧ p.methods.size ≤ x.1 ∧ x.1 < q.methods.size := by
  refine Mirrors.bind (twins_readType hR) fun q q' retType _ hq hpq _ hret => ?_
  obtain ⟨rfl, -⟩ := hq
  subst hret
  refine Mirrors.after (glances_identifier hR) fun (found, name) (found', name') hname => ?_
  obtain ⟨-, heq⟩ := hname
  obtain rfl : name = name' := heq
  refine Mirrors.bind (twins_readParams hR) fun r r' params _ hr hqr _ hparams => ?_
  obtain ⟨rfl, -⟩ := hr
  subst hparams
  refine mirrors_program ?_
  have hsubsig := (r.internSubsig_same (r.tyName retType ++ " " ++ name ++ "("
    ++ ",".intercalate ((params.map (·.2)).map r.tyName) ++ ")")).1
  refine Mirrors.bind (twins_update_of_same hsubsig) fun s s' id _ hs hrs _ hid => ?_
  obtain ⟨rfl, -⟩ := hs
  subst hid
  refine mirrors_guard (fun h => h) fun _ => ?_
  refine Mirrors.after (glances_check hR _) fun hasBody _ hbody => ?_
  subst hbody
  refine mirrors_guard (fun h => h) fun _ => ?_
  refine Mirrors.bind (mirrors_enterMethod ⟨rfl, rfl, rfl⟩ params) fun t t' method _ _ _ _ h => ?_
  obtain ⟨rfl, rfl, hlt⟩ := h
  exact mirrors_pure ⟨rfl, Nat.le_trans hpq (Nat.le_trans hqr hrs), hlt⟩

theorem mirrors_readMemberHead (hR : Parallel R) (owner : ClassId) :
    Mirrors .declarations R R 1 p p (readMemberHead owner) (readMemberHead owner) fun q _ x x' =>
      x = x' ∧ ∀ header ∈ x, p.methods.size ≤ header.1 ∧ header.1 < q.methods.size := by
  refine Mirrors.after (glances_accept hR rfl) fun isStatic _ hstatic => ?_
  subst hstatic
  refine Mirrors.after (glances_accept hR rfl) fun isAbstract _ habstract => ?_
  subst habstract
  refine mirrors_accept hR rfl ?_ ?_
  · refine Mirrors.bind (twins_readField hR owner isStatic) fun q q' _ _ _ _ _ _ => ?_
    exact mirrors_pure ⟨rfl, fun header h => by cases h⟩
  · refine Mirrors.afterFirst (glances_expectOr hR rfl _) fun start start' _ => ?_
    refine Mirrors.map some some ?_
    refine (mirrors_readHeader hR owner isStatic isAbstract start start').mono
      fun q q' x x' _ _ h => ⟨congrArg some h.1, fun header hheader => ?_⟩
    cases hheader
    exact h.2

/-! ## 4. Classes -/

theorem twins_readClassName (hR : Parallel R) :
    Twins R R 1 p readClassName readClassName Eq := by
  refine Mirrors.afterFirst (glances_identifier hR) fun (found, name) (found', name') hname => ?_
  obtain ⟨-, heq⟩ := hname
  obtain rfl : name = name' := heq
  exact twins_internClass name

theorem twins_classNames (hR : Parallel R) :
    Twins R R 0 p (commas readClassName) (commas readClassName) Eq :=
  twins_commas hR fun _ => twins_readClassName hR

theorem twins_readSupertypes (hR : Parallel R) (isInterface : Bool) :
    Twins R R 0 p (readSupertypes isInterface) (readSupertypes isInterface) Eq := by
  cases isInterface with
  | true =>
    refine Mirrors.after (glances_accept hR rfl) fun extended _ hextended => ?_
    subst hextended
    cases extended with
    | true =>
      refine Twins.bind (twins_classNames hR) fun q cs _ _ hcs => ?_
      subst hcs
      exact mirrors_pure rfl
    | false => exact mirrors_pure rfl
  | false =>
    -- what follows the superclass, if there is one
    have hinterfaces : ∀ {q : Program} (superClass : Option ClassId), Twins R R 0 q
        (do
          let interfaces ←
            if ← accept (.keyword .implementsClause) then commas readClassName else pure []
          return (superClass, interfaces))
        (do
          let interfaces ←
            if ← accept (.keyword .implementsClause) then commas readClassName else pure []
          return (superClass, interfaces)) Eq := by
      intro q superClass
      refine Mirrors.after (glances_accept hR rfl) fun implementing _ himplementing => ?_
      subst himplementing
      cases implementing with
      | true =>
        refine Twins.bind (twins_classNames hR) fun r cs _ _ hcs => ?_
        subst hcs
        exact mirrors_pure rfl
      | false => exact mirrors_pure rfl
    refine Mirrors.after (glances_accept hR rfl) fun extended _ hextended => ?_
    subst hextended
    cases extended with
    | true =>
      have hclass : Twins R R 1 p (some <$> readClassName) (some <$> readClassName) Eq :=
        Mirrors.map some some ((twins_readClassName hR).mono fun _ _ _ _ _ _ h => congrArg some h)
      refine Twins.bind hclass fun q superClass _ _ hsuper => ?_
      subst hsuper
      exact hinterfaces superClass
    | false => exact hinterfaces none

theorem twins_readNamedClass (hR : Parallel R) (isAbstract isInterface : Bool) :
    Twins R R 1 p (readNamedClass isAbstract isInterface) (readNamedClass isAbstract isInterface)
      Eq := by
  refine Mirrors.afterFirst (glances_identifier hR) fun x x' hname => ?_
  obtain ⟨found, name⟩ := x
  obtain ⟨found', name'⟩ := x'
  obtain ⟨-, heq⟩ := hname
  obtain rfl : name = name' := heq
  refine Twins.bind (twins_internClass name) fun q owner _ _ howner => ?_
  subst howner
  refine mirrors_program (mirrors_guard id fun _ => ?_)
  refine Twins.bind (twins_readSupertypes hR isInterface) fun r supertypes _ _ hsuper => ?_
  subst hsuper
  exact Twins.bind (twins_update_of_same rfl) fun _ _ _ _ _ => mirrors_pure rfl

theorem twins_readClassHead (hR : Parallel R) :
    Twins R R 1 p readClassHead readClassHead Eq := by
  refine Mirrors.after (glances_accept hR rfl) fun isAbstract _ habstract => ?_
  subst habstract
  refine Mirrors.after (glances_accept hR rfl) fun isInterface _ hinterface => ?_
  subst hinterface
  cases isInterface with
  | true => exact twins_readNamedClass hR isAbstract true
  | false =>
    refine Mirrors.after (glances_expectOr hR rfl _).dropped fun _ _ _ => ?_
    exact twins_readNamedClass hR isAbstract false

end Reader

end ObjectFlow
