/-
  File:      ObjectFlow/Proofs/Program/StatementMirroring.lean
  Subject:   STATEMENTS WITH THE SAME TOKENS, READ INTO PROGRAMS THAT ARE ALIKE.

  * `Reader.Within`: two texts with the same tokens up to the brace that closes a block;
  * one lemma for each reader of statements: what it reads on one side, it reads on the other, up
    to the numbers of what is only mentioned (`mirrors_readStmt`).
-/
import ObjectFlow.Proofs.Program.Likeness
import ObjectFlow.Proofs.Program.Mirroring

namespace ObjectFlow

/-! ## 1. Blocks -/

/-- Bodies are read into two programs; only the method `m` gets variables. -/
def Duo.bodies (d : Program) (m : MethodId) : Duo where
  Holds := Program.Alike d
  To := Program.Writes m
  refl := Program.Writes.refl
  trans := Program.Writes.trans

/-- Types of one name that are known on both sides. -/
structure Ty.Shared (p q : Program) (ty ty' : Ty) : Prop where
  left : ty.Known p
  right : ty'.Known q
  alike : ty.Alike p q ty'

theorem Ty.Shared.grows {p q p' q' : Program} {ty ty' : Ty} (h : ty.Shared p q ty')
    (hp : p.Grows p') (hq : q.Grows q') : ty.Shared p' q' ty' :=
  ⟨h.left.grows hp, h.right.grows hq, h.alike.grows hp hq⟩

theorem types_bodies (d : Program) (m : MethodId) : (Duo.bodies d m).Types Ty.Shared where
  prim _ _ := ⟨trivial, trivial, rfl⟩
  object {p q} h name hname := by
    obtain ⟨halike, hclass⟩ := Program.Alike.internClass h name
    obtain ⟨hp, hc, hcname⟩ := p.internClass_spec name
    obtain ⟨hq, hc', hcname'⟩ := q.internClass_spec name
    refine ⟨halike, ?_, ?_, ⟨hc, hcname.symm ▸ hname⟩, ⟨hc', hcname'.symm ▸ hname⟩, hclass⟩
    · exact Program.writes_of_sameVars hp (p.internClass_same name).1 (p.internClass_same name).2
    · exact Program.writes_of_sameVars hq (q.internClass_same name).1 (q.internClass_same name).2
  array h := ⟨h.left, h.right, h.alike⟩

namespace Reader

open Program

/-- Tokens that differ in their lines at most. -/
def SameToken (t t' : LineToken) : Prop := t'.token = t.token

/-- **The same tokens up to the brace that closes the `depth` open ones**, and then whatever
    follows. -/
def Within (depth : Nat) : TokenRel := fun ts ts' =>
  Spelled ts ∧ ∃ c c' rest rest', ts = c ++ rest ∧ ts' = c' ++ rest' ∧
    List.Forall₂ SameToken c c' ∧ skipBlock? depth c = some []

theorem skipBlock?_of_not_stop {t : LineToken} (h : t.token.isStop = false) (depth : Nat)
    (rest : List LineToken) : skipBlock? (depth + 1) (t :: rest) = skipBlock? (depth + 1) rest := by
  obtain ⟨token, line⟩ := t
  cases token with
  | mark mark => cases mark <;> first | rfl | cases h
  | endOfFile => cases h
  | _ => rfl

theorem Spelled.tail {t : LineToken} {rest : List LineToken} (h : Spelled (t :: rest)) :
    Spelled rest := fun u hu => h u (List.mem_cons_of_mem t hu)

/-- The first token of a block, and what is left of the block behind it. -/
theorem Within.cases {depth : Nat} {ts ts' : List LineToken} (h : Within (depth + 1) ts ts') :
    ∃ t rest t' rest', ts = t :: rest ∧ ts' = t' :: rest' ∧ SameToken t t' ∧ t.token.Spelled ∧
      ∀ depth', (∀ c, skipBlock? (depth + 1) (t :: c) = skipBlock? depth' c) →
        Within depth' rest rest' := by
  obtain ⟨hspelled, c, c', rest, rest', rfl, rfl, hsame, hskip⟩ := h
  cases hsame with
  | nil => cases hskip
  | cons htoken hsame =>
    refine ⟨_, _, _, _, rfl, rfl, htoken, hspelled _ List.mem_cons_self, fun depth' hdepth => ?_⟩
    exact ⟨hspelled.tail, _, _, rest, rest', rfl, rfl, hsame, (hdepth _).symm.trans hskip⟩

theorem parallel_within (depth : Nat) : Parallel (Within (depth + 1)) := by
  intro ts ts' h
  obtain ⟨t, rest, t', rest', rfl, rfl, htoken, hspelled, hrest⟩ := h.cases
  exact ⟨t, rest, t', rest', rfl, rfl, htoken, hspelled, fun hstop =>
    hrest _ (skipBlock?_of_not_stop hstop depth)⟩

variable {α β α' β' : Type} {d p p' : Program} {m : MethodId} {R R₁ : TokenRel} {depth : Nat}

/-- A brace that is read opens or closes a block. -/
theorem glances_brace {t : Token} {depth' : Nat} (hend : t ≠ .endOfFile)
    (ht : ∀ line c, skipBlock? (depth + 1) (⟨t, line⟩ :: c) = skipBlock? depth' c) :
    Glances (Within (depth + 1)) (Within depth') 1 p p' (expect t) (expect t) fun _ _ => True := by
  have hadvance : Glances (At (Within (depth + 1)) t) (Within depth') 1 p p' advance advance
      fun _ _ => True := by
    intro tokens tokens' said a s said' _ ⟨htokens, hfirst⟩ hrun
    obtain ⟨⟨u, line⟩, rest, ⟨u', line'⟩, rest', rfl, rfl, htoken, -, hrest⟩ := htokens.cases
    obtain rfl : u = t := hfirst
    obtain rfl : u' = u := htoken
    have hdrop : ∀ line rest, dropToken (⟨u', line⟩ :: rest) = rest := fun line rest => by
      rw [dropToken, if_neg hend]
    cases hrun
    refine ⟨⟨u', line'⟩, ⟨dropToken (⟨u', line'⟩ :: rest'), p', said'⟩, rfl, trivial, rfl, rfl, ?_,
      ?_, ?_, trivial⟩
    · rw [hdrop, hdrop]
      exact hrest depth' (ht line)
    · rw [hdrop]
      exact Nat.le_refl _
    · rw [hdrop]
      exact Nat.le_refl _
  refine mirrors_check (parallel_within depth) hadvance ?_
  exact mirrors_peek (parallel_within depth) fun _ _ _ _ => mirrors_fail

theorem glances_open : Glances (Within (depth + 1)) (Within (depth + 2)) 1 p p'
    (expect (.mark .leftBrace)) (expect (.mark .leftBrace)) fun _ _ => True :=
  glances_brace nofun fun _ _ => rfl

theorem glances_close : Glances (Within (depth + 1)) (Within depth) 1 p p'
    (expect (.mark .rightBrace)) (expect (.mark .rightBrace)) fun _ _ => True :=
  glances_brace nofun fun _ _ => rfl

/-! ## 2. Variables, fields and methods -/

theorem glances_lookupVar (h : Alike d p p') (found found' : LineToken) (name : String) :
    Glances R R 0 p p' (lookupVar m found name) (lookupVar m found' name) fun v v' => v = v' := by
  refine mirrors_program ?_
  rw [h.varByName?_eq]
  cases p.varByName? m name with
  | some v => exact mirrors_pure rfl
  | none => exact mirrors_fail

theorem glances_readVar (hR : Parallel R) (h : Alike d p p') :
    Glances R R 1 p p' (readVar m) (readVar m) fun v v' => v = v' := by
  refine Mirrors.afterFirst (glances_identifier hR) fun (found, name) (found', name') hname => ?_
  obtain ⟨-, rfl⟩ := hname
  exact glances_lookupVar h found found' _

theorem glances_readVars (hR : Parallel R) (h : Alike d p p') :
    Glances R R 0 p p' (commas (readVar m)) (commas (readVar m)) fun vs vs' => vs = vs' := by
  have hlist : Glances R R 0 p p' (commas (readVar m)) (commas (readVar m))
      (List.Forall₂ Eq) := by
    refine mirrors_commas (j := 1) hR (fun _ _ _ _ _ _ _ _ h => h) fun q q' hq hq' => ?_
    obtain rfl : q = p := hq
    obtain rfl : q' = p' := hq'
    exact glances_readVar hR h
  refine hlist.mono fun _ _ vs vs' _ _ hvs => ?_
  exact List.forall₂_eq_eq_eq ▸ hvs

theorem glances_readLabel (hR : Parallel R) :
    Glances R R 1 p p' readLabel readLabel SameToken := by
  refine mirrors_peek hR fun t line line' _ => ?_
  cases t with
  | ident name =>
    exact (glances_advance hR rfl).mono fun _ _ _ _ _ _ h => h.2.trans h.1.symm
  | _ => exact mirrors_fail

theorem Ty.Alike.class? {ty ty' : Ty} (h : ty.Alike p p' ty') {c : ClassId}
    (hc : ty.class? = some c) : ∃ c', ty'.class? = some c' ∧ ClassAlike p p' c c' := by
  cases ty with
  | object e =>
    cases hc
    cases ty' with
    | object c' => exact ⟨c', rfl, h⟩
    | _ => exact h.elim
  | _ => cases hc

/-- A field that is accessed on one side is accessed on the other: a class that has fields is
    declared, and so are the classes above it. -/
theorem glances_accessedField (h : Alike d p p') (found found' : LineToken) (name : String)
    {base : Option VarId} {c c' : ClassId}
    (hclass : ∀ f, p.resolveField? c name = some f → ClassAlike p p' c c') :
    Glances R R 0 p p' (accessedField found name base c) (accessedField found' name base c')
      fun x x' => x = x' := by
  refine mirrors_program ?_
  cases hf : p.resolveField? c name with
  | none => exact mirrors_fail
  | some f =>
    rw [h.resolveField? (hclass f hf) hf]
    refine mirrors_guard (fun hkind => ?_) fun _ => mirrors_pure rfl
    rw [h.fieldAt_eq]
    exact hkind

theorem glances_readFieldAccess (hR : Parallel R) (h : Alike d p p') (found found' : LineToken)
    (name : String) :
    Glances R R 1 p p' (readFieldAccess m found name) (readFieldAccess m found' name)
      fun x x' => x = x' := by
  refine Mirrors.afterFirst (glances_identifier hR) fun x x' hname => ?_
  obtain ⟨fieldFound, fieldName⟩ := x
  obtain ⟨fieldFound', fieldName'⟩ := x'
  obtain ⟨-, rfl⟩ := hname
  simp only [fieldBase, bind_assoc]
  refine mirrors_program ?_
  rw [h.varByName?_eq]
  cases hv : p.varByName? m name with
  | some v =>
    dsimp only
    have hlt := h.leftFilled.coherent.mem_vars_lt (named_of_varByName? hv).mem
    cases hc : (p.varTy v).class? with
    | none => exact mirrors_fail_bind
    | some c =>
      obtain ⟨c', hc', hclass⟩ := Ty.Alike.class? (h.varTy hlt) hc
      simp only [hc', pure_bind]
      exact glances_accessedField h fieldFound fieldFound' _ fun _ _ => hclass
  | none =>
    dsimp only
    cases hc : p.classByName? name with
    | none => exact mirrors_fail_bind
    | some c =>
      have hname := (h.leftFilled.coherent.names.classByName?_eq_some_iff).mp hc
      simp only [pure_bind]
      cases hf : p.resolveField? c fieldName with
      | none =>
        refine mirrors_program_left ?_
        rw [hf]
        exact mirrors_fail
      | some f =>
        have hlt := h.left.lt_of_resolveField? hf
        rw [h.classByName? hc hlt]
        simp only [pure_bind]
        refine glances_accessedField h fieldFound fieldFound' _ fun _ _ => ⟨hname.1, ?_, ?_⟩
        · exact Nat.lt_of_lt_of_le hlt h.right.classes
        · rw [h.left.className hlt, h.right.className hlt]

theorem mirrors_readMethodRef (hR : Parallel R) :
    Mirrors (.bodies d m) R R 1 p p' readMethodRef readMethodRef
      fun q q' x x' => x.1.Alike q q' x'.1 ∧ x.2 = x'.2 := by
  refine mirrors_advance hR (fun t line ht => ?_) fun t line line' _ _ => ?_
  · cases t with
    | mark mark => exact ⟨_, _, rfl⟩
    | endOfFile => exact ⟨_, _, rfl⟩
    | _ => cases ht
  · cases t with
    | signature text =>
      dsimp only
      cases cutSignature? text.toList with
      | none => exact mirrors_fail
      | some cut =>
        obtain ⟨owner, subsig⟩ := cut
        dsimp only
        cases subsigArity? (normalSubsig subsig) with
        | none => exact mirrors_fail
        | some arity =>
          have hclass : Mirrors (.bodies d m) R R 0 p p' (internClass owner) (internClass owner)
              ClassAlike := mirrors_update fun hp => by
            obtain ⟨halike, hc⟩ := Alike.internClass hp owner
            refine ⟨halike, ?_, ?_, hc⟩
            · exact writes_of_sameVars (p.internClass_spec owner).1 (p.internClass_same owner).1
                (p.internClass_same owner).2
            · exact writes_of_sameVars (p'.internClass_spec owner).1 (p'.internClass_same owner).1
                (p'.internClass_same owner).2
          refine hclass.bind fun q q' c c' _ _ _ hc => ?_
          have hsubsig : Mirrors (.bodies d m) R R 0 q q'
              (update (·.internSubsig (normalSubsig subsig)))
              (update (·.internSubsig (normalSubsig subsig))) fun r r' s s' =>
                q.Fills r ∧ q'.Fills r' ∧ s < r.subsigs.size ∧ s' < r'.subsigs.size ∧
                  r'.subsigAt s' = r.subsigAt s := mirrors_update fun hq => by
            obtain ⟨hf, hs, htext⟩ := q.internSubsig_spec (normalSubsig subsig)
            obtain ⟨hf', hs', htext'⟩ := q'.internSubsig_spec (normalSubsig subsig)
            refine ⟨Alike.internSubsig hq _, ?_, ?_, hf, hf', hs, hs', htext'.trans htext.symm⟩
            · exact writes_of_sameVars hf (q.internSubsig_same _).1 (q.internSubsig_same _).2
            · exact writes_of_sameVars hf' (q'.internSubsig_same _).1 (q'.internSubsig_same _).2
          refine hsubsig.bind fun r r' s s' _ _ _ ⟨hf, hf', hs, hs', htext⟩ => mirrors_pure ?_
          exact ⟨⟨hc.grows hf.toGrows hf'.toGrows, hs, hs', htext⟩, rfl⟩
    | _ => exact mirrors_fail

theorem glances_readArguments (hR : Parallel R) (h : Alike d p p') (arity : Nat) :
    Glances R R 0 p p' (readArguments m arity) (readArguments m arity) fun vs vs' => vs = vs' := by
  have hclose : ∀ args : List VarId, Glances R R 0 p p'
      (do
        let close ← expect (.mark .rightParen)
        if args.length ≠ arity then
          fail close (.argumentCount arity args.length)
        return args)
      (do
        let close ← expect (.mark .rightParen)
        if args.length ≠ arity then
          fail close (.argumentCount arity args.length)
        return args) fun vs vs' => vs = vs' := fun args =>
    Mirrors.after (glances_expect hR rfl) fun _ _ _ => mirrors_guard id fun _ => mirrors_pure rfl
  refine Mirrors.after (glances_expect hR rfl).dropped fun _ _ _ => ?_
  refine Mirrors.after (glances_check hR _) fun empty _ hempty => ?_
  subst hempty
  cases empty with
  | true => exact hclose []
  | false =>
    refine Mirrors.after (glances_readVars hR h) fun args _ hargs => ?_
    subst hargs
    exact hclose args

theorem mirrors_readTarget (hR : Parallel R) (kind : CallKind) (base result : Option VarId) :
    Mirrors (.bodies d m) R R 0 p p' (readTarget m kind base result) (readTarget m kind base result)
      fun q q' i i' => StmtOf.Alike q q' SameToken (.call i) (.call i') := by
  refine (mirrors_readMethodRef hR).bind fun q q' x x' hq _ _ h => ?_
  obtain ⟨target, arity⟩ := x
  obtain ⟨target', arity'⟩ := x'
  obtain ⟨htarget, rfl⟩ := h
  refine Mirrors.after (glances_readArguments hR hq arity) fun args _ hargs => ?_
  subst hargs
  exact mirrors_pure (.call htarget)

theorem mirrors_readInvoke (hR : Parallel R) (kind : CallKind) (result : Option VarId) :
    Mirrors (.bodies d m) R R 0 p p' (readInvoke m kind result) (readInvoke m kind result)
      fun q q' i i' => StmtOf.Alike q q' SameToken (.call i) (.call i') := by
  refine mirrors_of_holds fun hp => ?_
  unfold readInvoke
  cases kind.hasReceiver with
  | true =>
    refine Mirrors.after (glances_readVar hR hp) fun base _ hbase => ?_
    subst hbase
    refine Mirrors.after (glances_expect hR rfl).dropped fun _ _ _ => ?_
    exact mirrors_readTarget hR kind (some base) result
  | false => exact mirrors_readTarget hR kind none result

/-! ## 3. Assignments -/

theorem glances_readNamedSource (hR : Parallel R) (h : Alike d p p') (lhs : VarId) :
    Glances R R 0 p p' (readNamedSource m lhs) (readNamedSource m lhs)
      (StmtOf.Alike p p' SameToken) := by
  refine Mirrors.after (glances_identifier hR) fun (found, name) (found', name') hname => ?_
  obtain ⟨-, rfl⟩ := hname
  refine Mirrors.after (glances_accept hR rfl) fun isField _ hfield => ?_
  subst hfield
  cases isField with
  | true =>
    refine Mirrors.after (glances_readFieldAccess hR h found found' _)
      fun (base, field) _ haccess => ?_
    subst haccess
    exact mirrors_pure .loadField
  | false =>
    refine Mirrors.after (glances_lookupVar h found found' _) fun operand _ hoperand => ?_
    subst hoperand
    refine Mirrors.after (glances_accept hR rfl) fun isElement _ helement => ?_
    subst helement
    cases isElement with
    | true =>
      refine Mirrors.after (glances_readVar hR h) fun index _ hindex => ?_
      subst hindex
      exact Mirrors.after (glances_expect hR rfl).dropped fun _ _ _ => mirrors_pure .loadArray
    | false =>
      refine mirrors_peek hR fun t line line' _ => ?_
      cases t with
      | operator op =>
        refine Mirrors.after (glances_advance hR rfl).dropped fun _ _ _ => ?_
        refine Mirrors.after (glances_readVar hR h) fun right _ hright => ?_
        subst hright
        exact mirrors_pure .binary
      | _ => exact (mirrors_pure .var).pre fun _ _ h => h.1

theorem mirrors_readSource (hR : Parallel R) (lhs : VarId) :
    Mirrors (.bodies d m) R R 0 p p' (readSource m lhs) (readSource m lhs)
      fun q q' => StmtOf.Alike q q' SameToken := by
  refine mirrors_of_holds fun hp => ?_
  refine mirrors_peek hR fun t line line' _ => ?_
  cases t with
  | keyword word =>
    cases word with
    | newObject =>
      refine Mirrors.after (glances_advance hR rfl).dropped fun _ _ _ => ?_
      refine (mirrors_readType hR (types_bodies d m)).bind fun q q' ty ty' hq _ _ hty => ?_
      refine Mirrors.after (glances_accept hR rfl) fun isArray _ harray => ?_
      subst harray
      cases isArray with
      | true =>
        refine Mirrors.after (glances_readVar hR hq) fun length _ hlength => ?_
        subst hlength
        refine Mirrors.after (glances_expect hR rfl).dropped fun _ _ _ => mirrors_pure ?_
        have harray : (Ty.array ty).Alike q q' (.array ty') := hty.alike
        exact .alloc harray
      | false => exact mirrors_pure (.alloc hty.alike)
    | invoke kind =>
      refine Mirrors.after (glances_advance hR rfl).dropped fun _ _ _ => ?_
      exact (mirrors_readInvoke hR kind (some lhs)).bind fun _ _ _ _ _ _ _ hi => mirrors_pure hi
    | _ => exact mirrors_fail
  | integer value =>
    exact Mirrors.after (glances_advance hR rfl).dropped fun _ _ _ => mirrors_pure .int
  | mark mark =>
    cases mark with
    | leftParen =>
      refine Mirrors.after (glances_advance hR rfl).dropped fun _ _ _ => ?_
      refine (mirrors_readType hR (types_bodies d m)).bind fun q q' ty ty' hq _ _ hty => ?_
      refine Mirrors.after (glances_expect hR rfl).dropped fun _ _ _ => ?_
      refine Mirrors.after (glances_readVar hR hq) fun operand _ hoperand => ?_
      subst hoperand
      exact mirrors_pure (.cast hty.alike)
    | _ => exact mirrors_fail
  | ident name =>
    refine ((glances_readNamedSource hR hp lhs).inDuo.mono
      fun q q' stmt stmt' _ _ h => ?_).pre fun _ _ h => h.1
    obtain ⟨rfl, rfl, hstmt⟩ := h
    exact hstmt
  | _ => exact mirrors_fail

theorem mirrors_readAssignment (hR : Parallel R) :
    Mirrors (.bodies d m) R R 0 p p' (readAssignment m) (readAssignment m)
      fun q q' => StmtOf.Alike q q' SameToken := by
  refine mirrors_of_holds fun hp => ?_
  refine Mirrors.after (glances_identifier hR) fun (found, name) (found', name') hname => ?_
  obtain ⟨-, rfl⟩ := hname
  refine Mirrors.after (glances_accept hR rfl) fun isField _ hfield => ?_
  subst hfield
  cases isField with
  | true =>
    refine Mirrors.after (glances_readFieldAccess hR hp found found' _)
      fun (base, field) _ haccess => ?_
    subst haccess
    refine Mirrors.after (glances_expect hR rfl).dropped fun _ _ _ => ?_
    refine Mirrors.after (glances_readVar hR hp) fun rhs _ hrhs => ?_
    subst hrhs
    exact mirrors_pure .storeField
  | false =>
    refine Mirrors.after (glances_lookupVar hp found found' _) fun lhs _ hlhs => ?_
    subst hlhs
    refine Mirrors.after (glances_accept hR rfl) fun isElement _ helement => ?_
    subst helement
    cases isElement with
    | true =>
      refine Mirrors.after (glances_readVar hR hp) fun index _ hindex => ?_
      subst hindex
      refine Mirrors.after (glances_expect hR rfl).dropped fun _ _ _ => ?_
      refine Mirrors.after (glances_expect hR rfl).dropped fun _ _ _ => ?_
      refine Mirrors.after (glances_readVar hR hp) fun rhs _ hrhs => ?_
      subst hrhs
      exact mirrors_pure .storeArray
    | false =>
      exact Mirrors.after (glances_expect hR rfl).dropped fun _ _ _ => mirrors_readSource hR lhs

/-! ## 4. Statements -/

/-- Arms of a switch with the same constants, that go to the same labels. -/
abbrev ArmsAlike : List (Int32 × LineToken) → List (Int32 × LineToken) → Prop :=
  List.Forall₂ fun a b => b.1 = a.1 ∧ SameToken a.2 b.2

theorem glances_readCases (hR : Parallel R) (n n' : Nat) :
    Glances (Below R n n') R 0 p p' (readCases n) (readCases n') ArmsAlike := by
  induction n generalizing n' with
  | zero => exact mirrors_below_zero hR (.inl rfl)
  | succ n ih =>
    cases n' with
    | zero => exact mirrors_below_zero hR (.inr rfl)
    | succ n' =>
      refine mirrors_accept_below hR rfl ?_ ?_
      · refine (mirrors_advance (hR.below n n') (fun t line ht => ?_)
          fun t line line' _ _ => ?_).relax (Nat.zero_le 1)
        · cases t with
          | mark mark => exact ⟨_, _, rfl⟩
          | endOfFile => exact ⟨_, _, rfl⟩
          | _ => cases ht
        · cases t with
          | integer value =>
            have hR' := hR.below n n'
            refine Mirrors.after (glances_expect hR' rfl).dropped fun _ _ _ => ?_
            refine Mirrors.after (glances_readLabel hR') fun target target' htarget => ?_
            refine Mirrors.after (glances_expect hR' rfl).dropped fun _ _ _ => ?_
            refine Mirrors.after (ih n') fun arms arms' harms => mirrors_pure ?_
            exact .cons ⟨rfl, htarget⟩ harms
          | _ => exact mirrors_fail
      · exact (mirrors_pure .nil).pre fun _ _ h => h.1

theorem glances_readSwitch (h : Alike d p p') :
    Glances (Within (depth + 1)) (Within (depth + 1)) 0 p p' (readSwitch m) (readSwitch m)
      (StmtOf.Alike p p' SameToken) := by
  have hR := parallel_within depth
  have hR' := parallel_within (depth + 1)
  refine Mirrors.after (glances_expect hR rfl).dropped fun _ _ _ => ?_
  refine Mirrors.after (glances_readVar hR h) fun on _ hon => ?_
  subst hon
  refine Mirrors.after (glances_expect hR rfl).dropped fun _ _ _ => ?_
  refine Mirrors.after glances_open.dropped fun _ _ _ => ?_
  refine mirrors_remaining fun n n' => ?_
  refine Mirrors.after (glances_readCases hR' n n') fun arms arms' harms => ?_
  refine Mirrors.after (glances_expectOr hR' rfl _).dropped fun _ _ _ => ?_
  refine Mirrors.after (glances_expect hR' rfl).dropped fun _ _ _ => ?_
  refine Mirrors.after (glances_readLabel hR') fun otherwise otherwise' hotherwise => ?_
  refine Mirrors.after (glances_expect hR' rfl).dropped fun _ _ _ => ?_
  exact Mirrors.after glances_close.dropped fun _ _ _ => mirrors_pure (.switch hotherwise harms)

theorem glances_readBranch (hR : Parallel R) (h : Alike d p p') :
    Glances R R 0 p p' (readBranch m) (readBranch m) (StmtOf.Alike p p' SameToken) := by
  refine Mirrors.after (glances_readVar hR h) fun left _ hleft => ?_
  subst hleft
  refine (mirrors_advance hR (fun t line ht => ?_) fun t line line' _ _ => ?_).relax (Nat.zero_le 1)
  · cases t with
    | mark mark => exact ⟨_, _, rfl⟩
    | endOfFile => exact ⟨_, _, rfl⟩
    | _ => cases ht
  · cases t with
    | operator op =>
      refine mirrors_guard id fun _ => ?_
      refine Mirrors.after (glances_readVar hR h) fun right _ hright => ?_
      subst hright
      refine Mirrors.after (glances_expect hR rfl).dropped fun _ _ _ => ?_
      exact Mirrors.after (glances_readLabel hR) fun _ _ htarget => mirrors_pure (.branch htarget)
    | _ => exact mirrors_fail

theorem glances_readReturn (hR : Parallel R) (h : Alike d p p') (start start' : LineToken) :
    Glances R R 0 p p' (readReturn m start) (readReturn m start') (StmtOf.Alike p p' SameToken) := by
  refine Mirrors.after (glances_check hR _) fun empty _ hempty => ?_
  subst hempty
  cases empty with
  | true =>
    refine mirrors_program (mirrors_guard (fun hvoid => ?_) fun _ => mirrors_pure .ret)
    rw [h.retType_eq]
    exact hvoid
  | false =>
    refine Mirrors.after (glances_readVar hR h) fun v _ hv => ?_
    subst hv
    exact mirrors_pure .ret

/-- **A statement that is read on one side is read on the other.** -/
theorem mirrors_readStmt :
    Mirrors (.bodies d m) (Within (depth + 1)) (Within (depth + 1)) 1 p p' (readStmt m) (readStmt m)
      fun q q' => StmtOf.Alike q q' SameToken := by
  have hR := parallel_within depth
  -- the semicolon behind most statements
  have hend : ∀ {q q' : Program} {stmt stmt' : StmtOf LineToken}, stmt.Alike q q' SameToken stmt' →
      Mirrors (.bodies d m) (Within (depth + 1)) (Within (depth + 1)) 1 q q'
        (discard (expect (.mark .semicolon)) >>= fun _ => pure stmt)
        (discard (expect (.mark .semicolon)) >>= fun _ => pure stmt')
        fun q q' => StmtOf.Alike q q' SameToken := fun hstmt =>
    Mirrors.afterFirst (glances_expect hR rfl).dropped fun _ _ _ => mirrors_pure hstmt
  refine mirrors_of_holds fun hp => ?_
  refine mirrors_peek hR fun t line line' _ => ?_
  cases t with
  | ident name =>
    exact ((mirrors_readAssignment hR).pre fun _ _ h => h.1).bind fun _ _ _ _ _ _ _ h => hend h
  | keyword word =>
    cases word with
    | switchJump =>
      refine Mirrors.afterFirst (glances_advance hR rfl).dropped fun _ _ _ => ?_
      refine (glances_readSwitch hp).inDuo.mono fun q q' stmt stmt' _ _ h => ?_
      obtain ⟨rfl, rfl, hstmt⟩ := h
      exact hstmt
    | invoke kind =>
      refine Mirrors.after (glances_advance hR rfl).dropped fun _ _ _ => ?_
      exact (mirrors_readInvoke hR kind none).bind fun _ _ _ _ _ _ _ hi => hend hi
    | ifJump =>
      refine Mirrors.after (glances_advance hR rfl).dropped fun _ _ _ => ?_
      exact Mirrors.after (glances_readBranch hR hp) fun _ _ h => hend h
    | gotoJump =>
      refine Mirrors.after (glances_advance hR rfl).dropped fun _ _ _ => ?_
      exact Mirrors.after (glances_readLabel hR) fun _ _ h => hend (.jump h)
    | returnJump =>
      refine Mirrors.after (glances_advance hR rfl).dropped fun _ _ _ => ?_
      exact Mirrors.after (glances_readReturn hR hp _ _) fun _ _ h => hend h
    | nopMark =>
      exact Mirrors.after (glances_advance hR rfl).dropped fun _ _ _ => hend .nop
    | _ => exact mirrors_fail_bind
  | _ => exact mirrors_fail_bind

end Reader

end ObjectFlow
