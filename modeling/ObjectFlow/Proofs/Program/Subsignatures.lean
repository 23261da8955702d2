/-
  File:      ObjectFlow/Proofs/Program/Subsignatures.lean
  Subject:   THE NUMBER OF PARAMETERS A SUBSIGNATURE LISTS.

  A declared method is known by the text `R m(T,…)`; how many parameters it has is read off that
  text. Type names hold neither commas nor parentheses, so the text gives back the number of types
  it was put together from.

  * `Text.cutAt_eq_some_iff`, `Text.dropBack?_eq_some_iff`, `Text.splitAll_intercalate`: cutting
    undoes putting together;
  * `isTypeChar_tyName`: the characters of a type name;
  * `subsigArity?_declared`: the number of parameters of a declared method.
-/
import ObjectFlow.Proofs.Program.Coherence

namespace ObjectFlow

/-! ## 1. Cutting texts -/

namespace Text

/-- A text is cut at the first separator. -/
theorem cutAt_eq_some_iff {sep : Char} {cs before after : List Char} :
    cutAt sep cs = some (before, after) ↔ cs = before ++ sep :: after ∧ sep ∉ before := by
  induction cs generalizing before with
  | nil => simp [cutAt]
  | cons c cs ih =>
    by_cases hc : c = sep
    · subst hc
      rw [cutAt, if_pos rfl]
      constructor
      · intro h
        cases h
        exact ⟨rfl, List.not_mem_nil⟩
      · intro ⟨hcs, hnot⟩
        cases before with
        | nil => rw [(List.cons.inj hcs).2]
        | cons d before => exact absurd ((List.cons.inj hcs).1 ▸ List.mem_cons_self) hnot
    · rw [cutAt, if_neg hc]
      constructor
      · intro h
        obtain ⟨⟨before', after'⟩, hrest, h⟩ := Option.map_eq_some_iff.mp h
        cases h
        obtain ⟨rfl, hnot⟩ := ih.mp hrest
        refine ⟨rfl, fun hmem => ?_⟩
        rcases List.mem_cons.mp hmem with heq | hmem
        · exact hc heq.symm
        · exact hnot hmem
      · intro ⟨hcs, hnot⟩
        cases before with
        | nil => exact absurd (List.cons.inj hcs).1 hc
        | cons d before =>
          obtain ⟨rfl, hrest⟩ := List.cons.inj hcs
          rw [ih.mpr ⟨hrest, fun hmem => hnot (List.mem_cons_of_mem c hmem)⟩]
          rfl

theorem cutAt_eq_none_iff {mark : Char} {cs : List Char} : cutAt mark cs = none ↔ mark ∉ cs := by
  constructor
  · intro hcut hmem
    obtain ⟨before, after, rfl, hfirst⟩ := List.eq_append_cons_of_mem hmem
    rw [cutAt_eq_some_iff.mpr ⟨rfl, hfirst⟩] at hcut
    cases hcut
  · intro hmem
    cases hcut : cutAt mark cs with
    | none => rfl
    | some parts =>
      obtain ⟨rfl, -⟩ := cutAt_eq_some_iff.mp hcut
      exact absurd (List.mem_append_right _ List.mem_cons_self) hmem

theorem dropFront?_eq_some_iff {front cs rest : List Char} :
    dropFront? front cs = some rest ↔ cs = front ++ rest := by
  induction front generalizing cs with
  | nil => simp [dropFront?, eq_comm]
  | cons f front ih =>
    cases cs with
    | nil => simp [dropFront?]
    | cons c cs =>
      rw [dropFront?, Option.ite_none_right_eq_some, ih, List.cons_append, List.cons.injEq]
      exact and_congr_left fun _ => eq_comm

theorem dropBack?_eq_some_iff {back cs rest : List Char} :
    dropBack? back cs = some rest ↔ cs = rest ++ back := by
  rw [dropBack?, Option.map_eq_some_iff]
  constructor
  · intro ⟨rest', hrest, heq⟩
    rw [← List.reverse_reverse cs, dropFront?_eq_some_iff.mp hrest, List.reverse_append,
      List.reverse_reverse, heq]
  · intro h
    exact ⟨rest.reverse, dropFront?_eq_some_iff.mpr (by rw [h, List.reverse_append]),
      List.reverse_reverse rest⟩

theorem splitAll_of_not_mem {sep : Char} {piece : List Char} (h : sep ∉ piece) :
    splitAll sep piece = [piece] := by
  induction piece with
  | nil => rfl
  | cons c piece ih =>
    obtain ⟨hc, hpiece⟩ := not_or.mp (mt List.mem_cons.mpr h)
    rw [splitAll, if_neg fun e => hc e.symm, ih hpiece]

theorem splitAll_append {sep : Char} {piece : List Char} (h : sep ∉ piece) (rest : List Char) :
    splitAll sep (piece ++ sep :: rest) = piece :: splitAll sep rest := by
  induction piece with
  | nil => rw [List.nil_append, splitAll, if_pos rfl]
  | cons c piece ih =>
    obtain ⟨hc, hpiece⟩ := not_or.mp (mt List.mem_cons.mpr h)
    rw [List.cons_append, splitAll, if_neg fun e => hc e.symm, ih hpiece]

/-- Cutting at a separator undoes putting pieces together with it. -/
theorem splitAll_intercalate {sep : Char} {pieces : List (List Char)} (hne : pieces ≠ [])
    (h : ∀ piece ∈ pieces, sep ∉ piece) : splitAll sep ([sep].intercalate pieces) = pieces := by
  induction pieces with
  | nil => exact absurd rfl hne
  | cons piece pieces ih =>
    have hpiece := h piece List.mem_cons_self
    cases pieces with
    | nil =>
      rw [List.intercalate_singleton]
      exact splitAll_of_not_mem hpiece
    | cons next pieces =>
      rw [List.intercalate_cons_cons, List.append_assoc, List.singleton_append,
        splitAll_append hpiece, ih (List.cons_ne_nil _ _) fun q hq => h q (List.mem_cons_of_mem _ hq)]

end Text

/-! ## 2. The names of types -/

/-- The characters that type names are made of. -/
def isTypeChar (c : Char) : Bool :=
  isWordChar c || c = '<' || c = '>' || c = '[' || c = ']'

/-- These characters are visible ASCII characters. -/
theorem toNat_of_isTypeChar {c : Char} (h : isTypeChar c = true) :
    32 < c.toNat ∧ c.toNat < 128 := by
  simp only [isTypeChar, isWordChar, Char.isAlphanum, isAlpha_iff, Char.isDigit, Bool.or_eq_true,
    Bool.and_eq_true, decide_eq_true_eq, beq_iff_eq, UInt32.le_iff_toNat_le, ge_iff_le] at h
  change ((((((((65 ≤ c.toNat ∧ c.toNat ≤ 90) ∨ (97 ≤ c.toNat ∧ c.toNat ≤ 122)) ∨
    (48 ≤ c.toNat ∧ c.toNat ≤ 57)) ∨ c = '_') ∨ c = '$') ∨ c = '<') ∨ c = '>') ∨ c = '[') ∨
    c = ']' at h
  rcases h with (((((((h | h) | h) | rfl) | rfl) | rfl) | rfl) | rfl) | rfl
  · omega
  · omega
  · omega
  all_goals decide

theorem isBlank_of_isTypeChar {c : Char} (h : isTypeChar c = true) : Text.isBlank c = false := by
  have hrange := toNat_of_isTypeChar h
  simp only [Text.isBlank, Bool.or_eq_false_iff, Bool.and_eq_false_iff, decide_eq_false_iff_not,
    beq_eq_false_iff_ne]
  omega

theorem IsName.isTypeChar {name : String} (h : IsName name) {c : Char} (hc : c ∈ name.toList) :
    isTypeChar c = true := by
  rcases h.mem_cases hc with hword | rfl | rfl
  · simp [ObjectFlow.isTypeChar, hword]
  · rfl
  · rfl

theorem Prim.name_ne_nil (t : Prim) : t.name.toList ≠ [] := by
  cases t <;> decide

theorem Prim.isTypeChar (t : Prim) : ∀ c ∈ t.name.toList, isTypeChar c = true := by
  apply List.all_eq_true.mp
  cases t <;> decide

namespace Program

variable {p : Program}

theorem isTypeChar_tyName {ty : Ty} (h : ty.Known p) {c : Char} (hc : c ∈ (p.tyName ty).toList) :
    isTypeChar c = true := by
  induction ty with
  | prim t => exact t.isTypeChar c hc
  | object d => exact h.2.isTypeChar hc
  | array elem ih =>
    rw [tyName, String.toList_append] at hc
    rcases List.mem_append.mp hc with hc | hc
    · exact ih h hc
    · have hbrackets : ∀ c ∈ "[]".toList, isTypeChar c = true := List.all_eq_true.mp (by decide)
      exact hbrackets c hc

theorem tyName_ne_nil {ty : Ty} (h : ty.Known p) : (p.tyName ty).toList ≠ [] := by
  cases ty with
  | prim t => exact t.name_ne_nil
  | object d => exact h.2.ne_nil
  | array elem =>
    rw [tyName, String.toList_append]
    exact List.append_ne_nil_of_right_ne_nil _ (by decide)

/-! ## 3. Declared methods -/

/-- **The subsignature of a declared method lists its parameters.** -/
theorem subsigArity?_declared {retType : Ty} (hret : retType.Known p) {name : String}
    (hname : IsName name) {paramTypes : List Ty} (htypes : ∀ t ∈ paramTypes, t.Known p) :
    subsigArity? (p.declaredSubsig retType name paramTypes) = some paramTypes.length := by
  have hne : ∀ c d : Char, isTypeChar c = true → isTypeChar d = false → d ≠ c := by
    rintro c d hc hd rfl
    rw [hc] at hd
    cases hd
  have hchars : (p.declaredSubsig retType name paramTypes).toList =
      ((p.tyName retType).toList ++ [' '] ++ name.toList) ++
        '(' :: ([','].intercalate (paramTypes.map fun t => (p.tyName t).toList) ++ [')']) := by
    simp [declaredSubsig, String.toList_intercalate, Function.comp_def]
  have hhead : '(' ∉ (p.tyName retType).toList ++ [' '] ++ name.toList := by
    intro hmem
    rcases List.mem_append.mp hmem with hmem | hmem
    · rcases List.mem_append.mp hmem with hmem | hmem
      · exact hne _ _ (isTypeChar_tyName hret hmem) (by decide) rfl
      · exact absurd hmem (by decide)
    · exact hne _ _ (hname.isTypeChar hmem) (by decide) rfl
  have hcut := Text.cutAt_eq_some_iff.mpr ⟨hchars, hhead⟩
  have hback := Text.dropBack?_eq_some_iff.mpr (rfl :
    [','].intercalate (paramTypes.map fun t => (p.tyName t).toList) ++ [')'] = _ ++ [')'])
  rw [subsigArity?, hcut, Option.bind_eq_bind, Option.bind_some]
  dsimp only
  rw [hback]
  refine congrArg some ?_
  cases paramTypes with
  | nil => rfl
  | cons t rest =>
    rw [Text.splitAll_intercalate (by simp), List.filter_eq_self.mpr, List.length_map]
    · intro piece hpiece
      obtain ⟨u, hu, rfl⟩ := List.mem_map.mp hpiece
      simpa using tyName_ne_nil (htypes u hu)
    · intro piece hpiece hcomma
      obtain ⟨u, hu, rfl⟩ := List.mem_map.mp hpiece
      exact hne _ _ (isTypeChar_tyName (htypes u hu) hcomma) (by decide) rfl

theorem MethodCoherent.arity {m : MethodId} (h : p.MethodCoherent m) :
    subsigArity? (p.subsigAt (p.methodAt m).subsig) = some (p.methodAt m).paramTypes.length := by
  rw [h.spelled]
  exact subsigArity?_declared h.retType h.name h.paramTypes

end Program

end ObjectFlow
