/-
  File:      ObjectFlow/Proofs/PointsTo/Reading.lean
  Subject:   HOW A STATE OF THE ENGINE READS AS FACTS about contexts and objects.

  Contexts, objects and pointers are numbered while the analysis runs. A `Reading` says what the
  numbers stand for; it is partial, and what is read once reads the same ever after
  (`Reading.Keeps`). `Reading.Faithful` says that the engine's choices of contexts and objects,
  read this way, are those of an `Abstraction`.

  `Within S s` says that all that the state `s` knows, and all that is pending in it, lies in the
  solution `S`.
-/
import ObjectFlow.Proofs.Numbering
import ObjectFlow.Proofs.PointsTo.Rules

namespace ObjectFlow

/-! ## 1. Readings -/

/-- What the numbers of a run stand for, given the heap and the state of the naming. -/
structure Reading (κ ν K O : Type) where
  /-- What holds of every heap and naming a run comes to. -/
  Valid : Heap → ν → Prop
  context? : Heap → ν → κ → Option K
  object? : Heap → ν → Nat → Option O

namespace Reading

variable {κ ν K O : Type}

/-- What can be read in one heap and naming reads the same in another. -/
structure Keeps (R : Reading κ ν K O) (h : Heap) (ns : ν) (h' : Heap) (ns' : ν) : Prop where
  context : ∀ {c k}, R.context? h ns c = some k → R.context? h' ns' c = some k
  object : ∀ {i o}, R.object? h ns i = some o → R.object? h' ns' i = some o

theorem Keeps.refl (R : Reading κ ν K O) (h : Heap) (ns : ν) : R.Keeps h ns h ns := ⟨id, id⟩

theorem Keeps.trans {R : Reading κ ν K O} {h h' h'' : Heap} {ns ns' ns'' : ν}
    (a : R.Keeps h ns h' ns') (b : R.Keeps h' ns' h'' ns'') : R.Keeps h ns h'' ns'' :=
  ⟨fun e => b.context (a.context e), fun e => b.object (a.object e)⟩

/-- What a pointer stands for. -/
def place? (R : Reading κ ν K O) (h : Heap) (ns : ν) : Pointer κ → Option (Place K O)
  | .var c v => (R.context? h ns c).map (.var · v)
  | .staticField f => some (.staticField f)
  | .field i f => (R.object? h ns i).map (.field · f)
  | .element i => (R.object? h ns i).map .element

/-- What something under a context stands for. -/
def qualified? {α : Type} (R : Reading κ ν K O) (h : Heap) (ns : ν) (q : Qualified κ α) :
    Option (Qualified K α) := (R.context? h ns q.context).map (⟨·, q.item⟩)

theorem Keeps.place {R : Reading κ ν K O} {h h' : Heap} {ns ns' : ν} (a : R.Keeps h ns h' ns')
    {pointer : Pointer κ} {x : Place K O} (e : R.place? h ns pointer = some x) :
    R.place? h' ns' pointer = some x := by
  cases pointer with
  | staticField f => exact e
  | var c v =>
    obtain ⟨k, hk, rfl⟩ := Option.map_eq_some_iff.mp e
    exact Option.map_eq_some_iff.mpr ⟨k, a.context hk, rfl⟩
  | field i f =>
    obtain ⟨o, ho, rfl⟩ := Option.map_eq_some_iff.mp e
    exact Option.map_eq_some_iff.mpr ⟨o, a.object ho, rfl⟩
  | element i =>
    obtain ⟨o, ho, rfl⟩ := Option.map_eq_some_iff.mp e
    exact Option.map_eq_some_iff.mpr ⟨o, a.object ho, rfl⟩

theorem Keeps.qualified {α : Type} {R : Reading κ ν K O} {h h' : Heap} {ns ns' : ν}
    (a : R.Keeps h ns h' ns') {q : Qualified κ α} {n : Qualified K α}
    (e : R.qualified? h ns q = some n) : R.qualified? h' ns' q = some n := by
  obtain ⟨k, hk, rfl⟩ := Option.map_eq_some_iff.mp e
  exact Option.map_eq_some_iff.mpr ⟨k, a.context hk, rfl⟩

theorem qualified?_eq {α : Type} {R : Reading κ ν K O} {h : Heap} {ns : ν} {c : κ} {k : K}
    (e : R.context? h ns c = some k) (item : α) : R.qualified? h ns ⟨c, item⟩ = some ⟨k, item⟩ :=
  Option.map_eq_some_iff.mpr ⟨k, e, rfl⟩

theorem place?_var {R : Reading κ ν K O} {h : Heap} {ns : ν} {c : κ} {k : K}
    (e : R.context? h ns c = some k) (v : VarId) :
    R.place? h ns (.var c v) = some (.var k v) :=
  Option.map_eq_some_iff.mpr ⟨k, e, rfl⟩

theorem place?_field {R : Reading κ ν K O} {h : Heap} {ns : ν} {i : Nat} {o : O}
    (e : R.object? h ns i = some o) (f : FieldId) :
    R.place? h ns (.field i f) = some (.field o f) :=
  Option.map_eq_some_iff.mpr ⟨o, e, rfl⟩

theorem place?_element {R : Reading κ ν K O} {h : Heap} {ns : ν} {i : Nat} {o : O}
    (e : R.object? h ns i = some o) : R.place? h ns (.element i) = some (.element o) :=
  Option.map_eq_some_iff.mpr ⟨o, e, rfl⟩

/-- **What stands for a place**: a pointer of its kind. -/
theorem place?_cases {R : Reading κ ν K O} {h : Heap} {ns : ν} {a : Pointer κ} {x : Place K O}
    (e : R.place? h ns a = some x) :
    (∃ c k v, a = .var c v ∧ x = .var k v ∧ R.context? h ns c = some k) ∨
    (∃ f, a = .staticField f ∧ x = .staticField f) ∨
    (∃ i o f, a = .field i f ∧ x = .field o f ∧ R.object? h ns i = some o) ∨
    ∃ i o, a = .element i ∧ x = .element o ∧ R.object? h ns i = some o := by
  cases a with
  | var c v =>
    obtain ⟨k, hk, rfl⟩ := Option.map_eq_some_iff.mp e
    exact .inl ⟨c, k, v, rfl, rfl, hk⟩
  | staticField f =>
    cases e
    exact .inr (.inl ⟨f, rfl, rfl⟩)
  | field i f =>
    obtain ⟨o, ho, rfl⟩ := Option.map_eq_some_iff.mp e
    exact .inr (.inr (.inl ⟨i, o, f, rfl, rfl, ho⟩))
  | element i =>
    obtain ⟨o, ho, rfl⟩ := Option.map_eq_some_iff.mp e
    exact .inr (.inr (.inr ⟨i, o, rfl, rfl, ho⟩))

theorem eq_var_of_place? {R : Reading κ ν K O} {h : Heap} {ns : ν} {a : Pointer κ} {k : K}
    {v : VarId} (e : R.place? h ns a = some (.var k v)) :
    ∃ c, a = .var c v ∧ R.context? h ns c = some k := by
  obtain ⟨c, _, _, ha, hx, hc⟩ | ⟨_, -, hx⟩ | ⟨_, _, _, -, hx, -⟩ | ⟨_, _, -, hx, -⟩ :=
    place?_cases e <;> cases hx
  exact ⟨c, ha, hc⟩

theorem eq_static_of_place? {R : Reading κ ν K O} {h : Heap} {ns : ν} {a : Pointer κ}
    {f : FieldId} (e : R.place? h ns a = some (.staticField f)) : a = .staticField f := by
  obtain ⟨_, _, _, -, hx, -⟩ | ⟨_, ha, hx⟩ | ⟨_, _, _, -, hx, -⟩ | ⟨_, _, -, hx, -⟩ :=
    place?_cases e <;> cases hx
  exact ha

theorem eq_field_of_place? {R : Reading κ ν K O} {h : Heap} {ns : ν} {a : Pointer κ} {o : O}
    {f : FieldId} (e : R.place? h ns a = some (.field o f)) :
    ∃ i, a = .field i f ∧ R.object? h ns i = some o := by
  obtain ⟨_, _, _, -, hx, -⟩ | ⟨_, -, hx⟩ | ⟨i, _, _, ha, hx, hi⟩ | ⟨_, _, -, hx, -⟩ :=
    place?_cases e <;> cases hx
  exact ⟨i, ha, hi⟩

theorem eq_element_of_place? {R : Reading κ ν K O} {h : Heap} {ns : ν} {a : Pointer κ} {o : O}
    (e : R.place? h ns a = some (.element o)) :
    ∃ i, a = .element i ∧ R.object? h ns i = some o := by
  obtain ⟨_, _, _, -, hx, -⟩ | ⟨_, -, hx⟩ | ⟨_, _, _, -, hx, -⟩ | ⟨i, _, ha, hx, hi⟩ :=
    place?_cases e <;> cases hx
  exact ⟨i, ha, hi⟩

/-- **The numbering follows an abstraction**: different numbers stand for different things, and
    the contexts and objects the engine chooses are the ones the abstraction gives. -/
structure Faithful (R : Reading κ ν K O) (p : Program) (rules : Sensitivity κ ν)
    (A : Abstraction K O) : Prop where
  context_inj : ∀ {h ns c c' k}, R.Valid h ns → R.context? h ns c = some k →
    R.context? h ns c' = some k → c = c'
  object_inj : ∀ {h ns i i' o}, R.Valid h ns → R.object? h ns i = some o →
    R.object? h ns i' = some o → i = i'
  entry : ∀ {h ns}, R.Valid h ns → R.context? h ns rules.entryContext = some A.entry
  heapObject : ∀ {h ns i o}, R.Valid h ns → R.object? h ns i = some o →
    h.objectAt (rules.heapObject ns i) = A.heapObject o
  intern : ∀ {h ns} (object : HeapObject), R.Valid h ns →
    R.Valid (h.intern object).2 ns ∧ R.Keeps h ns (h.intern object).2 ns
  allocated : ∀ {h ns c k id object}, R.Valid h ns → R.context? h ns c = some k →
    h.objects.get? id = some object →
    R.Valid h (rules.allocated c id ns).2 ∧ R.Keeps h ns h (rules.allocated c id ns).2 ∧
      R.object? h (rules.allocated c id ns).2 (rules.allocated c id ns).1
        = some (A.allocated k object)
  callee : ∀ {h ns k} (site receiver o?), R.Valid h ns → R.context? h ns site.context = some k →
    receiver.map (R.object? h ns) = o?.map some →
    R.Valid h (rules.calleeContext p h site receiver ns).2 ∧
      R.Keeps h ns h (rules.calleeContext p h site receiver ns).2 ∧
      R.context? h (rules.calleeContext p h site receiver ns).2
        (rules.calleeContext p h site receiver ns).1 = some (A.callee p ⟨k, site.item⟩ o?)

/-- Different pointers stand for different places. -/
theorem Faithful.place_inj {R : Reading κ ν K O} {p : Program} {rules : Sensitivity κ ν}
    {A : Abstraction K O} (hR : R.Faithful p rules A) {h : Heap} {ns : ν} (hv : R.Valid h ns)
    {a b : Pointer κ} {x : Place K O} (ha : R.place? h ns a = some x)
    (hb : R.place? h ns b = some x) : a = b := by
  cases x with
  | var k v =>
    obtain ⟨c, rfl, hc⟩ := eq_var_of_place? ha
    obtain ⟨c', rfl, hc'⟩ := eq_var_of_place? hb
    rw [hR.context_inj hv hc hc']
  | staticField f => rw [eq_static_of_place? ha, eq_static_of_place? hb]
  | field o f =>
    obtain ⟨i, rfl, hi⟩ := eq_field_of_place? ha
    obtain ⟨i', rfl, hi'⟩ := eq_field_of_place? hb
    rw [hR.object_inj hv hi hi']
  | element o =>
    obtain ⟨i, rfl, hi⟩ := eq_element_of_place? ha
    obtain ⟨i', rfl, hi'⟩ := eq_element_of_place? hb
    rw [hR.object_inj hv hi hi']

end Reading

end ObjectFlow
