/-
  File:      ObjectFlow/Proofs/PointsTo/Watching.lean
  Subject:   A PLUGIN IS TOLD EVERY CHANGE, AND TOLD IT ONCE.

  * `EngineState.HostStep`: what a plugin can do to a run; `Plugin.Hosted`: a plugin that does
    nothing else, and sends only to pointers it was given;
  * `Quiet`: what happens between two changes. Numbers are given, edges drawn and work queued, but
    no set grows and no call is connected;
  * `Told`: what was told fits the state. `step_told` is the step and `run_told` the run;
  * `plugins_see_each_change_once`: so it is in both analyses.
-/
import Mathlib.Logic.Relation
import ObjectFlow.Proofs.PointsTo.OneContext
import ObjectFlow.Proofs.PointsTo.Plain
import ObjectFlow.Taint.Analysis

namespace ObjectFlow

/-! ## 1. What plugins do -/

/-- **What a plugin can do**: ask for the pointer of a variable or for tainted data, and send objects
    to a pointer there is. -/
inductive EngineState.HostStep {κ ν : Type} [DecidableEq κ] (rules : Sensitivity κ ν) :
    EngineState κ ν → EngineState κ ν → Prop
  | pointer {s} (c : κ) (v : VarId) : HostStep rules s (s.pointer (.var c v)).2
  | taintObject {s} (source : Site) (ty : Ty) :
      HostStep rules s (s.taintObject rules source ty).2
  | send {s} (id : PointerId) (objects : IdSet) (h : id < s.graph.size) :
      HostStep rules s (s.send id objects)

/-- One thing after the other that a plugin can do. -/
abbrev EngineState.HostSteps {κ ν : Type} [DecidableEq κ] (rules : Sensitivity κ ν) :
    EngineState κ ν → EngineState κ ν → Prop :=
  Relation.ReflTransGen (HostStep rules)

/-- **A plugin that changes a run by what it can do only.** `Below n r` says that the pointers it
    remembers are among the first `n`: it has them from the run. -/
structure Plugin.Hosted {κ ν ρ : Type} [DecidableEq κ] (plugin : Plugin κ ν ρ)
    (rules : Sensitivity κ ν) (Below : Nat → ρ → Prop) : Prop where
  mono : ∀ {n k r}, n ≤ k → Below n r → Below k r
  onObjects : ∀ {s r id} delta, Below s.graph.size r → id < s.graph.size →
    let out := plugin.onObjects rules id delta (s, r)
    EngineState.HostSteps rules s out.1 ∧ Below out.1.graph.size out.2
  onCall : ∀ {s r e}, Below s.graph.size r →
    let out := plugin.onCall rules e (s, r)
    EngineState.HostSteps rules s out.1 ∧ Below out.1.graph.size out.2

section HostSteps

variable {κ ν : Type} [DecidableEq κ] {rules : Sensitivity κ ν} {s s' : EngineState κ ν}

/-- The number of a pointer is one of the numbers there are then. -/
theorem EngineState.pointer_lt (s : EngineState κ ν) (a : Pointer κ) :
    (s.pointer a).1 < (s.pointer a).2.graph.size ∧
      s.graph.size ≤ (s.pointer a).2.graph.size := by
  obtain ⟨hget, hkeeps, -⟩ := PointerGraph.intern_spec s.graph a
  refine ⟨PointerGraph.lt_size_of_pointer? hget, Nat.le_of_not_lt fun hlt => ?_⟩
  obtain ⟨b, hb⟩ := Interner.exists_get? hlt
  exact absurd (Interner.lt_size_of_get? (hkeeps _ b hb)) (Nat.lt_irrefl _)

theorem EngineState.HostSteps.size (h : EngineState.HostSteps rules s s') :
    s.graph.size ≤ s'.graph.size := by
  induction h with
  | refl => exact Nat.le_refl _
  | tail _ hstep ih =>
    refine Nat.le_trans ih ?_
    cases hstep with
    | pointer c v => exact (EngineState.pointer_lt _ _).2
    | taintObject source ty => exact Nat.le_refl _
    | send id objects hid => exact Nat.le_refl _

end HostSteps

/-! ## 2. What a plugin was told -/

namespace EngineEvent

variable {κ : Type}

/-- The objects that came to a pointer. -/
def delta? (id : PointerId) : EngineEvent κ → Option IdSet
  | .objects id' delta => if id' = id then some delta else none
  | _ => none

/-- The call that was connected. -/
def call? : EngineEvent κ → Option (ContextCallEdge κ)
  | .call e => some e
  | _ => none

def isFinish : EngineEvent κ → Bool
  | .finish _ => true
  | _ => false

/-- What came to a pointer, in the order it was told. -/
def deltasAt (story : List (EngineEvent κ)) (id : PointerId) : List IdSet :=
  story.filterMap (delta? id)

/-- The calls, in the order they were told. -/
def callsIn (story : List (EngineEvent κ)) : List (ContextCallEdge κ) := story.filterMap call?

end EngineEvent

open EngineEvent

/-- **The story fits the state**: what came to a pointer is never nothing, never told twice, and
    together what it points to; and the calls are those of the call graph in its order, each edge
    there once. -/
structure Told {κ ν : Type} (story : List (EngineEvent κ)) (s : EngineState κ ν) : Prop where
  nonempty : ∀ id, ∀ delta ∈ deltasAt story id, delta ≠ .empty
  disjoint : ∀ id, (deltasAt story id).Pairwise fun a b => ∀ i ∈ a, ¬ i ∈ b
  union : ∀ id i, i ∈ s.pointsTo id ↔ ∃ delta ∈ deltasAt story id, i ∈ delta
  calls : callsIn story = s.calls.edges.toList
  once : s.calls.edges.toList.Pairwise fun e e' => ¬(e.site = e'.site ∧ e.callee = e'.callee)

/-- **The whole story of a run that ended in `s`**: all that is told before the end, and the end. -/
def ToldAll {κ ν : Type} (story : List (EngineEvent κ)) (s : EngineState κ ν) : Prop :=
  ∃ told, story = told ++ [.finish s.heap.size] ∧ (∀ event ∈ told, event.isFinish = false) ∧
    Told told s

/-! ## 3. Between two changes -/

/-- **Work that can be taken up**: it goes to pointers there are, and calls are calls. -/
structure Orderly {κ ν : Type} (p : Program) (s : EngineState κ ν) : Prop where
  graph : s.graph.WF
  targets : ∀ id, ∀ t ∈ s.graph.successors id, t < s.graph.size
  points : ∀ id objects, .points id objects ∈ s.queue.toList → id < s.graph.size
  calls : ∀ e, .call e ∈ s.queue.toList → (p.invoke? e.site.item).isSome

/-- **Nothing that is told happens from `s` to `s'`.** -/
structure Quiet {κ ν : Type} (p : Program) (s s' : EngineState κ ν) : Prop where
  orderly : Orderly p s'
  size : s.graph.size ≤ s'.graph.size
  sets : ∀ id, s'.pointsTo id = s.pointsTo id
  edges : s'.calls.edges = s.calls.edges

section Quiet

variable {κ ν : Type} {p : Program} {s s' s'' : EngineState κ ν}

theorem Orderly.quiet (h : Orderly p s) : Quiet p s s := ⟨h, Nat.le_refl _, fun _ => rfl, rfl⟩

theorem Quiet.trans (h : Quiet p s s') (h' : Quiet p s' s'') : Quiet p s s'' where
  orderly := h'.orderly
  size := Nat.le_trans h.size h'.size
  sets id := (h'.sets id).trans (h.sets id)
  edges := h'.edges.trans h.edges

theorem quiet_foldl {α : Type} {f : EngineState κ ν → α → EngineState κ ν} (l : List α)
    (hf : ∀ a ∈ l, ∀ u, Orderly p u → Quiet p u (f u a)) (h : Orderly p s) :
    Quiet p s (l.foldl f s) := by
  induction l generalizing s with
  | nil => exact h.quiet
  | cons a l ih =>
    have ha := hf a List.mem_cons_self s h
    exact ha.trans (ih (fun b hb => hf b (List.mem_cons_of_mem a hb)) ha.orderly)

/-- The heap and the naming are not told. -/
theorem Orderly.renamed (h : Orderly p s) (heap : Heap) (names : ν) :
    Quiet p s { s with heap := heap, names := names } :=
  ⟨⟨h.graph, h.targets, h.points, h.calls⟩, Nat.le_refl _, fun _ => rfl, rfl⟩

theorem Orderly.send (h : Orderly p s) {id : PointerId} (hid : id < s.graph.size)
    (objects : IdSet) : Quiet p s (s.send id objects) := by
  have hqueue : ∀ w, w ∈ (s.send id objects).queue.toList →
      w ∈ s.queue.toList ∨ w = .points id objects := by
    intro w hw
    have hw : w ∈ (s.queue.push (.points id objects)).toList := hw
    rw [WorkQueue.toList_push, List.mem_append, List.mem_singleton] at hw
    exact hw
  refine ⟨⟨h.graph, h.targets, fun id' objects' hw => ?_, fun e hw => ?_⟩, Nat.le_refl _,
    fun _ => rfl, rfl⟩
  · rcases hqueue _ hw with hw | hw
    · exact h.points id' objects' hw
    · cases hw
      exact hid
  · rcases hqueue _ hw with hw | hw
    · exact h.calls e hw
    · cases hw

theorem Orderly.sendCall (h : Orderly p s) {e : ContextCallEdge κ}
    (he : (p.invoke? e.site.item).isSome) : Quiet p s (s.sendCall e) := by
  have hqueue : ∀ w, w ∈ (s.sendCall e).queue.toList → w ∈ s.queue.toList ∨ w = .call e := by
    intro w hw
    have hw : w ∈ (s.queue.push (.call e)).toList := hw
    rw [WorkQueue.toList_push, List.mem_append, List.mem_singleton] at hw
    exact hw
  refine ⟨⟨h.graph, h.targets, fun id objects hw => ?_, fun e' hw => ?_⟩, Nat.le_refl _,
    fun _ => rfl, rfl⟩
  · rcases hqueue _ hw with hw | hw
    · exact h.points id objects hw
    · cases hw
  · rcases hqueue _ hw with hw | hw
    · exact h.calls e' hw
    · cases hw
      exact he

variable [DecidableEq κ]

theorem Orderly.pointer (h : Orderly p s) (a : Pointer κ) :
    Quiet p s (s.pointer a).2 ∧ (s.pointer a).1 < (s.pointer a).2.graph.size := by
  obtain ⟨-, -, hsets, hsuccessors, hwf⟩ := PointerGraph.intern_spec s.graph a
  obtain ⟨hid, hsize⟩ := s.pointer_lt a
  refine ⟨⟨⟨hwf h.graph, fun id t ht => ?_, fun id objects hw => ?_, h.calls⟩, hsize, hsets, rfl⟩,
    hid⟩
  · have ht : t ∈ s.graph.successors id := hsuccessors id ▸ ht
    exact Nat.lt_of_lt_of_le (h.targets id t ht) hsize
  · exact Nat.lt_of_lt_of_le (h.points id objects hw) hsize

theorem Orderly.sendTo (h : Orderly p s) (a : Pointer κ) (objects : IdSet) :
    Quiet p s ((s.pointer a).2.send (s.pointer a).1 objects) :=
  (h.pointer a).1.trans ((h.pointer a).1.orderly.send (h.pointer a).2 objects)

theorem Orderly.link (h : Orderly p s) (a b : Pointer κ) : Quiet p s (s.link a b) := by
  obtain ⟨hquiet, hid⟩ := h.pointer a
  obtain ⟨hquiet', ht⟩ := hquiet.orderly.pointer b
  have hu := hquiet.trans hquiet'
  have hid := Nat.lt_of_lt_of_le hid hquiet'.size
  unfold EngineState.link
  simp only
  generalize (s.pointer a).1 = id at hid ⊢
  generalize ((s.pointer a).2.pointer b).1 = t at ht ⊢
  generalize ((s.pointer a).2.pointer b).2 = u at hu hid ht ⊢
  split
  · exact hu
  · -- a new edge, and what its source points to is sent
    have hmem := PointerGraph.mem_successors_addEdge hu.orderly.graph hid t
    have hlinked : Quiet p u { u with graph := u.graph.addEdge id t } := by
      have hsize : (u.graph.addEdge id t).size = u.graph.size := by
        rw [PointerGraph.size, PointerGraph.size, PointerGraph.pointers_addEdge]
      refine ⟨⟨hu.orderly.graph.addEdge id t, fun id' t' ht' => ?_, fun id' objects hw => ?_,
        hu.orderly.calls⟩, Nat.le_of_eq hsize.symm, PointerGraph.pointsTo_addEdge u.graph id t, rfl⟩
      · rw [hsize]
        rcases (hmem id' t').mp ht' with hold | ⟨-, rfl⟩
        · exact hu.orderly.targets id' t' hold
        · exact ht
      · rw [hsize]
        exact hu.orderly.points id' objects hw
    split
    · exact hu.trans hlinked
    · exact (hu.trans hlinked).trans
        (hlinked.orderly.send (Nat.lt_of_lt_of_le ht hlinked.size) _)

end Quiet

/-! ## 4. What the engine does -/

section Engine

variable {κ ν ρ : Type} [DecidableEq κ] {p : Program} {rules : Sensitivity κ ν}
  {s s' : EngineState κ ν}

/-- What a plugin can do is quiet. -/
theorem Orderly.hostSteps (h : Orderly p s) (hsteps : EngineState.HostSteps rules s s') :
    Quiet p s s' := by
  induction hsteps with
  | refl => exact h.quiet
  | tail _ hstep ih =>
    refine ih.trans ?_
    cases hstep with
    | pointer c v => exact (ih.orderly.pointer _).1
    | taintObject source ty => exact ih.orderly.renamed _ _
    | send id objects hid => exact ih.orderly.send hid objects

theorem Orderly.enterStmt (h : Orderly p s) (c : κ) {here : Site × Stmt}
    (hhere : p.stmt? here.1 = some here.2) : Quiet p s (s.enterStmt p rules c here) := by
  obtain ⟨site, stmt⟩ := here
  unfold EngineState.enterStmt
  split
  · rename_i lhs ty length hstmt
    exact (h.renamed _ _).trans ((h.renamed _ _).orderly.sendTo _ _)
  · exact h.link _ _
  · exact h.link _ _
  · exact h.link _ _
  · exact h.link _ _
  · rename_i i hstmt
    obtain rfl : stmt = .call i := hstmt
    split
    · split
      · refine (h.renamed _ _).trans ((h.renamed _ _).orderly.sendCall ?_)
        rw [Program.invoke?_eq_some_iff.mpr hhere]
        rfl
      · exact h.quiet
    · exact h.quiet
  · exact h.quiet

theorem Orderly.reach (h : Orderly p s) (rules : Sensitivity κ ν) (m : Qualified κ MethodId) :
    Quiet p s (s.reach p rules m) := by
  unfold EngineState.reach
  split
  · exact h.quiet
  · have hadd : Quiet p s { s with calls := s.calls.addReachable m } :=
      ⟨⟨h.graph, h.targets, h.points, h.calls⟩, Nat.le_refl _, fun _ => rfl,
        CallGraph.edges_addReachable s.calls m⟩
    exact hadd.trans (quiet_foldl _ (fun here hhere u hu =>
      hu.enterStmt m.context (Program.mem_sitesOf.mp hhere).2) hadd.orderly)

theorem Orderly.access (h : Orderly p s) (uses : Program.VarUses) (c : κ) (object : Nat) :
    Quiet p s (s.access p uses c object) := by
  -- each loop links, or leaves the state as it is
  have hloop : ∀ {u : EngineState κ ν} {f : EngineState κ ν → Site → EngineState κ ν}
      {sites : List Site}, (∀ site u, f u site = u ∨ ∃ a b, f u site = u.link a b) →
      Quiet p s u → Quiet p s (sites.foldl f u) := by
    intro u f sites hf hu
    refine hu.trans (quiet_foldl _ (fun site _ u hu => ?_) hu.orderly)
    rcases hf site u with heq | ⟨a, b, heq⟩
    · rw [heq]
      exact hu.quiet
    · rw [heq]
      exact hu.link a b
  refine hloop ?_ (hloop ?_ (hloop ?_ (hloop ?_ h.quiet)))
  all_goals
    intro site u
    split
    · exact .inr ⟨_, _, rfl⟩
    · exact .inl rfl

theorem Orderly.callOn (h : Orderly p s) (c : κ) (object : Nat) (site : Site) :
    Quiet p s (s.callOn p rules c object site) := by
  unfold EngineState.callOn
  split
  · exact h.quiet
  · rename_i i hi
    split
    · exact h.quiet
    · rename_i callee hcallee
      -- the receiver is sent if the callee has one, then the call
      have he : (p.invoke? site).isSome := Option.isSome_iff_exists.mpr ⟨i, hi⟩
      have hnamed := h.renamed s.heap
        (rules.calleeContext p s.heap ⟨c, site⟩ (some object) s.names).2
      dsimp only
      split
      · rename_i this _
        have hsent := hnamed.orderly.sendTo
          (.var (rules.calleeContext p s.heap ⟨c, site⟩ (some object) s.names).1 this)
          (.singleton object)
        exact (hnamed.trans hsent).trans
          (hsent.orderly.sendCall (e := ⟨i.kind, ⟨c, site⟩, ⟨_, callee⟩⟩) he)
      · exact hnamed.trans (hnamed.orderly.sendCall (e := ⟨i.kind, ⟨c, site⟩, ⟨_, callee⟩⟩) he)

theorem Orderly.newObject (h : Orderly p s) (rules : Sensitivity κ ν) (uses : Program.VarUses)
    (c : κ) (object : Nat) : Quiet p s (s.newObject p rules uses c object) := by
  have haccess := h.access uses c object
  exact haccess.trans (quiet_foldl _ (fun site _ u hu => hu.callOn c object site) haccess.orderly)

theorem Orderly.connect (h : Orderly p s) (e : ContextCallEdge κ) (i : Invoke) :
    Quiet p s (s.connect p e i) := by
  have hargs := quiet_foldl (i.args.zip (p.methodAt e.callee.item).params)
    (f := fun u (x : VarId × VarId) =>
      u.link (.var e.site.context x.1) (.var e.callee.context x.2))
    (fun x _ u hu => hu.link _ _) h
  unfold EngineState.connect
  simp only
  split
  · exact hargs.trans (quiet_foldl _ (fun v _ u hu => hu.link _ _) hargs.orderly)
  · exact hargs

end Engine

/-! ## 5. Changes -/

section Changes

variable {κ ν ρ : Type} [DecidableEq κ] {p : Program} {rules : Sensitivity κ ν}
  {s s' : EngineState κ ν} {story : List (EngineEvent κ)}

omit [DecidableEq κ] in
theorem Told.quiet (h : Told story s) (hs : Quiet p s s') : Told story s' where
  nonempty := h.nonempty
  disjoint := h.disjoint
  union id i := by rw [hs.sets, h.union]
  calls := by rw [h.calls, hs.edges]
  once := by
    rw [hs.edges]
    exact h.once

omit [DecidableEq κ] in
/-- Objects that come to a pointer are told, unless there are none. -/
theorem Told.grow (h : Told story s) (hs : Orderly p s) {id : PointerId} (hid : id < s.graph.size)
    (objects : IdSet) :
    let out := s.grow id objects
    Orderly p out.2 ∧ out.2.graph.size = s.graph.size ∧
      (out.1.isEmpty = true → Told story out.2) ∧
      (out.1.isEmpty = false → Told (story ++ [.objects id out.1]) out.2) := by
  obtain ⟨queue, hgrow, hqueue⟩ := grow_eq s id objects
  rw [hgrow]
  have hfresh : ∀ i ∈ objects.diff (s.pointsTo id), ¬ i ∈ s.pointsTo id :=
    fun i hi => (IdSet.mem_diff.mp hi).2
  generalize objects.diff (s.pointsTo id) = delta at hqueue hfresh ⊢
  have hmem := PointerGraph.mem_pointsTo_addObjects hs.graph id delta
  refine ⟨⟨hs.graph.addObjects id delta, hs.targets, fun id' objects' hw => ?_, fun e hw => ?_⟩, rfl,
    fun hempty => ?_, fun hsome => ?_⟩
  · rcases (hqueue _).mp hw with hw | ⟨-, t, ht, heq⟩
    · exact hs.points id' objects' hw
    · cases heq
      exact hs.targets id id' ht
  · rcases (hqueue _).mp hw with hw | ⟨-, t, ht, heq⟩
    · exact hs.calls e hw
    · cases heq
  · refine ⟨h.nonempty, h.disjoint, fun id' i => ?_, h.calls, h.once⟩
    refine (hmem id' i).trans ?_
    have hnone : ¬ i ∈ delta := by
      rw [show delta = .empty from IdSet.isEmpty_iff.mp hempty]
      exact IdSet.not_mem_empty
    rw [← h.union]
    exact ⟨fun hi => hi.resolve_right fun hi => hnone hi.2.2, .inl⟩
  · have hdeltas : ∀ id', deltasAt (story ++ [.objects id delta]) id' =
        deltasAt story id' ++ if id = id' then [delta] else [] := by
      intro id'
      rw [deltasAt, List.filterMap_append]
      by_cases heq : id = id' <;> simp [deltasAt, delta?, heq]
    refine ⟨fun id' => ?_, fun id' => ?_, fun id' i => ?_, ?_, h.once⟩
    · rw [hdeltas]
      intro d hd
      rcases List.mem_append.mp hd with hd | hd
      · exact h.nonempty id' d hd
      · split at hd
        · obtain rfl := List.mem_singleton.mp hd
          intro hempty
          rw [IdSet.isEmpty_iff.mpr hempty] at hsome
          cases hsome
        · cases hd
    · rw [hdeltas]
      refine List.pairwise_append.mpr ⟨h.disjoint id', ?_, fun a ha b hb i hi hi' => ?_⟩
      · split
        · exact List.pairwise_singleton _ _
        · exact List.Pairwise.nil
      · split at hb
        · rename_i heq
          obtain rfl := List.mem_singleton.mp hb
          exact hfresh i hi' (heq ▸ (h.union id' i).mpr ⟨a, ha, hi⟩)
        · cases hb
    · refine (hmem id' i).trans ?_
      rw [hdeltas]
      simp only [List.mem_append, or_and_right, exists_or, ← h.union]
      refine or_congr Iff.rfl ?_
      split
      · rename_i heq
        simp [hid, ← heq]
      · rename_i hne
        simp [Ne.symm hne]
    · rw [callsIn, List.filterMap_append]
      exact (List.append_nil _).trans h.calls

/-- A call that is connected for the first time is told. -/
theorem Told.connect (h : Told story s) {e : ContextCallEdge κ}
    (hnew : s.calls.hasEdge e.site e.callee = false) :
    Told (story ++ [.call e]) { s with calls := s.calls.addEdge e } := by
  have hedges : (s.calls.addEdge e).edges = s.calls.edges.push e := by
    rw [CallGraph.addEdge, hnew]
    rfl
  have hdeltas : ∀ id, deltasAt (story ++ [.call e]) id = deltasAt story id := by
    intro id
    rw [deltasAt, List.filterMap_append]
    exact List.append_nil _
  refine ⟨fun id => ?_, fun id => ?_, fun id i => ?_, ?_, ?_⟩
  · rw [hdeltas]
    exact h.nonempty id
  · rw [hdeltas]
    exact h.disjoint id
  · rw [hdeltas]
    exact h.union id i
  · rw [hedges, Array.toList_push, ← h.calls, callsIn, List.filterMap_append]
    rfl
  · rw [hedges, Array.toList_push]
    refine List.pairwise_append.mpr ⟨h.once, List.pairwise_singleton _ _, fun e' he' e'' he'' => ?_⟩
    obtain rfl := List.mem_singleton.mp he''
    intro hsame
    rw [CallGraph.hasEdge_iff.mpr ⟨e', Array.mem_toList_iff.mp he', hsame⟩] at hnew
    cases hnew

end Changes

/-! ## 6. Watched runs -/

section Watched

variable {κ ν ρ : Type} [DecidableEq κ] {p : Program} {rules : Sensitivity κ ν}
  {plugin : Plugin κ ν ρ} {Below : Nat → ρ → Prop} {s s' : EngineState κ ν} {r r' : ρ}
  {events : List (EngineEvent κ)}

/-- **A run that is written down as it goes**: what was written fits the state, and the end was not
    told yet. -/
structure Watched (p : Program) (Below : Nat → ρ → Prop)
    (run : EngineState κ ν × ρ × List (EngineEvent κ)) : Prop where
  orderly : Orderly p run.1
  below : Below run.1.graph.size run.2.1
  told : Told run.2.2.reverse run.1
  unfinished : ∀ event ∈ run.2.2, event.isFinish = false

omit [DecidableEq κ] in
/-- Quiet moves need not be written down. -/
theorem Watched.quiet (h : Watched p Below (s, r, events)) (hs : Quiet p s s')
    (hr : Below s'.graph.size r') : Watched p Below (s', r', events) :=
  ⟨hs.orderly, hr, h.told.quiet hs, h.unfinished⟩

omit [DecidableEq κ] in
/-- What is told is written down last. -/
theorem Watched.tell (h : Watched p Below (s, r, events)) {event : EngineEvent κ}
    (hevent : event.isFinish = false) (hs : Orderly p s') (hr : Below s'.graph.size r')
    (htold : Told (events.reverse ++ [event]) s') :
    Watched p Below (s', r', event :: events) where
  orderly := hs
  below := hr
  told := by
    rw [List.reverse_cons]
    exact htold
  unfinished event' hmem := by
    rcases List.mem_cons.mp hmem with rfl | hmem
    · exact hevent
    · exact h.unfinished event' hmem

theorem Watched.takeUp (hplugin : plugin.Hosted rules Below)
    {run : EngineState κ ν × ρ × List (EngineEvent κ)} (h : Watched p Below run) (id : PointerId)
    (delta : IdSet) : Watched p Below (Engine.takeUp p rules id delta run) := by
  unfold Engine.takeUp
  split
  · rename_i c v hv
    have hnew := quiet_foldl delta.elems
      (fun o _ u hu => hu.newObject rules (p.usesOf v) c o) h.orderly
    exact h.quiet hnew (hplugin.mono hnew.size h.below)
  · exact h

theorem doPoints_watched (hplugin : plugin.Hosted rules Below)
    (h : Watched p Below (s, r, events)) {id : PointerId} (hid : id < s.graph.size)
    (objects : IdSet) :
    Watched p Below (Engine.doPoints p rules (plugin.both .recorder) id objects (s, r, events)) := by
  obtain ⟨horderly, hsize, hsame, hgrown⟩ := h.told.grow h.orderly hid objects
  rw [Engine.doPoints_eq]
  generalize s.grow id objects = out at horderly hsize hsame hgrown ⊢
  obtain ⟨delta, u⟩ := out
  have hbelow : Below u.graph.size r := hsize ▸ h.below
  split
  · rename_i hempty
    exact ⟨horderly, hbelow, hsame hempty, h.unfinished⟩
  · rename_i hsome
    obtain ⟨hsteps, hbelow'⟩ := hplugin.onObjects delta hbelow (hsize ▸ hid)
    have hquiet := horderly.hostSteps hsteps
    have htold := (hgrown (Bool.eq_false_iff.mpr hsome)).quiet hquiet
    exact (h.tell rfl hquiet.orderly hbelow' htold).takeUp hplugin id delta

theorem doCall_watched (hplugin : plugin.Hosted rules Below)
    (h : Watched p Below (s, r, events)) {e : ContextCallEdge κ}
    (he : (p.invoke? e.site.item).isSome) :
    Watched p Below (Engine.doCall p rules (plugin.both .recorder) e (s, r, events)) := by
  obtain ⟨i, hi⟩ := Option.isSome_iff_exists.mp he
  unfold Engine.doCall
  simp only [hi]
  by_cases hknown : s.calls.hasEdge e.site e.callee = true
  · rw [if_pos hknown]
    exact h
  · rw [if_neg hknown]
    have hadded : Orderly p { s with calls := s.calls.addEdge e } :=
      ⟨h.orderly.graph, h.orderly.targets, h.orderly.points, h.orderly.calls⟩
    have hreached := hadded.reach rules e.callee
    have hconnected := hreached.trans (hreached.orderly.connect e i)
    obtain ⟨hsteps, hbelow⟩ := hplugin.onCall (e := e) (hplugin.mono hconnected.size h.below)
    have hquiet := hconnected.trans (hconnected.orderly.hostSteps hsteps)
    have htold := (h.told.connect (Bool.eq_false_iff.mpr hknown)).quiet hquiet
    exact h.tell rfl hquiet.orderly hbelow htold

/-- **The step**: what was written down still fits after one more item of work. -/
theorem step_watched (hplugin : plugin.Hosted rules Below)
    {run run' : EngineState κ ν × ρ × List (EngineEvent κ)} (h : Watched p Below run)
    (hstep : Engine.step p rules (plugin.both .recorder) run = some run') :
    Watched p Below run' := by
  obtain ⟨s, r, events⟩ := run
  obtain ⟨⟨item, queue⟩, hpop, rfl⟩ := Option.map_eq_some_iff.mp hstep
  have hmem := WorkQueue.mem_of_pop? hpop
  have hpopped : Quiet p s { s with queue := queue } :=
    ⟨⟨h.orderly.graph, h.orderly.targets,
      fun id objects hw => h.orderly.points id objects ((hmem _).mpr (.inr hw)),
      fun e hw => h.orderly.calls e ((hmem _).mpr (.inr hw))⟩, Nat.le_refl _, fun _ => rfl, rfl⟩
  have h' := h.quiet hpopped h.below
  cases item with
  | points id objects =>
    exact doPoints_watched hplugin h' (h.orderly.points id objects ((hmem _).mpr (.inl rfl))) objects
  | call e => exact doCall_watched hplugin h' (h.orderly.calls e ((hmem _).mpr (.inl rfl)))

/-- The same run, once without and once with what was written down. -/
def Recorded (run : EngineState κ ν × ρ) (run' : EngineState κ ν × ρ × List (EngineEvent κ)) :
    Prop :=
  run = (run'.1, run'.2.1)

theorem Recorded.takeUp {run : EngineState κ ν × ρ}
    {run' : EngineState κ ν × ρ × List (EngineEvent κ)} (h : Recorded run run') (id : PointerId)
    (delta : IdSet) :
    Recorded (Engine.takeUp p rules id delta run) (Engine.takeUp p rules id delta run') := by
  obtain rfl : run = _ := h
  unfold Engine.takeUp
  simp only
  split <;> rfl

variable (p rules plugin) in
/-- **Writing down changes nothing**: the plugin alone takes the same steps. -/
theorem Recorded.step {run : EngineState κ ν × ρ}
    {run' : EngineState κ ν × ρ × List (EngineEvent κ)} (h : Recorded run run') :
    Option.Rel Recorded (Engine.step p rules plugin run)
      (Engine.step p rules (plugin.both .recorder) run') := by
  obtain ⟨s, r, events⟩ := run'
  obtain rfl : run = (s, r) := h
  unfold Engine.step
  cases s.queue.pop? with
  | none => exact .none
  | some next =>
    obtain ⟨item, queue⟩ := next
    refine .some ?_
    cases item with
    | points id objects =>
      simp only [Engine.doPoints_eq]
      split
      · rfl
      · refine Recorded.takeUp ?_ id _
        rfl
    | call e =>
      unfold Engine.doCall
      simp only
      split
      · rfl
      · cases p.invoke? e.site.item <;> rfl

/-- Before the first item of work nothing was told, and there is nothing to tell. -/
theorem start_watched (hplugin : plugin.Hosted rules Below) (hr : Below 0 r) (names : ν)
    (heap : HeapPolicy) (order : QueueOrder) (entry : MethodId) :
    Watched p Below (Engine.start p rules names heap order entry, r, []) := by
  let blank : EngineState κ ν :=
    { heap := { policy := heap }, names := names, queue := { order := order } }
  have hblank : Watched p Below (blank, r, []) := by
    refine ⟨⟨PointerGraph.wf_empty, fun id t ht => ?_, fun id objects hw => ?_, fun e hw => ?_⟩,
      hr, ⟨fun id d hd => ?_, fun id => .nil, fun id i => ?_, rfl, .nil⟩, fun event h => ?_⟩
    · simp [blank, PointerGraph.successors] at ht
    · cases hw
    · cases hw
    · cases hd
    · simp [blank, EngineState.pointsTo, PointerGraph.pointsTo, deltasAt]
    · cases h
  have hreached := hblank.orderly.reach rules ⟨rules.entryContext, entry⟩
  have hentered : Quiet p blank (Engine.start p rules names heap order entry) :=
    hreached.trans ⟨⟨hreached.orderly.graph, hreached.orderly.targets, hreached.orderly.points,
      hreached.orderly.calls⟩, Nat.le_refl _, fun _ => rfl, CallGraph.edges_addEntry _ _⟩
  exact hblank.quiet hentered (hplugin.mono (Nat.zero_le _) hr)

/-- **The run**: what is told in a whole run fits where it ends. -/
theorem run_told (hplugin : plugin.Hosted rules Below) {memory : ρ} (hmemory : Below 0 memory)
    {names : ν} {heap : HeapPolicy} {order : QueueOrder} {entry : MethodId} {allowance : Nat}
    (h : Engine.runWithin p rules plugin memory allowance
      (Engine.start p rules names heap order entry) = some (s, r)) :
    ∃ events, Engine.runWithin p rules (plugin.both .recorder) (memory, []) allowance
        (Engine.start p rules names heap order entry) = some (s, r, events) ∧
      ToldAll events.reverse s := by
  obtain ⟨⟨s', r'⟩, hends, heq⟩ := Option.map_eq_some_iff.mp h
  obtain ⟨rfl, rfl⟩ := Prod.mk.inj heq
  have hfirst : Recorded (Engine.start p rules names heap order entry, memory)
      (Engine.start p rules names heap order entry, memory, []) := rfl
  have hsame := iterate_related (fun _ _ => Recorded.step p rules plugin) allowance hfirst
  rw [hends] at hsame
  generalize hends' : iterate (Engine.step p rules (plugin.both .recorder)) allowance
    (Engine.start p rules names heap order entry, memory, []) = out at hsame
  cases hsame with
  | @some _ out hout =>
    obtain ⟨s'', r'', events⟩ := out
    obtain ⟨rfl, rfl⟩ : s' = s'' ∧ r' = r'' := Prod.mk.inj hout
    have hwatched := (iterate_invariant (fun _ _ hrun => step_watched hplugin hrun)
      (start_watched hplugin hmemory names heap order entry) hends').1
    refine ⟨.finish s'.heap.size :: events, ?_, events.reverse, List.reverse_cons, ?_,
      hwatched.told⟩
    · unfold Engine.runWithin
      rw [hends']
      rfl
    · intro event hevent
      exact hwatched.unfinished event (List.mem_reverse.mp hevent)

end Watched

/-! ## 7. The two analyses -/

section Rename

variable {σ μ σ' μ' : Type} [DecidableEq σ'] [DecidableEq μ'] {site : σ → σ'} {method : μ → μ'}

theorem CallGraph.edges_foldl_addEdge (edges : List (CallEdge σ' μ')) (g : CallGraph σ' μ')
    (h : (g.edges.toList ++ edges).Pairwise
      fun e e' => ¬(e.site = e'.site ∧ e.callee = e'.callee)) :
    (edges.foldl (fun g e => g.addEdge e) g).edges.toList = g.edges.toList ++ edges := by
  induction edges generalizing g with
  | nil => exact (List.append_nil _).symm
  | cons e edges ih =>
    have hnew : g.hasEdge e.site e.callee = false := by
      refine Bool.eq_false_iff.mpr fun hknown => ?_
      obtain ⟨e', he', hsame⟩ := CallGraph.hasEdge_iff.mp hknown
      exact (List.pairwise_append.mp h).2.2 e' (Array.mem_toList_iff.mpr he') e
        List.mem_cons_self hsame
    have hadded : (g.addEdge e).edges.toList = g.edges.toList ++ [e] := by
      rw [CallGraph.addEdge, hnew]
      exact Array.toList_push
    rw [List.foldl_cons, ih (g.addEdge e) (by simpa [hadded] using h), hadded, List.append_assoc]
    rfl

/-- Edges that stay apart when renamed keep their order. -/
theorem CallGraph.edges_rename {g : CallGraph σ μ}
    (h : g.edges.toList.Pairwise fun e e' =>
      ¬(site e.site = site e'.site ∧ method e.callee = method e'.callee)) :
    (g.rename site method).edges.toList =
      g.edges.toList.map fun e => ⟨e.kind, site e.site, method e.callee⟩ := by
  have hentered : (g.entries.foldl (fun h m => h.addEntry (method m)) {} :
      CallGraph σ' μ').edges = #[] := by
    rw [← Array.foldl_toList]
    exact List.foldlRecOn _ _ (motive := fun h : CallGraph σ' μ' => h.edges = #[]) rfl
      fun h hh m _ => (edges_addEntry h (method m)).trans hh
  have hreached : (g.reachable.foldl (fun h m => h.addReachable (method m))
      (g.entries.foldl (fun h m => h.addEntry (method m)) {}) : CallGraph σ' μ').edges = #[] := by
    rw [← Array.foldl_toList]
    exact List.foldlRecOn _ _ (motive := fun h : CallGraph σ' μ' => h.edges = #[]) hentered
      fun h hh m _ => (edges_addReachable h (method m)).trans hh
  unfold rename
  simp only
  generalize g.reachable.foldl _ _ = reached at hreached ⊢
  rw [← Array.foldl_toList, ← List.foldl_map
    (f := fun e : CallEdge σ μ => (⟨e.kind, site e.site, method e.callee⟩ : CallEdge σ' μ'))
    (g := fun (h : CallGraph σ' μ') e => h.addEdge e), edges_foldl_addEdge, hreached]
  · rfl
  · rw [hreached]
    exact List.pairwise_map.mpr h

end Rename

namespace Taint

variable {κ ν : Type} [DecidableEq κ] {rules : Sensitivity κ ν}

open EngineState (HostStep HostSteps)

/-- The edges the taint analysis remembers lead to pointers there are. -/
def EdgesBelow (n : Nat) (memory : TaintMemory) : Prop := ∀ e ∈ memory.edges, e.target < n

theorem retag_hosted (ty : Ty) (objects : List Nat) (tagged : IdSet) (s : EngineState κ ν) :
    HostSteps rules s (objects.foldl (fun (tagged, s) object =>
      match EngineState.taintSource? s rules object with
      | some source =>
        let (o, s) := s.taintObject rules source ty
        (tagged.insert o, s)
      | none => (tagged, s)) (tagged, s)).2 := by
  induction objects generalizing tagged s with
  | nil => exact .refl
  | cons object objects ih =>
    rw [List.foldl_cons]
    simp only
    split
    · rename_i source _
      exact Relation.ReflTransGen.head (.taintObject source ty) (ih _ _)
    · exact ih tagged s

theorem pass_hosted (rules : Sensitivity κ ν) (s : EngineState κ ν) (objects : IdSet)
    {target : PointerId} (ht : target < s.graph.size) (ty : Ty) :
    HostSteps rules s (pass rules s objects target ty) := by
  have hretag : HostSteps rules s (retag rules ty s objects.elems).2 :=
    retag_hosted ty objects.elems .empty s
  unfold pass
  simp only
  split
  · exact hretag
  · exact hretag.tail (.send target _ (Nat.lt_of_lt_of_le ht hretag.size))

theorem slotPointer_hosted (rules : Sensitivity κ ν) (s : EngineState κ ν) (c : κ) (i : Invoke)
    (slot : Slot) :
    HostSteps rules s (slotPointer s c i slot).2 ∧
      ∀ id, (slotPointer s c i slot).1 = some id → id < (slotPointer s c i slot).2.graph.size := by
  unfold slotPointer
  split
  · exact ⟨.refl, fun id h => by cases h⟩
  · rename_i v _
    refine ⟨.single (.pointer c v), fun id h => ?_⟩
    obtain rfl := Option.some.inj h
    exact (s.pointer_lt (.var c v)).1

theorem addSource_hosted (site : Site) (c : κ) (result : VarId) (s : EngineState κ ν) (ty : Ty) :
    HostSteps rules s (addSource rules site c result s ty) := by
  refine Relation.ReflTransGen.head (.taintObject site ty) ?_
  refine Relation.ReflTransGen.head (.pointer c result) ?_
  exact .single (.send _ _ (EngineState.pointer_lt _ _).1)

/-- What a plugin did so far, and what it remembers is of the run. -/
def Hosts (rules : Sensitivity κ ν) (s : EngineState κ ν) (run : EngineState κ ν × TaintMemory) :
    Prop :=
  HostSteps rules s run.1 ∧ EdgesBelow run.1.graph.size run.2

theorem EdgesBelow.mono {n k : Nat} {memory : TaintMemory} (h : EdgesBelow n memory) (hle : n ≤ k) :
    EdgesBelow k memory :=
  fun e he => Nat.lt_of_lt_of_le (h e he) hle

theorem Hosts.steps {s s' : EngineState κ ν} {run : EngineState κ ν × TaintMemory}
    (h : Hosts rules s run) (hs : HostSteps rules run.1 s') : Hosts rules s (s', run.2) :=
  ⟨h.1.trans hs, h.2.mono hs.size⟩

theorem Hosts.addTransfer {s : EngineState κ ν} {run : EngineState κ ν × TaintMemory}
    (h : Hosts rules s run) (c : κ) (i : Invoke) (t : Transfer) :
    Hosts rules s (addTransfer rules c i run t) := by
  obtain ⟨u, memory⟩ := run
  unfold Taint.addTransfer
  simp only
  obtain ⟨hsource, -⟩ := slotPointer_hosted rules u c i t.source
  generalize slotPointer u c i t.source = source at hsource ⊢
  obtain ⟨htarget, hlt⟩ := slotPointer_hosted rules source.2 c i t.target
  generalize slotPointer source.2 c i t.target = target at htarget hlt ⊢
  have hboth : Hosts rules s (target.2, memory) := h.steps (hsource.trans htarget)
  split
  · rename_i sourceId targetId _ htargetId
    split
    · exact hboth
    · have hpass := pass_hosted rules target.2 (target.2.pointsTo sourceId)
        (hlt targetId htargetId) t.ty
      refine ⟨hboth.1.trans hpass, fun e he => ?_⟩
      rcases List.mem_append.mp he with he | he
      · exact Nat.lt_of_lt_of_le (hboth.2 e he) hpass.size
      · obtain rfl := List.mem_singleton.mp he
        exact Nat.lt_of_lt_of_le (hlt targetId htargetId) hpass.size
  · exact hboth

theorem Hosts.addSink {s : EngineState κ ν} {run : EngineState κ ν × TaintMemory}
    (h : Hosts rules s run) (site : Site) (c : κ) (i : Invoke) (k : Nat) :
    Hosts rules s (addSink site c i run k) := by
  obtain ⟨u, memory⟩ := run
  unfold Taint.addSink
  simp only
  split
  · exact h
  · rename_i v _
    have hpointer := h.steps (.single (.pointer c v))
    split
    · exact hpointer
    · exact hpointer

/-- The taint analysis does what a plugin can do, and nothing else. -/
theorem plugin_hosted (p : Program) (taint : TaintRules) :
    (plugin p taint : Plugin κ ν TaintMemory).Hosted rules EdgesBelow where
  mono hle h := h.mono hle
  onObjects {s memory id} delta h _ := by
    have hout : Hosts rules s ((memory.edges.filter (·.source = id)).foldl
        (fun s e => pass rules s delta e.target e.ty) s, memory) := by
      refine List.foldlRecOn _ _ (motive := fun u => Hosts rules s (u, memory)) ⟨.refl, h⟩ ?_
      intro u hu e he
      exact hu.steps (pass_hosted rules u delta (hu.2 e (List.mem_of_mem_filter he)) e.ty)
    exact hout
  onCall {s memory e} h := by
    have hs : Hosts rules s (s, memory) := ⟨.refl, h⟩
    have hcall : Hosts rules s (onCall p taint rules e (s, memory)) := by
      unfold onCall
      split
      · exact hs
      · rename_i i hi
        refine List.foldlRecOn _ _ (List.foldlRecOn _ _ ?_ ?_) ?_
        · split
          · exact List.foldlRecOn _ _ (motive := fun u => Hosts rules s (u, memory)) hs
              fun u hu ty _ => hu.steps (addSource_hosted _ _ _ u ty)
          · exact hs
        · exact fun run hrun t _ => hrun.addTransfer _ i t
        · exact fun run hrun k _ => hrun.addSink _ _ i k
    exact hcall

end Taint

/-- **Plugins see each change once.** In a run of either analysis that ends, whatever the plugin does
    with what it is given: what is told of a pointer is never nothing, never the same object twice,
    and together what the pointer points to in the end; the calls are told in the order of the call
    graph, each once; and the end is told once, after all of it. The events are those that `plugin`
    is told, as `Plugin.recorder` wrote them down next to it. -/
theorem plugins_see_each_change_once {ρ : Type} (p : Program) (options : PointsToOptions)
    (memory : ρ) (Below : Nat → ρ → Prop) (hmemory : Below 0 memory) (allowance : Nat)
    (entry : MethodId) :
    (∀ (plugin : Plugin Unit Unit ρ), plugin.Hosted Plain.sensitivity Below → ∀ r m,
      Plain.analyzeWithin p options plugin memory allowance entry = some (r, m) →
      ∃ s events, r = Plain.result s ∧
        Plain.analyzeWithin p options (plugin.both .recorder) (memory, []) allowance entry =
          some (r, m, events) ∧
        ToldAll events.reverse s ∧
        r.calls.edges.toList = (callsIn events.reverse).map
          fun e => ⟨e.kind, e.site.item, e.callee.item⟩) ∧
    (∀ (plugin : Plugin ContextId ContextNames ρ),
      plugin.Hosted (ContextSensitive.sensitivity options.selector) Below → ∀ r m,
      ContextSensitive.analyzeWithin p options plugin memory allowance entry = some (r, m) →
      ∃ s events, r = ContextSensitive.result s ∧
        ContextSensitive.analyzeWithin p options (plugin.both .recorder) (memory, []) allowance
          entry = some (r, m, events) ∧
        ToldAll events.reverse s) := by
  constructor
  · intro plugin hplugin r m h
    obtain ⟨⟨s, m'⟩, hends, heq⟩ := Option.map_eq_some_iff.mp h
    obtain ⟨rfl, rfl⟩ := Prod.mk.inj heq
    obtain ⟨events, hevents, htold⟩ := run_told hplugin hmemory hends
    refine ⟨s, events, rfl, ?_, htold, ?_⟩
    · unfold Plain.analyzeWithin
      rw [hevents]
      rfl
    · obtain ⟨told, heq, -, htold⟩ := htold
      have hcalls : callsIn events.reverse = s.calls.edges.toList := by
        rw [heq, callsIn, List.filterMap_append]
        exact (List.append_nil _).trans htold.calls
      rw [hcalls]
      refine CallGraph.edges_rename (htold.once.imp fun hne hsame => hne ?_)
      exact ⟨congrArg (Qualified.mk ()) hsame.1, congrArg (Qualified.mk ()) hsame.2⟩
  · intro plugin hplugin r m h
    obtain ⟨⟨s, m'⟩, hends, heq⟩ := Option.map_eq_some_iff.mp h
    obtain ⟨rfl, rfl⟩ := Prod.mk.inj heq
    obtain ⟨events, hevents, htold⟩ := run_told hplugin hmemory hends
    refine ⟨s, events, rfl, ?_, htold⟩
    unfold ContextSensitive.analyzeWithin
    simp only
    rw [hevents]
    rfl

/-- The taint analysis on the sample program, where the call makes tainted data that is passed on to
    its receiver: the tainted object is told twice, at the result and at the receiver. -/
theorem taint_plugin_sees_each_change_once :
    let taint : TaintRules :=
      { sources := [(1, .object 1)], transfers := [(1, ⟨.result, .base, .object 1⟩)] }
    (∃ r m s events,
      Plain.analyzeWithin Plain.sample {} (Taint.plugin Plain.sample taint) {} 40 0 = some (r, m) ∧
      (m.edges.length = 1 ∧ (r.varPointsTo 0).size = 2) ∧
      (r = Plain.result s ∧
        Plain.analyzeWithin Plain.sample {} ((Taint.plugin Plain.sample taint).both .recorder)
          ({}, []) 40 0 = some (r, m, events) ∧
        ToldAll events.reverse s ∧
        r.calls.edges.toList = (callsIn events.reverse).map
          fun e => ⟨e.kind, e.site.item, e.callee.item⟩)) ∧
    (∃ r m s events,
      ContextSensitive.analyzeWithin Plain.sample {} (Taint.plugin Plain.sample taint) {} 40 0 =
        some (r, m) ∧
      (r = ContextSensitive.result s ∧
        ContextSensitive.analyzeWithin Plain.sample {}
          ((Taint.plugin Plain.sample taint).both .recorder) ({}, []) 40 0 = some (r, m, events) ∧
        ToldAll events.reverse s)) := by
  intro taint
  have hboth := plugins_see_each_change_once Plain.sample {} ({} : TaintMemory) Taint.EdgesBelow
    (fun e he => by cases he) 40 0
  have hplain : ((Plain.analyzeWithin Plain.sample {} (Taint.plugin Plain.sample taint) {} 40 0).map
      fun (r, m) => (m.edges.length, (r.varPointsTo 0).size)) = some (1, 2) := by
    decide +kernel
  have hcontext : (ContextSensitive.analyzeWithin Plain.sample {} (Taint.plugin Plain.sample taint)
      {} 40 0).isSome := by
    decide +kernel
  obtain ⟨⟨r, m⟩, hr, hsizes⟩ := Option.map_eq_some_iff.mp hplain
  obtain ⟨⟨r', m'⟩, hr'⟩ := Option.isSome_iff_exists.mp hcontext
  obtain ⟨s, events, htold⟩ := hboth.1 _ (Taint.plugin_hosted _ _) r m hr
  obtain ⟨s', events', htold'⟩ := hboth.2 _ (Taint.plugin_hosted _ _) r' m' hr'
  exact ⟨⟨r, m, s, events, hr, Prod.mk.inj hsizes, htold⟩, ⟨r', m', s', events', hr', htold'⟩⟩

end ObjectFlow
