/-
  File:      ObjectFlow/Proofs/Dataflow/PendingNodes.lean
  Subject:   WHAT A WORKLIST HAS ANSWERED TELLS WHAT IT HOLDS, over any sequence of calls.

  Nothing here looks into a worklist but the step lemma. What is pending, and since when, is read
  off the answers given so far: a node is pending from the moment it is accepted until it is taken.

  * `Caller.run`: the answers to a sequence of calls;
  * `Waits`, `Pending`, `IsNext`: what a history says of the nodes and of the next one to take;
  * `Legal`: every answer of a history is the one its past asks for;
  * `Legal.taken_once`: between two acceptances of a node it is taken exactly once;
  * `Tracks`: the pending nodes of a worklist are those of its history, in the order of their
    moments;
  * `Follows.answer`, `Follows.run`: one call, and every sequence of calls.
-/
import Mathlib.Data.Set.Card
import ObjectFlow.Proofs.Dataflow.SinglePass

namespace ObjectFlow

namespace Worklist

/-! ## 1. Calls and answers -/

inductive Call where
  | push (n : Nat)
  | pop
  deriving DecidableEq

/-- The answer to one call. -/
inductive Answer where
  /-- A push that made the node pending. -/
  | accepted (n : Nat)
  /-- A push that found the node pending. -/
  | refused (n : Nat)
  /-- A pop that took the node. -/
  | taken (n : Nat)
  /-- A pop that found nothing pending. -/
  | idle
  deriving DecidableEq

/-- Answers to one call. -/
inductive Answers : Call → Answer → Prop
  | accepted (n : Nat) : Answers (.push n) (.accepted n)
  | refused (n : Nat) : Answers (.push n) (.refused n)
  | taken (n : Nat) : Answers .pop (.taken n)
  | idle : Answers .pop .idle

/-- Something that can be pushed to and popped from. -/
structure Caller (σ : Type) where
  /-- Whether the node is new, and the state after it. -/
  push : σ → Nat → Bool × σ
  pop : σ → Option (Nat × σ)

namespace Caller

variable {σ : Type}

/-- One call. -/
def answer (c : Caller σ) (s : σ) : Call → Answer × σ
  | .push n =>
    let (isNew, t) := c.push s n
    (if isNew then .accepted n else .refused n, t)
  | .pop =>
    match c.pop s with
    | some (n, t) => (.taken n, t)
    | none => (.idle, s)

/-- The answers to a sequence of calls, the first one first, and the state they leave. -/
def run (c : Caller σ) : σ → List Call → List Answer × σ
  | s, [] => ([], s)
  | s, call :: calls =>
    let (a, t) := c.answer s call
    let (rest, u) := c.run t calls
    (a :: rest, u)

theorem answers_answer (c : Caller σ) (s : σ) (call : Call) : Answers call (c.answer s call).1 := by
  cases call with
  | push n =>
    show Answers (.push n) (if (c.push s n).1 = true then _ else _)
    split
    · exact .accepted n
    · exact .refused n
  | pop =>
    unfold answer
    cases hpop : c.pop s with
    | none => simpa [hpop] using Answers.idle
    | some taken => simpa [hpop] using Answers.taken taken.1

theorem answers_run (c : Caller σ) (s : σ) (calls : List Call) :
    List.Forall₂ Answers calls (c.run s calls).1 := by
  induction calls generalizing s with
  | nil => exact .nil
  | cons call calls ih => exact .cons (c.answers_answer s call) (ih _)

end Caller

/-- The calls of a worklist. -/
def caller : Caller Worklist where
  push w n := (w.accepts n, w.push n)
  pop := pop?

section Calls

variable {w : Worklist} {n : Nat}

theorem answer_of_pending (hn : n ∈ w.pending) : caller.answer w (.push n) = (.refused n, w) := by
  simp [Caller.answer, caller, push, accepts, hn]

theorem answer_of_new (hn : n ∉ w.pending) : caller.answer w (.push n) =
    (.accepted n, { w with pending := w.pending ++ [n] }) := by
  simp [Caller.answer, caller, push, accepts, hn]

theorem answer_of_peek?_none (h : w.peek? = none) : caller.answer w .pop = (.idle, w) := by
  simp [Caller.answer, caller, pop?, h]

theorem answer_of_peek? (h : w.peek? = some n) : caller.answer w .pop =
    (.taken n, { w with pending := w.pending.erase n }) := by
  simp [Caller.answer, caller, pop?, h]

theorem pending_of_peek?_none (h : w.peek? = none) : w.pending = [] :=
  pending_of_pop?_none (by rw [pop?, h, Option.map_none])

end Calls

/-! ## 2. What a history says -/

/-- The node was accepted at that moment and has not been taken since. -/
def Waits (h : List Answer) (n i : Nat) : Prop :=
  h[i]? = some (.accepted n) ∧ ∀ j, i < j → h[j]? ≠ some (.taken n)

def Pending (h : List Answer) (n : Nat) : Prop := ∃ i, Waits h n i

/-- The node is the one its order takes next: the one accepted longest ago, the one accepted last,
    or the one of least rank. -/
def IsNext (order : VisitOrder) (rank : Nat → Nat) (h : List Answer) (n : Nat) : Prop :=
  match order with
  | .fifo => ∃ i, Waits h n i ∧ ∀ m j, Waits h m j → i ≤ j
  | .lifo => ∃ i, Waits h n i ∧ ∀ m j, Waits h m j → j ≤ i
  | .reversePostOrder => Pending h n ∧ ∀ m, Pending h m → m ≠ n → rank n < rank m

/-- The answer is the one its past asks for. -/
def Justified (order : VisitOrder) (rank : Nat → Nat) (h : List Answer) : Answer → Prop
  | .accepted n => ¬ Pending h n
  | .refused n => Pending h n
  | .taken n => IsNext order rank h n
  | .idle => ∀ n, ¬ Pending h n

/-- Every answer is the one its past asks for. -/
def Legal (order : VisitOrder) (rank : Nat → Nat) (h : List Answer) : Prop :=
  ∀ past a future, h = past ++ a :: future → Justified order rank past a

variable {order : VisitOrder} {rank : Nat → Nat} {h past : List Answer} {a : Answer} {n m i j : Nat}

theorem pending_of_isNext (hnext : IsNext order rank h n) : Pending h n := by
  cases order with
  | fifo => exact hnext.imp fun _ h => h.1
  | lifo => exact hnext.imp fun _ h => h.1
  | reversePostOrder => exact hnext.1

theorem Waits.lt_length (hw : Waits h n i) : i < h.length := (List.getElem?_eq_some_iff.mp hw.1).1

/-- **One more answer** ends the wait of the node it takes and starts that of the node it
    accepts. -/
theorem waits_append : Waits (h ++ [a]) m i ↔
    (Waits h m i ∧ a ≠ .taken m) ∨ (a = .accepted m ∧ i = h.length) := by
  constructor
  · rintro ⟨haccepted, hsince⟩
    rcases Nat.lt_trichotomy i h.length with hi | hi | hi
    · left
      rw [List.getElem?_append_left hi] at haccepted
      refine ⟨⟨haccepted, fun j hj htaken => hsince j hj ?_⟩, fun ha => hsince h.length hi ?_⟩
      · rw [List.getElem?_append_left (List.getElem?_eq_some_iff.mp htaken).1]
        exact htaken
      · rw [List.getElem?_concat_length, ha]
    · right
      rw [hi, List.getElem?_concat_length] at haccepted
      exact ⟨Option.some.inj haccepted, hi⟩
    · rw [List.getElem?_eq_none (by simp; omega)] at haccepted
      cases haccepted
  · rintro (⟨hw, ha⟩ | ⟨rfl, rfl⟩)
    · refine ⟨by rw [List.getElem?_append_left hw.lt_length, hw.1], fun j hj htaken => ?_⟩
      rcases Nat.lt_trichotomy j h.length with hlt | rfl | hlt
      · rw [List.getElem?_append_left hlt] at htaken
        exact hw.2 j hj htaken
      · rw [List.getElem?_concat_length] at htaken
        exact ha (Option.some.inj htaken)
      · rw [List.getElem?_eq_none (by simp; omega)] at htaken
        cases htaken
    · refine ⟨List.getElem?_concat_length, fun j hj htaken => ?_⟩
      rw [List.getElem?_eq_none (by simp; omega)] at htaken
      cases htaken

theorem legal_nil : Legal order rank [] :=
  fun past a future heq => absurd heq.symm (List.append_ne_nil_of_right_ne_nil past
    (List.cons_ne_nil a future))

theorem Legal.append (hlegal : Legal order rank h) (ha : Justified order rank h a) :
    Legal order rank (h ++ [a]) := by
  intro past b future heq
  rcases List.eq_nil_or_concat future with rfl | ⟨future, c, rfl⟩
  · obtain ⟨rfl, hb⟩ := List.append_inj' heq rfl
    cases hb
    exact ha
  · rw [List.concat_eq_append, ← List.cons_append, ← List.append_assoc] at heq
    exact hlegal past b future (List.append_inj' heq rfl).1

/-! ## 3. Acceptances and removals alternate -/

/-- An answer and its past. -/
theorem Legal.at (hlegal : Legal order rank h) (hi : h[i]? = some a) :
    Justified order rank (h.take i) a := by
  obtain ⟨hlt, rfl⟩ := List.getElem?_eq_some_iff.mp hi
  refine hlegal (h.take i) h[i] (h.drop (i + 1)) ?_
  rw [← List.drop_eq_getElem_cons hlt, List.take_append_drop]

/-- Before a moment only what was answered before it counts. -/
theorem getElem?_take_eq_some {b : Answer} :
    (h.take j)[i]? = some b ↔ i < j ∧ h[i]? = some b := by
  rw [List.getElem?_take]
  by_cases hij : i < j <;> simp [hij]

/-- **Between two acceptances in a row a node is taken exactly once.** -/
theorem Legal.taken_once (hlegal : Legal order rank h) (hij : i < j)
    (hi : h[i]? = some (.accepted n)) (hj : h[j]? = some (.accepted n))
    (hbetween : ∀ k, i < k → k < j → h[k]? ≠ some (.accepted n)) :
    ∃! k, (i < k ∧ k < j) ∧ h[k]? = some (.taken n) := by
  have hfree : ¬ Pending (h.take j) n := hlegal.at hj
  have htaken : ∃ k, i < k ∧ (h.take j)[k]? = some (.taken n) := by
    by_contra hnone
    push Not at hnone
    exact hfree ⟨i, getElem?_take_eq_some.mpr ⟨hij, hi⟩, hnone⟩
  obtain ⟨k, hik, hk⟩ := htaken
  obtain ⟨hkj, hk⟩ := getElem?_take_eq_some.mp hk
  -- of two removals the later one needs an acceptance behind the earlier one
  have hapart : ∀ {k l}, i < k → h[k]? = some (.taken n) → l < j → h[l]? = some (.taken n) →
      ¬ k < l := by
    intro k l hik hk hlj hl hkl
    obtain ⟨r, hr, hsince⟩ := pending_of_isNext (hlegal.at hl)
    obtain ⟨hrl, hr⟩ := getElem?_take_eq_some.mp hr
    have hkr : ¬ r < k := fun hrk => hsince k hrk (getElem?_take_eq_some.mpr ⟨hkl, hk⟩)
    have hne : r ≠ k := by
      rintro rfl
      rw [hk] at hr
      cases hr
    exact hbetween r (by omega) (by omega) hr
  refine ⟨k, ⟨⟨hik, hkj⟩, hk⟩, ?_⟩
  rintro l ⟨⟨hil, hlj⟩, hl⟩
  have hkl := hapart hik hk hlj hl
  have hlk := hapart hil hl hkj hk
  omega

/-! ## 4. What a worklist holds -/

/-- The nodes are the pending ones of the history, each once and in the order of the moments they
    were accepted at. -/
def Tracks (h : List Answer) (pending : List Nat) : Prop :=
  pending.Nodup ∧ ∃ moments : List (Nat × Nat), moments.map Prod.fst = pending ∧
    moments.Pairwise (fun e e' => e.2 < e'.2) ∧ ∀ n i, (n, i) ∈ moments ↔ Waits h n i

namespace Tracks

variable {pending : List Nat}

theorem nil : Tracks [] [] :=
  ⟨.nil, [], rfl, .nil, fun _ _ =>
    ⟨fun hmem => absurd hmem List.not_mem_nil, fun hw => absurd hw.lt_length (Nat.not_lt_zero _)⟩⟩

theorem pending_iff (ht : Tracks h pending) : Pending h n ↔ n ∈ pending := by
  obtain ⟨-, moments, rfl, -, hmem⟩ := ht
  simp only [Pending, ← hmem, List.mem_map, Prod.exists, exists_and_right, exists_eq_right]

/-- Answers that neither accept nor take leave everything pending. -/
theorem stay (ht : Tracks h pending) (haccepted : ∀ m, a ≠ .accepted m)
    (htaken : ∀ m, a ≠ .taken m) : Tracks (h ++ [a]) pending := by
  obtain ⟨hnodup, moments, hfst, hsorted, hmem⟩ := ht
  refine ⟨hnodup, moments, hfst, hsorted, fun m i => ?_⟩
  simp [waits_append, hmem, haccepted, htaken]

/-- An accepted node is pending from now on. -/
theorem accept (ht : Tracks h pending) (hn : n ∉ pending) :
    Tracks (h ++ [.accepted n]) (pending ++ [n]) := by
  obtain ⟨hnodup, moments, rfl, hsorted, hmem⟩ := ht
  refine ⟨hnodup.append (List.nodup_singleton n) (by simpa using hn),
    moments ++ [(n, h.length)], by simp, ?_, fun m i => ?_⟩
  · refine List.pairwise_append.mpr ⟨hsorted, List.pairwise_singleton _ _, fun e he e' he' => ?_⟩
    rw [List.mem_singleton.mp he']
    exact ((hmem e.1 e.2).mp he).lt_length
  · simp [waits_append, hmem, eq_comm]

/-- A taken node is pending no more. -/
theorem take (ht : Tracks h pending) : Tracks (h ++ [.taken n]) (pending.erase n) := by
  obtain ⟨hnodup, moments, rfl, hsorted, hmem⟩ := ht
  refine ⟨hnodup.erase n, moments.filter fun e => e.1 != n, ?_, hsorted.filter _, fun m i => ?_⟩
  · rw [hnodup.erase_eq_filter, List.filter_map]
    rfl
  · rw [List.mem_filter, hmem, waits_append]
    simp [eq_comm (a := n)]

/-- The first of the nodes has waited longest. -/
theorem head (ht : Tracks h pending) (hhead : pending.head? = some n) :
    ∃ i, Waits h n i ∧ ∀ m j, Waits h m j → i ≤ j := by
  obtain ⟨-, moments, rfl, hsorted, hmem⟩ := ht
  cases moments with
  | nil => cases hhead
  | cons e rest =>
    cases hhead
    refine ⟨e.2, (hmem e.1 e.2).mp List.mem_cons_self, fun m j hw => ?_⟩
    rcases List.mem_cons.mp ((hmem m j).mpr hw) with rfl | hrest
    · exact Nat.le_refl _
    · exact ((List.pairwise_cons.mp hsorted).1 _ hrest).le

/-- The last of the nodes has waited least. -/
theorem last (ht : Tracks h pending) (hlast : pending.getLast? = some n) :
    ∃ i, Waits h n i ∧ ∀ m j, Waits h m j → j ≤ i := by
  obtain ⟨-, moments, rfl, hsorted, hmem⟩ := ht
  rcases List.eq_nil_or_concat moments with rfl | ⟨rest, e, rfl⟩
  · cases hlast
  · rw [List.concat_eq_append] at hlast hsorted hmem
    have he : e.1 = n := by simpa using hlast
    subst he
    refine ⟨e.2, (hmem e.1 e.2).mp (by simp), fun m j hw => ?_⟩
    rcases List.mem_append.mp ((hmem m j).mpr hw) with hrest | hlast
    · exact ((List.pairwise_append.mp hsorted).2.2 _ hrest _ (List.mem_singleton_self e)).le
    · cases List.mem_singleton.mp hlast
      exact Nat.le_refl _

end Tracks

/-! ## 5. Runs -/

/-- The worklist of a graph after the answers of a history. -/
structure Follows {κ : Type} (g : FlowGraph κ) (order : VisitOrder) (d : Direction)
    (h : List Answer) (w : Worklist) : Prop where
  order_eq : w.order = order
  ranks_eq : w.ranks = (new g order d).ranks
  inside : ∀ n ∈ w.pending, n < g.nodeCount
  tracks : Tracks h w.pending
  legal : Legal order (g.rank d) h

variable {κ : Type} {g : FlowGraph κ} {d : Direction} {w : Worklist}

theorem follows_new (g : FlowGraph κ) (order : VisitOrder) (d : Direction) :
    Follows g order d [] (new g order d) :=
  ⟨rfl, rfl, fun _ hn => absurd hn List.not_mem_nil, .nil, legal_nil⟩

/-- Ranks tell nodes apart. -/
theorem rank_injective (hinside : g.Inside d) (hn : n < g.nodeCount) (hm : m < g.nodeCount)
    (heq : g.rank d n = g.rank d m) : n = m := by
  obtain ⟨-, hmem, -⟩ := FlowGraph.postOrderReversed_spec hinside
  rw [FlowGraph.rank_eq hn, FlowGraph.rank_eq hm] at heq
  exact (List.idxOf_inj ((hmem n).mpr hn)).mp heq

namespace Follows

theorem pending_iff (hw : Follows g order d h w) : Pending h n ↔ n ∈ w.pending :=
  hw.tracks.pending_iff

/-- **What is taken is the next one** of its order. -/
theorem isNext_of_peek? (hw : Follows g order d h w)
    (hinside : order = .reversePostOrder → g.Inside d) (hpeek : w.peek? = some n) :
    IsNext order (g.rank d) h n := by
  have hmem := mem_of_peek? hpeek
  unfold peek? at hpeek
  rw [hw.order_eq] at hpeek
  cases order with
  | fifo => exact hw.tracks.head hpeek
  | lifo => exact hw.tracks.last hpeek
  | reversePostOrder =>
    refine ⟨hw.pending_iff.mpr hmem, fun m hm hne => ?_⟩
    have hm := hw.pending_iff.mp hm
    have hrank : ∀ k, w.rank k = g.rank d k := fun k => by
      rw [rank, hw.ranks_eq]
      rfl
    have hle := leastBy_le hpeek m hm
    rw [hrank, hrank] at hle
    refine lt_of_le_of_ne hle fun heq => hne ?_
    exact (rank_injective (hinside rfl) (hw.inside n hmem) (hw.inside m hm) heq).symm

/-- **One call** of a worklist, pushing only nodes of its graph, is answered as its past asks
    for. -/
theorem answer (hw : Follows g order d h w) (hinside : order = .reversePostOrder → g.Inside d)
    {call : Call} (hcall : ∀ n, call = .push n → n < g.nodeCount) :
    Follows g order d (h ++ [(caller.answer w call).1]) (caller.answer w call).2 := by
  cases call with
  | push n =>
    by_cases hn : n ∈ w.pending
    · rw [answer_of_pending hn]
      exact ⟨hw.order_eq, hw.ranks_eq, hw.inside, hw.tracks.stay (by simp) (by simp),
        hw.legal.append (hw.pending_iff.mpr hn)⟩
    · rw [answer_of_new hn]
      refine ⟨hw.order_eq, hw.ranks_eq, fun m hm => ?_, hw.tracks.accept hn,
        hw.legal.append fun hpending => hn (hw.pending_iff.mp hpending)⟩
      rcases List.mem_append.mp hm with hm | hm
      · exact hw.inside m hm
      · rw [List.mem_singleton.mp hm]
        exact hcall n rfl
  | pop =>
    cases hpeek : w.peek? with
    | none =>
      rw [answer_of_peek?_none hpeek]
      refine ⟨hw.order_eq, hw.ranks_eq, hw.inside, hw.tracks.stay (by simp) (by simp),
        hw.legal.append fun n hn => ?_⟩
      have hmem := hw.pending_iff.mp hn
      rw [pending_of_peek?_none hpeek] at hmem
      cases hmem
    | some n =>
      rw [answer_of_peek? hpeek]
      exact ⟨hw.order_eq, hw.ranks_eq, fun m hm => hw.inside m (List.mem_of_mem_erase hm),
        hw.tracks.take, hw.legal.append (hw.isNext_of_peek? hinside hpeek)⟩

/-- **Every sequence of calls** that pushes only nodes of the graph is answered as its past asks
    for. -/
theorem run (hw : Follows g order d h w) (hinside : order = .reversePostOrder → g.Inside d)
    {calls : List Call} (hcalls : ∀ n, .push n ∈ calls → n < g.nodeCount) :
    Follows g order d (h ++ (caller.run w calls).1) (caller.run w calls).2 := by
  induction calls generalizing h w with
  | nil =>
    show Follows g order d (h ++ []) w
    rwa [List.append_nil]
  | cons call calls ih =>
    have hstep := hw.answer hinside fun n hn => hcalls n (List.mem_cons.mpr (.inl hn.symm))
    have hrest := ih hstep fun n hn => hcalls n (List.mem_cons_of_mem call hn)
    rw [List.append_assoc] at hrest
    exact hrest

end Follows

end Worklist

end ObjectFlow
