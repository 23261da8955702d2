/-
  File:      ObjectFlow/Proofs/Dataflow/PendingStores.lean
  Subject:   THE STORES BEHIND A WORKLIST STAY IN STEP, and what every worklist keeps to.

  A worklist can be kept in three stores: one bit for each node, a queue open at both ends, and a
  priority queue for visits by rank. They answer every sequence of calls as the list of the pending
  nodes does, whatever the priority queue is like inside. That two nodes never share a rank is what
  decides which one it gives.

  * `PriorityQueue.Lawful`: what is asked of a priority queue;
  * `Stores`: the three stores and their calls;
  * `Mirrors`: the stores hold what the list holds;
  * `Mirrors.answer`, `Mirrors.run`: one call, and every sequence of calls;
  * `worklist_keeps_its_discipline`: no node twice, none lost, and the right one next.
-/
import Mathlib.Data.List.MinMax
import ObjectFlow.Proofs.Dataflow.PendingNodes

namespace ObjectFlow

/-! ## 1. Priority queues -/

/-- A queue of nodes with ranks; the lower the rank, the higher the priority. -/
structure PriorityQueue (ρ : Type) where
  empty : ρ
  push : ρ → Nat → Nat → ρ
  /-- Takes out a node, given with its rank. -/
  pop : ρ → Option ((Nat × Nat) × ρ)
  size : ρ → Nat

/-- **What a priority queue promises** of the nodes it holds: a push adds a node it does not hold,
    a pop removes one of greatest priority and finds one unless there is none. -/
structure PriorityQueue.Lawful {ρ : Type} (pq : PriorityQueue ρ) (held : ρ → List (Nat × Nat)) :
    Prop where
  empty : held pq.empty = []
  push : ∀ q n r, n ∉ (held q).map Prod.fst → (held (pq.push q n r)).Perm ((n, r) :: held q)
  pop_none : ∀ q, pq.pop q = none ↔ held q = []
  pop_some : ∀ {q e rest}, pq.pop q = some (e, rest) →
    (held q).Perm (e :: held rest) ∧ ∀ e' ∈ held q, e.2 ≤ e'.2
  size : ∀ q, pq.size q = (held q).length

/-- The nodes in a list, one of least rank taken first. -/
def PriorityQueue.ofList : PriorityQueue (List (Nat × Nat)) where
  empty := []
  push q n r := (n, r) :: q.filter (·.1 ≠ n)
  pop q := (q.argmin Prod.snd).map fun e => (e, q.erase e)
  size := List.length

theorem PriorityQueue.ofList_lawful : ofList.Lawful id where
  empty := rfl
  push q n r hn := by
    have hkept : q.filter (·.1 ≠ n) = q := List.filter_eq_self.mpr fun e he => by
      simpa using fun heq : e.1 = n => hn (heq ▸ List.mem_map_of_mem he)
    show ((n, r) :: q.filter (·.1 ≠ n)).Perm ((n, r) :: q)
    rw [hkept]
  pop_none q := Option.map_eq_none_iff.trans List.argmin_eq_none
  pop_some hpop := by
    obtain ⟨e, hleast, heq⟩ := Option.map_eq_some_iff.mp hpop
    cases heq
    exact ⟨List.perm_cons_erase (List.argmin_mem hleast),
      fun e' he' => List.le_of_mem_argmin he' hleast⟩
  size _ := rfl

/-! ## 2. The stores -/

namespace Worklist

/-- The pending nodes of a graph in three stores. -/
structure Stores (ρ : Type) where
  order : VisitOrder
  ranks : Array Nat
  /-- The bits of the pending nodes. -/
  queued : Array Bool
  /-- The pending nodes, unless visits go by rank. -/
  queue : List Nat
  /-- The pending nodes, if visits go by rank. -/
  ordered : ρ

namespace Stores

variable {ρ : Type}

def new {κ : Type} (pq : PriorityQueue ρ) (g : FlowGraph κ) (order : VisitOrder) (d : Direction) :
    Stores ρ :=
  { order := order
    ranks := if order = .reversePostOrder then g.ranks d else #[]
    queued := Array.replicate g.nodeCount false
    queue := []
    ordered := pq.empty }

/-- Puts a node into the store of its order. -/
def insert (pq : PriorityQueue ρ) (s : Stores ρ) (n : Nat) : Stores ρ :=
  match s.order with
  | .fifo | .lifo => { s with queue := s.queue ++ [n] }
  | .reversePostOrder => { s with ordered := pq.push s.ordered n (s.ranks.getD n 0) }

/-- Makes a node pending unless its bit is set. -/
def push (pq : PriorityQueue ρ) (s : Stores ρ) (n : Nat) : Bool × Stores ρ :=
  if s.queued.getD n false then (false, s)
  else (true, insert pq { s with queued := s.queued.setIfInBounds n true } n)

/-- Takes a node out of the store of its order. -/
def remove (pq : PriorityQueue ρ) (s : Stores ρ) : Option (Nat × Stores ρ) :=
  match s.order with
  | .fifo => s.queue.head?.map fun n => (n, { s with queue := s.queue.tail })
  | .lifo => s.queue.getLast?.map fun n => (n, { s with queue := s.queue.dropLast })
  | .reversePostOrder =>
    (pq.pop s.ordered).map fun (e, rest) => (e.1, { s with ordered := rest })

/-- Takes a node and clears its bit. -/
def pop (pq : PriorityQueue ρ) (s : Stores ρ) : Option (Nat × Stores ρ) :=
  (remove pq s).map fun (n, t) => (n, { t with queued := t.queued.setIfInBounds n false })

def size (pq : PriorityQueue ρ) (s : Stores ρ) : Nat := s.queue.length + pq.size s.ordered

def isEmpty (pq : PriorityQueue ρ) (s : Stores ρ) : Bool :=
  s.queue.isEmpty && pq.size s.ordered == 0

/-- The calls of the stores. -/
def caller (pq : PriorityQueue ρ) : Caller (Stores ρ) where
  push := push pq
  pop := pop pq

end Stores

/-! ## 3. The stores and the list -/

variable {ρ : Type} {pq : PriorityQueue ρ} {held : ρ → List (Nat × Nat)}

/-- The pending nodes are in the store of their order, and the other one is empty. -/
def Stored (held : ρ → List (Nat × Nat)) (w : Worklist) (s : Stores ρ) : Prop :=
  match w.order with
  | .fifo | .lifo => s.queue = w.pending ∧ held s.ordered = []
  | .reversePostOrder =>
    s.queue = [] ∧ (held s.ordered).Perm (w.pending.map fun n => (n, w.rank n))

/-- **The stores hold what the list holds**: the bits of exactly its nodes are set, and one store
    has them in their order. -/
structure Mirrors (held : ρ → List (Nat × Nat)) (count : Nat) (w : Worklist) (s : Stores ρ) :
    Prop where
  order_eq : s.order = w.order
  ranks_eq : s.ranks = w.ranks
  bits : s.queued.size = count
  queued : ∀ n, s.queued.getD n false = true ↔ n ∈ w.pending
  stored : Stored held w s

theorem mirrors_new {κ : Type} (hpq : pq.Lawful held) (g : FlowGraph κ) (order : VisitOrder)
    (d : Direction) : Mirrors held g.nodeCount (new g order d) (.new pq g order d) where
  order_eq := rfl
  ranks_eq := rfl
  bits := Array.size_replicate
  queued n := by
    by_cases hn : n < g.nodeCount <;>
      simp [Stores.new, new, Array.getD_eq_getD_getElem?, hn]
  stored := by
    cases order with
    | fifo => exact ⟨rfl, hpq.empty⟩
    | lifo => exact ⟨rfl, hpq.empty⟩
    | reversePostOrder => exact ⟨rfl, by rw [Stores.new, hpq.empty]; exact .nil⟩

/-- Both tell the number of the pending nodes. -/
theorem Mirrors.size_eq {count : Nat} {w : Worklist} {s : Stores ρ} (hpq : pq.Lawful held)
    (hs : Mirrors held count w s) : s.size pq = w.size ∧ s.isEmpty pq = w.isEmpty := by
  have hsize : s.size pq = w.size := by
    have hstored := hs.stored
    unfold Stored at hstored
    unfold Stores.size size
    rw [hpq.size]
    split at hstored
    · rw [hstored.1, hstored.2, List.length_nil, Nat.add_zero]
    · rw [hstored.1, hstored.2, List.length_nil, Nat.add_zero]
    · rw [hstored.1, hstored.2.length_eq, List.length_map, List.length_nil, Nat.zero_add]
  refine ⟨hsize, Bool.eq_iff_iff.mpr ?_⟩
  unfold Stores.isEmpty isEmpty
  unfold Stores.size size at hsize
  rw [Bool.and_eq_true, List.isEmpty_iff_length_eq_zero, beq_iff_eq, List.isEmpty_iff_length_eq_zero]
  omega

/-! ## 4. Runs -/

section Runs

variable {κ : Type} {g : FlowGraph κ} {order : VisitOrder} {d : Direction} {h : List Answer}
  {w : Worklist} {s : Stores ρ} {n : Nat}

/-- A node that is not pending is stored behind the others. -/
theorem Stored.insert (hpq : pq.Lawful held) (horder : s.order = w.order)
    (hranks : s.ranks = w.ranks) (hs : Stored held w s) (hn : n ∉ w.pending) :
    Stored held { w with pending := w.pending ++ [n] } (s.insert pq n) := by
  unfold Stored at hs ⊢
  unfold Stores.insert
  rw [horder]
  cases hcase : w.order with
  | fifo =>
    rw [hcase] at hs
    exact ⟨congrArg (· ++ [n]) hs.1, hs.2⟩
  | lifo =>
    rw [hcase] at hs
    exact ⟨congrArg (· ++ [n]) hs.1, hs.2⟩
  | reversePostOrder =>
    rw [hcase] at hs
    obtain ⟨hqueue, hheld⟩ := hs
    have hnew : n ∉ (held s.ordered).map Prod.fst := by
      rw [(hheld.map Prod.fst).mem_iff, List.map_map]
      simpa using hn
    refine ⟨hqueue, (hpq.push _ _ _ hnew).trans ?_⟩
    rw [hranks, List.map_append]
    exact (hheld.cons _).trans (List.perm_append_singleton _ _).symm

/-- An idle list has idle stores. -/
theorem Mirrors.remove_eq_none {count : Nat} (hpq : pq.Lawful held)
    (hs : Mirrors held count w s) (hpeek : w.peek? = none) : s.remove pq = none := by
  have hidle := pending_of_peek?_none hpeek
  have hstored := hs.stored
  unfold Stored at hstored
  unfold Stores.remove
  rw [hs.order_eq]
  cases hcase : w.order with
  | fifo =>
    rw [hcase, hidle] at hstored
    simp [hstored.1]
  | lifo =>
    rw [hcase, hidle] at hstored
    simp [hstored.1]
  | reversePostOrder =>
    rw [hcase, hidle] at hstored
    simp [(hpq.pop_none _).mpr (List.perm_nil.mp hstored.2)]

/-- **The stores give the node the list gives**: of nodes with ranks of their own a priority queue
    has no choice. -/
theorem Mirrors.remove_eq_some {count : Nat} (hpq : pq.Lawful held)
    (hw : Follows g order d h w) (hinside : order = .reversePostOrder → g.Inside d)
    (hs : Mirrors held count w s) (hpeek : w.peek? = some n) :
    ∃ t, s.remove pq = some (n, t) ∧ t.order = s.order ∧ t.ranks = s.ranks ∧
      t.queued = s.queued ∧ Stored held { w with pending := w.pending.erase n } t := by
  have hstored := hs.stored
  have hmem := mem_of_peek? hpeek
  unfold Stored at hstored ⊢
  unfold peek? at hpeek
  cases hcase : w.order with
  | fifo =>
    rw [hcase] at hpeek hstored
    have horder : s.order = .fifo := hs.order_eq.trans hcase
    obtain ⟨rest, hrest⟩ := List.head?_eq_some_iff.mp hpeek
    refine ⟨{ s with queue := s.queue.tail }, ?_, rfl, rfl, rfl, ?_, hstored.2⟩
    · simp [Stores.remove, horder, hstored.1, hrest]
    · simp [hstored.1, hrest]
  | lifo =>
    rw [hcase] at hpeek hstored
    have horder : s.order = .lifo := hs.order_eq.trans hcase
    obtain ⟨rest, hrest⟩ := List.getLast?_eq_some_iff.mp hpeek
    have hnot : n ∉ rest := by
      have hnodup := hw.tracks.1
      rw [hrest] at hnodup
      exact fun hn => (List.nodup_append.mp hnodup).2.2 n hn n (List.mem_singleton_self n) rfl
    refine ⟨{ s with queue := s.queue.dropLast }, ?_, rfl, rfl, rfl, ?_, hstored.2⟩
    · simp [Stores.remove, horder, hstored.1, hrest]
    · simp [hstored.1, hrest, List.erase_append_right _ hnot]
  | reversePostOrder =>
    rw [hcase] at hpeek hstored
    have horder : s.order = .reversePostOrder := hs.order_eq.trans hcase
    have hrpo : order = .reversePostOrder := hw.order_eq.symm.trans hcase
    obtain ⟨hqueue, hheld⟩ := hstored
    cases hpop : pq.pop s.ordered with
    | none =>
      rw [(hpq.pop_none _).mp hpop] at hheld
      rw [List.map_eq_nil_iff.mp (List.nil_perm.mp hheld)] at hmem
      cases hmem
    | some taken =>
      obtain ⟨e, rest⟩ := taken
      obtain ⟨hrest, hleast⟩ := hpq.pop_some hpop
      obtain ⟨m, hm, rfl⟩ :=
        List.mem_map.mp (hheld.mem_iff.mp (hrest.mem_iff.mpr List.mem_cons_self))
      -- both are of least rank, and no two nodes have the same
      have hrank : w.rank m = w.rank n :=
        Nat.le_antisymm (hleast _ (hheld.mem_iff.mpr (List.mem_map_of_mem hmem)))
          (leastBy_le hpeek m hm)
      have hmn : m = n := by
        unfold rank at hrank
        rw [hw.ranks_eq, hrpo] at hrank
        exact rank_injective (hinside hrpo) (hw.inside m hm) (hw.inside n hmem) hrank
      subst hmn
      refine ⟨{ s with ordered := rest }, ?_, rfl, rfl, rfl, hqueue, ?_⟩
      · simp [Stores.remove, horder, hpop]
      · have hperm := (List.perm_cons_erase hmem).map fun n => (n, w.rank n)
        exact (hrest.symm.trans (hheld.trans hperm)).cons_inv

/-- A node that is not pending sets its bit and enters the store of its order. -/
theorem Mirrors.accept {count : Nat} (hpq : pq.Lawful held) (hs : Mirrors held count w s)
    (hcount : n < count) (hn : n ∉ w.pending) :
    Mirrors held count { w with pending := w.pending ++ [n] }
      (Stores.insert pq { s with queued := s.queued.setIfInBounds n true } n) := by
  have hkept : ∀ t : Stores ρ, (t.insert pq n).order = t.order ∧
      (t.insert pq n).ranks = t.ranks ∧ (t.insert pq n).queued = t.queued := by
    intro t
    unfold Stores.insert
    split <;> exact ⟨rfl, rfl, rfl⟩
  obtain ⟨horder, hranks, hqueued⟩ := hkept { s with queued := s.queued.setIfInBounds n true }
  refine ⟨horder.trans hs.order_eq, hranks.trans hs.ranks_eq, ?_, fun m => ?_,
    Stored.insert hpq hs.order_eq hs.ranks_eq hs.stored hn⟩
  · rw [hqueued, Array.size_setIfInBounds, hs.bits]
  · rw [hqueued, DataflowProblem.getD_setIfInBounds (hs.bits ▸ hcount), List.mem_append,
      List.mem_singleton]
    by_cases hm : m = n
    · simp [hm]
    · rw [if_neg hm, hs.queued]
      simp [hm]

/-- **One call** gets the same answer of the stores as of the list, and they stay in step. -/
theorem Mirrors.answer (hpq : pq.Lawful held) (hw : Follows g order d h w)
    (hinside : order = .reversePostOrder → g.Inside d) (hs : Mirrors held g.nodeCount w s)
    {call : Call} (hcall : ∀ n, call = .push n → n < g.nodeCount) :
    ((Stores.caller pq).answer s call).1 = (caller.answer w call).1 ∧
      Mirrors held g.nodeCount (caller.answer w call).2 ((Stores.caller pq).answer s call).2 := by
  cases call with
  | push n =>
    by_cases hn : n ∈ w.pending
    · have hstores : (Stores.caller pq).answer s (.push n) = (.refused n, s) := by
        simp [Caller.answer, Stores.caller, Stores.push, (hs.queued n).mpr hn]
      rw [answer_of_pending hn, hstores]
      exact ⟨rfl, hs⟩
    · have hbit : ¬ s.queued.getD n false = true := fun hbit => hn ((hs.queued n).mp hbit)
      have hstores : (Stores.caller pq).answer s (.push n) =
          (.accepted n, Stores.insert pq { s with queued := s.queued.setIfInBounds n true } n) := by
        simp only [Caller.answer, Stores.caller, Stores.push, if_neg hbit, if_true]
      rw [answer_of_new hn, hstores]
      exact ⟨rfl, hs.accept hpq (hcall n rfl) hn⟩
  | pop =>
    cases hpeek : w.peek? with
    | none =>
      have hstores : (Stores.caller pq).answer s .pop = (.idle, s) := by
        simp [Caller.answer, Stores.caller, Stores.pop, hs.remove_eq_none hpq hpeek]
      rw [answer_of_peek?_none hpeek, hstores]
      exact ⟨rfl, hs⟩
    | some n =>
      obtain ⟨t, ht, horder, hranks, hqueued, hstored⟩ :=
        hs.remove_eq_some hpq hw hinside hpeek
      have hstores : (Stores.caller pq).answer s .pop =
          (.taken n, { t with queued := t.queued.setIfInBounds n false }) := by
        simp [Caller.answer, Stores.caller, Stores.pop, ht]
      rw [answer_of_peek? hpeek, hstores]
      refine ⟨rfl, horder.trans hs.order_eq, hranks.trans hs.ranks_eq, ?_, fun m => ?_, hstored⟩
      · rw [Array.size_setIfInBounds, hqueued, hs.bits]
      · have hn : n < s.queued.size := hs.bits ▸ hw.inside n (mem_of_peek? hpeek)
        rw [hqueued, DataflowProblem.getD_setIfInBounds hn, hw.tracks.1.mem_erase_iff]
        by_cases hm : m = n
        · simp [hm]
        · rw [if_neg hm, hs.queued]
          simp [hm]

/-- **Every sequence of calls** gets the same answers of the stores as of the list. -/
theorem Mirrors.run (hpq : pq.Lawful held) (hw : Follows g order d h w)
    (hinside : order = .reversePostOrder → g.Inside d) (hs : Mirrors held g.nodeCount w s)
    {calls : List Call} (hcalls : ∀ n, .push n ∈ calls → n < g.nodeCount) :
    ((Stores.caller pq).run s calls).1 = (caller.run w calls).1 ∧
      Mirrors held g.nodeCount (caller.run w calls).2 ((Stores.caller pq).run s calls).2 := by
  induction calls generalizing h w s with
  | nil => exact ⟨rfl, hs⟩
  | cons call calls ih =>
    have hcall : ∀ n, call = .push n → n < g.nodeCount :=
      fun n hn => hcalls n (List.mem_cons.mpr (.inl hn.symm))
    obtain ⟨hanswer, hnext⟩ := hs.answer hpq hw hinside hcall
    obtain ⟨hrest, hlast⟩ := ih (hw.answer hinside hcall) hnext
      fun n hn => hcalls n (List.mem_cons_of_mem call hn)
    exact ⟨congrArg₂ List.cons hanswer hrest, hlast⟩

/-! ## 5. The discipline -/

/-- As many nodes are pending as the worklist has, and never more than the graph has. -/
theorem Follows.size_eq (hw : Follows g order d h w) :
    {n | Pending h n}.ncard = w.size ∧ w.size ≤ g.nodeCount := by
  have hnodup := hw.tracks.1
  constructor
  · have hset : {n | Pending h n} = ↑w.pending.toFinset := by
      ext n
      simp [hw.pending_iff]
    rw [hset, Set.ncard_coe_finset, List.toFinset_card_of_nodup hnodup]
    rfl
  · have hsub : w.pending.Subperm (List.range g.nodeCount) :=
      hnodup.subperm fun n hn => List.mem_range.mpr (hw.inside n hn)
    simpa [size] using hsub.length_le

theorem Follows.isEmpty_iff (hw : Follows g order d h w) :
    w.isEmpty = true ↔ ∀ n, ¬ Pending h n := by
  simp only [hw.pending_iff]
  exact List.isEmpty_iff.trans List.eq_nil_iff_forall_not_mem

/-- **A worklist is a queue without duplicates that keeps to its order.** Over every sequence of
    calls that pushes nodes of the graph, each call is answered, and as the answers before it ask
    for: a push is refused if and only if the node is pending, and what is taken is the node
    accepted first, the one accepted last, or the one of lowest rank. Between two acceptances a
    node is taken exactly once. The sizes tell the pending nodes. The three stores do all of it
    too, with any lawful priority queue. -/
theorem worklist_keeps_its_discipline (hpq : pq.Lawful held) (g : FlowGraph κ)
    (order : VisitOrder) (d : Direction) (hinside : order = .reversePostOrder → g.Inside d)
    {calls : List Call} (hcalls : ∀ n, .push n ∈ calls → n < g.nodeCount) :
    let h : List Answer := (caller.run (new g order d) calls).1
    let w : Worklist := (caller.run (new g order d) calls).2
    let stores := (Stores.caller pq).run (.new pq g order d) calls
    List.Forall₂ Answers calls h ∧
    Legal order (g.rank d) h ∧
    (∀ n i j : Nat, i < j → h[i]? = some (.accepted n) → h[j]? = some (.accepted n) →
      (∀ k : Nat, i < k → k < j → h[k]? ≠ some (.accepted n)) →
      ∃! k : Nat, (i < k ∧ k < j) ∧ h[k]? = some (.taken n)) ∧
    ({n | Pending h n}.ncard = w.size ∧ w.size ≤ g.nodeCount) ∧
    (w.isEmpty = true ↔ ∀ n, ¬ Pending h n) ∧
    (stores.1 = h ∧ stores.2.size pq = w.size ∧ stores.2.isEmpty pq = w.isEmpty) := by
  have hstart := follows_new g order d
  have hw := hstart.run hinside hcalls
  obtain ⟨hsame, hmirrors⟩ :=
    Mirrors.run hpq hstart hinside (mirrors_new hpq g order d) hcalls
  exact ⟨caller.answers_run _ calls, hw.legal, fun n i j => hw.legal.taken_once, hw.size_eq,
    hw.isEmpty_iff, hsame, hmirrors.size_eq hpq⟩

/-- A way through four nodes. -/
def chain : FlowGraph Unit :=
  .ofEdges 4 [⟨0, 1, ()⟩, ⟨1, 2, ()⟩, ⟨2, 3, ()⟩] (· == 0) (· == 3)

theorem chain_inside : chain.Inside .forward := by
  unfold FlowGraph.Inside
  decide +kernel

/-- A node pushed twice is pending once, nodes are taken in the order of the way, and one that was
    taken is accepted again. -/
theorem worklist_keeps_its_discipline_chain :
    let calls : List Call := [.push 2, .push 1, .push 2, .push 3, .pop, .pop, .pop, .pop, .push 2]
    let stores := (Stores.caller .ofList).run (.new .ofList chain .reversePostOrder .forward) calls
    stores.1 = [.accepted 2, .accepted 1, .refused 2, .accepted 3, .taken 1, .taken 2, .taken 3, .idle,
        .accepted 2] ∧
      stores.2.size .ofList = 1 ∧ ∃! k : Nat, (0 < k ∧ k < 8) ∧ stores.1[k]? = some (.taken 2) := by
  intro calls stores
  have hrpo : VisitOrder.reversePostOrder = .reversePostOrder → chain.Inside .forward :=
    fun _ => chain_inside
  obtain ⟨-, -, honce, -, -, hsame, hsize, -⟩ :=
    worklist_keeps_its_discipline PriorityQueue.ofList_lawful chain .reversePostOrder .forward hrpo
      (show ∀ n, .push n ∈ calls → n < chain.nodeCount by
        intro n hn
        simp only [calls, List.mem_cons, Call.push.injEq, reduceCtorEq, false_or, List.not_mem_nil,
          or_false] at hn
        show n < 4
        omega)
  have hlist : (caller.run (new chain .reversePostOrder .forward) calls).1 =
      [.accepted 2, .accepted 1, .refused 2, .accepted 3, .taken 1, .taken 2, .taken 3, .idle,
        .accepted 2] := by decide +kernel
  refine ⟨hsame.trans hlist, hsize.trans (by decide +kernel), ?_⟩
  rw [hsame]
  refine honce 2 0 8 (by decide) (by rw [hlist]; rfl) (by rw [hlist]; rfl) fun k hk hk' => ?_
  have hbetween : ∀ k < 8, 0 < k → ([.accepted 2, .accepted 1, .refused 2, .accepted 3, .taken 1,
      .taken 2, .taken 3, .idle, .accepted 2] : List Answer)[k]? ≠ some (.accepted 2) := by decide
  rw [hlist]
  exact hbetween k hk' hk

end Runs

end Worklist

end ObjectFlow
