/-
  File:      ObjectFlow/Proofs/Graph/PostOrder.lean
  Subject:   REVERSE POST-ORDER: every node has a rank of its own, an edge whose rank does not
             ascend lies on a cycle, and nodes that no start node reaches have the lowest ranks.

  * `Ordered`: what a node leads to was finished before it or leads back to it;
  * `Underway`: what holds of a search at any moment; `Explores`: what a search adds;
  * `depthFirst_explores`, `foldl_explores`: a search from one node and from one after the other;
  * `postOrderReversed_spec`: the list of all nodes that the whole search leaves;
  * `rank_lt_or_reach`: only an edge on a cycle can fail to ascend;
  * `unreachable_ranked_first`: what cannot be reached is ranked first, not last
    (`sidelined_ranked_first`).
-/
import ObjectFlow.Proofs.Graph.Search

namespace ObjectFlow

/-! ## 1. Searches -/

/-- **Finished nodes, the last first**: what a node leads to was finished before it or leads back
    to it. -/
def Ordered (next : Nat → List Nat) (l : List Nat) : Prop :=
  ∀ l₁ a l₂, l = l₁ ++ a :: l₂ → ∀ b ∈ next a, b ∈ l₂ ∨ Reach next b a

/-- **A search at any moment**, among the nodes below `count`. -/
structure Underway (next : Nat → List Nat) (count : Nat) (s : SearchState) : Prop where
  inside : ∀ a ∈ s.entered, a < count
  once : s.entered.Nodup
  finished : ∀ a ∈ s.finished, a ∈ s.entered
  listed : s.finished.Nodup
  ordered : Ordered next s.finished
  followed : ∀ a ∈ s.finished, ∀ b ∈ next a, b ∈ s.entered

/-- **What a search from some roots adds**: it enters and finishes the nodes `found`. -/
structure Explores (next : Nat → List Nat) (roots : List Nat) (s t : SearchState)
    (found : List Nat) : Prop where
  finished : t.finished = found ++ s.finished
  entered : ∀ a, a ∈ t.entered ↔ a ∈ found ∨ a ∈ s.entered
  fresh : ∀ a ∈ found, ¬ a ∈ s.entered
  tried : ∀ a ∈ roots, a ∈ t.entered
  reached : ∀ a ∈ found, ∃ r ∈ roots, Reach next r a

section DepthFirst

variable {next : Nat → List Nat} {count : Nat} {s t u : SearchState}

theorem Ordered.cons {a : Nat} {l : List Nat} (h : Ordered next l)
    (ha : ∀ b ∈ next a, b ∈ l ∨ Reach next b a) : Ordered next (a :: l) := by
  intro l₁ c l₂ heq b hb
  rcases List.cons_eq_append_iff.mp heq with ⟨-, hl⟩ | ⟨l₁', -, hl⟩
  · obtain ⟨rfl, rfl⟩ := List.cons.inj hl
    exact ha b hb
  · exact h l₁' c l₂ hl b hb

theorem Underway.length_le (h : Underway next count s) : s.entered.length ≤ count := by
  have hsub := h.once.subperm fun a ha => List.mem_range.mpr (h.inside a ha)
  have hlength := hsub.length_le
  rw [List.length_range] at hlength
  exact hlength

/-- Entering one more node. -/
theorem Underway.enter (h : Underway next count s) {n : Nat} (hn : n < count)
    (hnew : ¬ n ∈ s.entered) : Underway next count { s with entered := n :: s.entered } where
  inside a ha := (List.mem_cons.mp ha).elim (fun e => e ▸ hn) (h.inside a)
  once := List.nodup_cons.mpr ⟨hnew, h.once⟩
  finished a ha := List.mem_cons_of_mem n (h.finished a ha)
  listed := h.listed
  ordered := h.ordered
  followed a ha b hb := List.mem_cons_of_mem n (h.followed a ha b hb)

/-- Nothing is found where all roots were entered before. -/
theorem Explores.refl {roots : List Nat} (h : ∀ a ∈ roots, a ∈ s.entered) :
    Explores next roots s s [] :=
  ⟨rfl, fun a => by simp, fun _ ha => absurd ha List.not_mem_nil, h,
    fun _ ha => absurd ha List.not_mem_nil⟩

theorem Explores.trans {roots roots' found found' : List Nat}
    (h : Explores next roots s t found) (h' : Explores next roots' t u found') :
    Explores next (roots ++ roots') s u (found' ++ found) where
  finished := by rw [h'.finished, h.finished, List.append_assoc]
  entered a := by rw [h'.entered, h.entered, List.mem_append, or_assoc]
  fresh a ha hold := by
    rcases List.mem_append.mp ha with ha | ha
    · exact h'.fresh a ha ((h.entered a).mpr (.inr hold))
    · exact h.fresh a ha hold
  tried a ha := by
    rcases List.mem_append.mp ha with ha | ha
    · exact (h'.entered a).mpr (.inr (h.tried a ha))
    · exact h'.tried a ha
  reached a ha := by
    rcases List.mem_append.mp ha with ha | ha
    · obtain ⟨r, hr, hreach⟩ := h'.reached a ha
      exact ⟨r, List.mem_append_right _ hr, hreach⟩
    · obtain ⟨r, hr, hreach⟩ := h.reached a ha
      exact ⟨r, List.mem_append_left _ hr, hreach⟩

theorem Explores.length_le {roots found : List Nat} (h : Explores next roots s t found)
    (hs : Underway next count s) : s.entered.length ≤ t.entered.length :=
  (hs.once.subperm fun a ha => (h.entered a).mpr (.inr ha)).length_le

/-- **Searching from one node after the other**, if each search does what a search does. Whatever
    is entered and not finished leads to all of these nodes. -/
theorem foldl_explores_of {search : SearchState → Nat → SearchState} {slack : Nat}
    (hsearch : ∀ {s n}, Underway next count s → n < count → count < slack + s.entered.length →
      (∀ a ∈ s.entered, a ∈ s.finished ∨ Reach next a n) →
      Underway next count (search s n) ∧ ∃ found, Explores next [n] s (search s n) found)
    (roots : List Nat) (hroots : ∀ n ∈ roots, n < count) (hs : Underway next count s)
    (hslack : count < slack + s.entered.length)
    (hopen : ∀ a ∈ s.entered, a ∈ s.finished ∨ ∀ n ∈ roots, Reach next a n) :
    Underway next count (roots.foldl search s) ∧
      ∃ found, Explores next roots s (roots.foldl search s) found := by
  induction roots generalizing s with
  | nil => exact ⟨hs, [], .refl fun a ha => by cases ha⟩
  | cons n roots ih =>
    obtain ⟨ht, found, hfound⟩ := hsearch hs (hroots n List.mem_cons_self) hslack
      fun a ha => (hopen a ha).imp_right fun h => h n List.mem_cons_self
    have hlength := hfound.length_le hs
    have hopen' : ∀ a ∈ (search s n).entered,
        a ∈ (search s n).finished ∨ ∀ m ∈ roots, Reach next a m := by
      intro a ha
      rw [hfound.finished, List.mem_append]
      rcases (hfound.entered a).mp ha with hnew | hold
      · exact .inl (.inl hnew)
      · rcases hopen a hold with hdone | hleads
        · exact .inl (.inr hdone)
        · exact .inr fun m hm => hleads m (List.mem_cons_of_mem n hm)
    obtain ⟨hu, found', hfound'⟩ := ih (fun m hm => hroots m (List.mem_cons_of_mem n hm)) ht
      (by omega) hopen'
    exact ⟨hu, found' ++ found, hfound.trans hfound'⟩

/-- **A node is finished** when all it leads to was searched. -/
theorem Explores.finish {n : Nat} {found : List Nat} (hs : Underway next count s)
    (hnew : ¬ n ∈ s.entered) (hopen : ∀ a ∈ s.entered, a ∈ s.finished ∨ Reach next a n)
    (ht : Underway next count t)
    (h : Explores next (next n).reverse { s with entered := n :: s.entered } t found) :
    Underway next count { t with finished := n :: t.finished } ∧
      Explores next [n] s { t with finished := n :: t.finished } (n :: found) := by
  have hentered : n ∈ t.entered := (h.entered n).mpr (.inr List.mem_cons_self)
  have hnext : ∀ b ∈ next n, b ∈ t.entered := fun b hb => h.tried b (List.mem_reverse.mpr hb)
  refine ⟨⟨ht.inside, ht.once, fun a ha => ?_, ?_, ?_, fun a ha b hb => ?_⟩,
    ⟨?_, fun a => ?_, fun a ha => ?_, fun a ha => ?_, fun a ha => ?_⟩⟩
  · exact (List.mem_cons.mp ha).elim (fun e => e ▸ hentered) (ht.finished a)
  · refine List.nodup_cons.mpr ⟨fun hdone => ?_, ht.listed⟩
    rw [h.finished] at hdone
    rcases List.mem_append.mp hdone with hfound | hold
    · exact h.fresh n hfound List.mem_cons_self
    · exact hnew (hs.finished n hold)
  · -- what is entered and not finished lies on the way to `n`, so it leads to `n`
    refine ht.ordered.cons fun b hb => ?_
    rw [h.finished, List.mem_append]
    rcases (h.entered b).mp (hnext b hb) with hfound | hold
    · exact .inl (.inl hfound)
    · rcases List.mem_cons.mp hold with rfl | hold
      · exact .inr .refl
      · exact (hopen b hold).imp_left .inr
  · rcases List.mem_cons.mp ha with rfl | ha
    · exact hnext b hb
    · exact ht.followed a ha b hb
  · rw [h.finished, List.cons_append]
  · rw [h.entered, List.mem_cons, List.mem_cons, or_left_comm, or_assoc]
  · rcases List.mem_cons.mp ha with rfl | ha
    · exact hnew
    · exact fun hold => h.fresh a ha (List.mem_cons_of_mem n hold)
  · rw [List.mem_singleton.mp ha]
    exact hentered
  · refine ⟨n, List.mem_singleton_self n, ?_⟩
    rcases List.mem_cons.mp ha with rfl | ha
    · exact .refl
    · obtain ⟨r, hr, hreach⟩ := h.reached a ha
      exact .head (List.mem_reverse.mp hr) hreach

/-- **A search from one node**, deep enough for all nodes that are not entered yet. -/
theorem depthFirst_explores (hinside : ∀ a < count, ∀ b ∈ next a, b < count) (depth : Nat)
    {n : Nat} (hs : Underway next count s) (hn : n < count)
    (hdepth : count < depth + s.entered.length)
    (hopen : ∀ a ∈ s.entered, a ∈ s.finished ∨ Reach next a n) :
    Underway next count (depthFirst next depth s n) ∧
      ∃ found, Explores next [n] s (depthFirst next depth s n) found := by
  induction depth generalizing s n with
  | zero =>
    have hlength := hs.length_le
    omega
  | succ depth ih =>
    unfold depthFirst
    split
    · rename_i hold
      exact ⟨hs, [], .refl fun a ha => List.mem_singleton.mp ha ▸ hold⟩
    · rename_i hnew
      have hopen' : ∀ a ∈ n :: s.entered,
          a ∈ s.finished ∨ ∀ b ∈ (next n).reverse, Reach next a b := by
        intro a ha
        rcases List.mem_cons.mp ha with rfl | ha
        · exact .inr fun b hb => .single (List.mem_reverse.mp hb)
        · exact (hopen a ha).imp_right fun h b hb => h.tail (List.mem_reverse.mp hb)
      obtain ⟨ht, found, hfound⟩ := foldl_explores_of
        (fun hs hn hdepth hopen => ih hs hn hdepth hopen) (next n).reverse
        (fun b hb => hinside n hn b (List.mem_reverse.mp hb)) (hs.enter hn hnew)
        (by rw [List.length_cons]; omega) hopen'
      obtain ⟨hu, hall⟩ := hfound.finish hs hnew hopen ht
      exact ⟨hu, _, hall⟩

/-- **Searching from one root after the other**, with nothing left open in between. -/
theorem foldl_explores (hinside : ∀ a < count, ∀ b ∈ next a, b < count) (roots : List Nat)
    (hroots : ∀ n ∈ roots, n < count) (hs : Underway next count s)
    (hopen : ∀ a ∈ s.entered, a ∈ s.finished) :
    Underway next count (roots.foldl (depthFirst next (count + 1)) s) ∧
      ∃ found, Explores next roots s (roots.foldl (depthFirst next (count + 1)) s) found :=
  foldl_explores_of
    (fun hs hn hdepth hopen => depthFirst_explores hinside (count + 1) hs hn hdepth hopen) roots
    hroots hs (by omega) fun a ha => .inl (hopen a ha)

end DepthFirst

/-! ## 2. The order of all nodes -/

namespace FlowGraph

variable {κ : Type}

/-- Along a direction, edges lead to nodes of the graph. -/
def Inside (g : FlowGraph κ) (d : Direction) : Prop :=
  ∀ n < g.nodeCount, ∀ m ∈ g.next d n, m < g.nodeCount

/-- A start node leads to the node. -/
def Started (g : FlowGraph κ) (d : Direction) (n : Nat) : Prop :=
  ∃ r < g.nodeCount, g.isStart d r = true ∧ Reach (g.next d) r n

/-- The reverse post-order rank of a node. -/
def rank (g : FlowGraph κ) (d : Direction) (n : Nat) : Nat := (g.ranks d).getD n 0

variable {g : FlowGraph κ} {d : Direction}

/-- **The whole search lists every node once**, what the start nodes lead to behind all other
    nodes. -/
theorem postOrderReversed_spec (hinside : g.Inside d) :
    (g.postOrderReversed d).Nodup ∧ (∀ n, n ∈ g.postOrderReversed d ↔ n < g.nodeCount) ∧
      Ordered (g.next d) (g.postOrderReversed d) ∧
      ∃ others started, g.postOrderReversed d = others ++ started ∧
        ∀ n, n ∈ started ↔ g.Started d n := by
  have hnodes : ∀ n, n ∈ g.nodes ↔ n < g.nodeCount := fun n => List.mem_range
  have hstarts : ∀ r, r ∈ g.nodes.filter (g.isStart d) ↔ r < g.nodeCount ∧ g.isStart d r = true :=
    fun r => by rw [List.mem_filter, hnodes]
  have hblank : Underway (g.next d) g.nodeCount {} :=
    ⟨fun _ ha => absurd ha List.not_mem_nil, .nil, fun _ ha => absurd ha List.not_mem_nil, .nil,
      fun l₁ a l₂ heq =>
        absurd heq.symm (List.append_ne_nil_of_right_ne_nil l₁ (List.cons_ne_nil a l₂)),
      fun _ ha => absurd ha List.not_mem_nil⟩
  obtain ⟨hs, started, hstarted⟩ := foldl_explores hinside (g.nodes.filter (g.isStart d))
    (fun n hn => ((hstarts n).mp hn).1) hblank fun a ha => by cases ha
  unfold postOrderReversed
  simp only [List.foldl_append]
  generalize (g.nodes.filter (g.isStart d)).foldl (depthFirst (g.next d) (g.nodeCount + 1)) {} = s
    at hs hstarted
  have hfinished : s.finished = started := hstarted.finished.trans (List.append_nil started)
  have hentered : ∀ a, a ∈ s.entered ↔ a ∈ started := fun a => by simp [hstarted.entered a]
  obtain ⟨ht, others, hothers⟩ := foldl_explores hinside g.nodes (fun n hn => (hnodes n).mp hn) hs
    fun a ha => hfinished ▸ (hentered a).mp ha
  generalize g.nodes.foldl (depthFirst (g.next d) (g.nodeCount + 1)) s = t at ht hothers
  refine ⟨ht.listed, fun n => ⟨fun hn => ht.inside n (ht.finished n hn), fun hn => ?_⟩, ht.ordered,
    others, started, by rw [hothers.finished, hfinished], fun n => ⟨fun hn => ?_, fun hn => ?_⟩⟩
  · rw [hothers.finished, hfinished, List.mem_append, ← hentered, ← hothers.entered]
    exact hothers.tried n ((hnodes n).mpr hn)
  · obtain ⟨r, hr, hreach⟩ := hstarted.reached n hn
    exact ⟨r, ((hstarts r).mp hr).1, ((hstarts r).mp hr).2, hreach⟩
  · obtain ⟨r, hlt, hstart, hreach⟩ := hn
    rw [← hentered]
    induction hreach with
    | refl => exact hstarted.tried r ((hstarts r).mpr ⟨hlt, hstart⟩)
    | tail _ hstep ih => exact hs.followed _ (hfinished ▸ (hentered _).mp ih) _ hstep

/-! ## 3. Ranks -/

theorem rank_eq {n : Nat} (hn : n < g.nodeCount) :
    g.rank d n = (g.postOrderReversed d).idxOf n := by
  simp [rank, ranks, Array.getD_eq_getD_getElem?, hn]

/-- Behind a node stand nodes of higher rank. -/
theorem idxOf_lt_idxOf {l l₁ l₂ : List Nat} (hl : l.Nodup) {a b : Nat} (h : l = l₁ ++ a :: l₂)
    (hb : b ∈ l₂) : l.idxOf a < l.idxOf b := by
  subst h
  obtain ⟨-, htail, hapart⟩ := List.nodup_append.mp hl
  have ha : ¬ a ∈ l₁ := fun ha => hapart a ha a List.mem_cons_self rfl
  have hb' : ¬ b ∈ l₁ := fun hb' => hapart b hb' b (List.mem_cons_of_mem a hb) rfl
  have hne : ¬ a = b := fun e => (List.nodup_cons.mp htail).1 (e ▸ hb)
  rw [List.idxOf_append_of_notMem ha, List.idxOf_append_of_notMem hb', List.idxOf_cons_self,
    List.idxOf_cons_ne _ hne]
  omega

/-- **Ranks are the numbers of the nodes in another order.** -/
theorem ranks_perm (hinside : g.Inside d) :
    (g.ranks d).toList.Perm (List.range g.nodeCount) := by
  obtain ⟨hnodup, hmem, -⟩ := postOrderReversed_spec hinside
  have hperm : (g.postOrderReversed d).Perm (List.range g.nodeCount) :=
    (List.perm_ext_iff_of_nodup hnodup List.nodup_range).mpr fun n => by
      rw [hmem, List.mem_range]
  have hlength : (g.postOrderReversed d).length = g.nodeCount :=
    hperm.length_eq.trans List.length_range
  have hranks : (g.ranks d).toList =
      (List.range g.nodeCount).map (g.postOrderReversed d).idxOf := by
    simp [ranks]
  have hidx : (g.postOrderReversed d).map (g.postOrderReversed d).idxOf =
      List.range g.nodeCount := by
    refine List.ext_getElem (by simp [hlength]) fun i hi _ => ?_
    rw [List.length_map] at hi
    simp [hnodup.idxOf_getElem i hi]
  rw [hranks]
  exact (hperm.symm.map _).trans (hidx ▸ .refl _)

/-- **An edge whose rank does not ascend lies on a cycle.** -/
theorem rank_lt_or_reach (hinside : g.Inside d) {u v : Nat} (hu : u < g.nodeCount)
    (hv : v ∈ g.next d u) : g.rank d u < g.rank d v ∨ Reach (g.next d) v u := by
  obtain ⟨hnodup, hmem, hordered, -⟩ := postOrderReversed_spec hinside
  rw [rank_eq hu, rank_eq (hinside u hu v hv)]
  obtain ⟨l₁, l₂, hsplit⟩ := List.append_of_mem ((hmem u).mpr hu)
  exact (hordered l₁ u l₂ hsplit v hv).imp_left (idxOf_lt_idxOf hnodup hsplit)

/-- **Nodes that no start node reaches have the lowest ranks.** -/
theorem unreachable_ranked_first (hinside : g.Inside d) {u w : Nat} (hw : w < g.nodeCount)
    (hreached : g.Started d u) (hnot : ¬ g.Started d w) : g.rank d w < g.rank d u := by
  obtain ⟨hnodup, hmem, -, others, started, hsplit, hstarted⟩ := postOrderReversed_spec hinside
  have hu := (hstarted u).mpr hreached
  have hlt : u < g.nodeCount := (hmem u).mp (hsplit ▸ List.mem_append_right others hu)
  have hothers : w ∈ others := by
    have hlisted := (hmem w).mpr hw
    rw [hsplit, List.mem_append] at hlisted
    exact hlisted.resolve_right fun h => hnot ((hstarted w).mp h)
  rw [rank_eq hw, rank_eq hlt]
  obtain ⟨l₁, l₂, rfl⟩ := List.append_of_mem hothers
  rw [List.append_assoc, List.cons_append] at hsplit
  exact idxOf_lt_idxOf hnodup hsplit (List.mem_append_right l₂ hu)

/-- A way from the entry to the exit, and a node beside it. -/
def sidelined : FlowGraph Unit := .ofEdges 3 [⟨0, 2, ()⟩] (· == 0) (· == 2)

theorem sidelined_inside : sidelined.Inside .forward := by
  unfold Inside
  decide +kernel

theorem sidelined_started {n : Nat} : sidelined.Started .forward n ↔ n = 0 ∨ n = 2 := by
  have hentry : sidelined.next .forward 0 = [2] := by decide +kernel
  have hexit : sidelined.next .forward 2 = [] := by decide +kernel
  constructor
  · rintro ⟨r, -, hstart, hreach⟩
    obtain rfl : r = 0 := beq_iff_eq.mp hstart
    induction hreach with
    | refl => exact .inl rfl
    | tail _ hstep ih =>
      rcases ih with rfl | rfl
      · rw [hentry] at hstep
        exact .inr (List.mem_singleton.mp hstep)
      · rw [hexit] at hstep
        cases hstep
  · intro hn
    refine ⟨0, by decide, rfl, ?_⟩
    rcases hn with rfl | rfl
    · exact .refl
    · refine .single ?_
      rw [hentry]
      exact List.mem_singleton_self 2

theorem unreachable_ranked_first_sidelined :
    sidelined.Started .forward 2 ∧ ¬ sidelined.Started .forward 1 ∧
      sidelined.rank .forward 1 < sidelined.rank .forward 2 := by
  have hreached : sidelined.Started .forward 2 := sidelined_started.mpr (.inr rfl)
  have hnot : ¬ sidelined.Started .forward 1 := fun h => by
    rcases sidelined_started.mp h with h | h <;> cases h
  exact ⟨hreached, hnot, unreachable_ranked_first sidelined_inside (by decide) hreached hnot⟩

/-- The node beside the way is ranked before all of it. -/
theorem sidelined_ranked_first :
    ¬ ∀ u w, sidelined.Started .forward u → w < sidelined.nodeCount →
      ¬ sidelined.Started .forward w → sidelined.rank .forward u < sidelined.rank .forward w := by
  intro h
  have hlast := h 0 1 (sidelined_started.mpr (.inl rfl)) (by decide) fun h => by
    rcases sidelined_started.mp h with h | h <;> cases h
  exact absurd hlast (by decide +kernel)

end FlowGraph

end ObjectFlow
