import Prereq.Links.Reach
import Prereq.Proofs.Links.Reaches

/-!
# What a queue leads to

* `Links.Explored` : what working through a queue makes of the nodes seen (`explored_reachFrom`);
* `Links.mem_reach` : from some nodes exactly these and what they reach are found.

A node is seen before its targets are. Until then they wait in the queue, so that only at the end no
link leaves the nodes that were found.
-/

namespace Prereq.Links

variable {l : Links} {seen queue found starts : List Node} {n k : Node}

/-- What working through a queue makes of the nodes seen. -/
structure Explored (l : Links) (seen queue found : List Node) : Prop where
  keeps : seen ⊆ found
  enters : queue ⊆ found
  /-- Only the nodes of the queue and what they lead to are new. -/
  only : ∀ k ∈ found, k ∈ seen ∨ ∃ n ∈ queue, n = k ∨ l.Reaches n k
  /-- No link leaves the nodes found, if those from the nodes seen lead to such or to the queue. -/
  closed : (∀ k ∈ seen, ∀ m ∈ l.next k, m ∈ seen ∨ m ∈ queue) → l.Closed (· ∈ found)

theorem explored_nil (l : Links) (seen : List Node) : l.Explored seen [] seen where
  keeps := List.Subset.refl _
  enters := List.nil_subset _
  only _ := .inl
  closed h k hk m hm := (h k hk m hm).resolve_right List.not_mem_nil

/-- A node that was seen is passed over. -/
theorem Explored.pass (h : l.Explored seen queue found) (hn : n ∈ seen) :
    l.Explored seen (n :: queue) found where
  keeps := h.keeps
  enters := List.cons_subset.2 ⟨h.keeps hn, h.enters⟩
  only k hk := (h.only k hk).imp_right fun ⟨m, hm, hmk⟩ => ⟨m, List.mem_cons_of_mem n hm, hmk⟩
  closed hseen := h.closed fun k hk m hm => by
    rcases hseen k hk m hm with h | h
    · exact .inl h
    · rcases List.mem_cons.1 h with rfl | h
      · exact .inl hn
      · exact .inr h

/-- A new node is seen, and its targets join the queue. -/
theorem Explored.enter (h : l.Explored (n :: seen) (queue ++ l.next n) found) :
    l.Explored seen (n :: queue) found where
  keeps := (List.cons_subset.1 h.keeps).2
  enters := List.cons_subset.2
    ⟨h.keeps List.mem_cons_self, fun _ hm => h.enters (List.mem_append_left _ hm)⟩
  only k hk := by
    rcases h.only k hk with hk | ⟨m, hm, hmk⟩
    · rcases List.mem_cons.1 hk with rfl | hk
      · exact .inr ⟨k, List.mem_cons_self, .inl rfl⟩
      · exact .inl hk
    · rcases List.mem_append.1 hm with hm | hm
      · exact .inr ⟨m, List.mem_cons_of_mem n hm, hmk⟩
      · exact .inr ⟨n, List.mem_cons_self, .inr (reaches_iff_next.2 ⟨m, hm, hmk⟩)⟩
  closed hseen := h.closed fun k hk m hm => by
    rw [List.mem_append]
    rcases List.mem_cons.1 hk with rfl | hk
    · exact .inr (.inr hm)
    · rcases hseen k hk m hm with h | h
      · exact .inl (List.mem_cons_of_mem n h)
      · rcases List.mem_cons.1 h with rfl | h
        · exact .inl List.mem_cons_self
        · exact .inr (.inl h)

theorem explored_reachFrom (seen queue : List Node) :
    l.Explored seen queue (l.reachFrom seen queue) := by
  induction seen, queue using Links.reachFrom.induct l with
  | case1 seen =>
    rw [reachFrom]
    exact explored_nil l seen
  | case2 seen n queue hmem ih =>
    rw [reachFrom, if_pos hmem]
    exact ih.pass hmem
  | case3 seen n queue hnew hsource ih =>
    rw [reachFrom, if_neg hnew, if_pos hsource]
    rw [← next_of_mem hsource] at ih ⊢
    exact ih.enter
  | case4 seen n queue hnew hsource ih =>
    rw [reachFrom, if_neg hnew, if_neg hsource]
    refine Explored.enter ?_
    rwa [next_of_not_mem hsource, List.append_nil]

/-- What is found are the given nodes and what they reach. -/
theorem mem_reach : k ∈ l.reach starts ↔ ∃ n ∈ starts, n = k ∨ l.Reaches n k := by
  have hexplored : l.Explored [] starts (l.reach starts) := explored_reachFrom [] starts
  refine ⟨fun hk => (hexplored.only k hk).resolve_left List.not_mem_nil, ?_⟩
  rintro ⟨n, hn, rfl | hnk⟩
  · exact hexplored.enters hn
  · exact (hexplored.closed (List.forall_mem_nil _)).of_reaches hnk (hexplored.enters hn)

end Prereq.Links
