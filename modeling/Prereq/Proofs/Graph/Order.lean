import Prereq.Graph.Order
import Prereq.Proofs.Graph.Edges
import Prereq.Proofs.Links.Finish

/-!
# When there is a teaching order

* `Graph.reaches_self_of_misplaced?` : a node that the check finds misplaced in the finishing order is
  on a circle;
* `Graph.clear_of_misplaced?_eq_none` : in an order that passes the check, no node builds on a
  circle, unless it is its own prerequisite;
* `Graph.exists_order_iff` : there is a teaching order just if the curriculum is acyclic;
  `Graph.order_exact` : what it holds, and where.
-/

namespace Prereq.Graph

variable {g : Graph} {c : Curriculum} {placed rest : List Node} {n m : Node}

theorem misplaced?_cons (g : Graph) (placed : List Node) (n : Node) (rest : List Node) :
    g.misplaced? placed (n :: rest) =
      ((g.prerequisites n).filter fun m => m ≠ n ∧ m ∉ placed).getLast?.or
        (g.misplaced? (n :: placed) rest) := by
  rw [misplaced?]
  split
  next m hm => rw [hm, Option.some_or]
  next hm => rw [hm, Option.none_or]

theorem misplaced?_cons_eq_none_iff : g.misplaced? placed (n :: rest) = none ↔
    (∀ m ∈ g.prerequisites n, m = n ∨ m ∈ placed) ∧ g.misplaced? (n :: placed) rest = none := by
  rw [misplaced?_cons, Option.or_eq_none_iff, List.getLast?_eq_none_iff, List.filter_eq_nil_iff]
  simp [or_iff_not_imp_left]

theorem misplaced?_cons_eq_some (h : g.misplaced? placed (n :: rest) = some m) :
    (m ∈ g.prerequisites n ∧ m ≠ n ∧ m ∉ placed) ∨ g.misplaced? (n :: placed) rest = some m := by
  rw [misplaced?_cons, Option.or_eq_some_iff] at h
  refine h.imp (fun hlast => ?_) And.right
  simpa using List.mem_filter.1 (List.mem_of_getLast? hlast)

/-- A node that stands behind one of its dependents in a settled order is on a circle: that one leads
to it. -/
theorem reaches_self_of_misplaced? (hsettled : (ofCurriculum c).links.Settled rest)
    (hall : ∀ n ∈ rest, ∀ m ∈ c.prerequisites n, m ∈ placed ∨ m ∈ rest)
    (h : (ofCurriculum c).misplaced? placed rest = some m) :
    (ofCurriculum c).links.Reaches m m := by
  induction rest generalizing placed with
  | nil => cases h
  | cons n rest ih =>
    obtain ⟨hn, -, hrest⟩ := hsettled
    rcases misplaced?_cons_eq_some h with ⟨hm, hne, hplaced⟩ | hlater
    · have hm := mem_prerequisites.1 hm
      have hmem : m ∈ rest := (List.mem_cons.1
        ((hall n List.mem_cons_self m hm).resolve_left hplaced)).resolve_left hne
      have hnext : n ∈ (ofCurriculum c).links.next m := mem_next_links.2 hm
      have hnm := (hrest.mem_of_next hmem hnext).resolve_left hn
      exact (Links.Reaches.of_next hnext).trans hnm
    · refine ih hrest (fun k hk m hm => ?_) hlater
      rcases hall k (List.mem_cons_of_mem n hk) m hm with h | h
      · exact .inl (List.mem_cons_of_mem n h)
      · rcases List.mem_cons.1 h with rfl | h
        · exact .inl List.mem_cons_self
        · exact .inr h

/-- In an order that passes the check a prerequisite stands in front of the nodes that need it. -/
theorem idxOf_lt_of_misplaced?_eq_none (h : g.misplaced? placed rest = none) (hn : n ∈ rest)
    (hm : m ∈ g.prerequisites n) (hne : m ≠ n) (hplaced : m ∉ placed) :
    rest.idxOf m < rest.idxOf n := by
  induction rest generalizing placed with
  | nil => cases hn
  | cons k rest ih =>
    obtain ⟨hbefore, hafter⟩ := misplaced?_cons_eq_none_iff.1 h
    have hkn : k ≠ n := by
      rintro rfl
      exact (hbefore m hm).elim hne hplaced
    rw [List.idxOf_cons_ne rest hkn]
    by_cases hkm : k = m
    · rw [hkm, List.idxOf_cons_self]
      exact Nat.succ_pos _
    · rw [List.idxOf_cons_ne rest hkm]
      have hplaced' : m ∉ k :: placed := fun h =>
        (List.mem_cons.1 h).elim (fun h => hkm h.symm) hplaced
      exact Nat.succ_lt_succ
        (ih hafter ((List.mem_cons.1 hn).resolve_left hkn.symm) hplaced')

/-- In an order that passes the check every node is clear, as long as none is its own
prerequisite: all its prerequisites stand before it. -/
theorem clear_of_misplaced?_eq_none (hplaced : ∀ n ∈ placed, c.links.Clear n)
    (hloop : ∀ n ∈ rest, n ∉ c.prerequisites n)
    (h : (ofCurriculum c).misplaced? placed rest = none) : ∀ n ∈ rest, c.links.Clear n := by
  induction rest generalizing placed with
  | nil => exact nofun
  | cons n rest ih =>
    obtain ⟨hn, hrest⟩ := List.forall_mem_cons.1 hloop
    obtain ⟨hbefore, hafter⟩ := misplaced?_cons_eq_none_iff.1 h
    have hclear : c.links.Clear n := by
      rw [Links.clear_iff_next, Curriculum.next_links]
      intro m hm
      rcases hbefore m (mem_prerequisites.2 hm) with rfl | hm'
      · exact absurd hm hn
      · exact hplaced m hm'
    exact List.forall_mem_cons.2
      ⟨hclear, ih (List.forall_mem_cons.2 ⟨hclear, hplaced⟩) hrest hafter⟩

theorem order_eq_ok_iff {order : List Node} : g.order = .ok order ↔
    g.links.finishAll = .ok order ∧ g.misplaced? [] order = none := by
  constructor
  · intro h
    unfold Graph.order at h
    split at h
    next n hfinish => cases h
    next order' hfinish =>
      split at h
      next n hmisplaced => cases h
      next hmisplaced =>
        cases h
        exact ⟨hfinish, hmisplaced⟩
  · rintro ⟨hfinish, hmisplaced⟩
    unfold Graph.order
    rw [hfinish]
    simp only [hmisplaced]

/-- The finishing order holds the nodes of the curriculum and those that are only mentioned. -/
theorem mem_of_finishAll {order : List Node}
    (h : (ofCurriculum c).links.finishAll = .ok order) :
    n ∈ order ↔ n ∈ c.nodes ∨ ∃ m, n ∈ c.prerequisites m := by
  have hfinished := Links.finished_finishAll h
  rw [← mem_nodes_ofCurriculum]
  refine ⟨fun hn => ?_, fun hn => (hfinished.enters n hn).resolve_left List.not_mem_nil⟩
  obtain ⟨m, hm, rfl | hmn⟩ := (hfinished.only n hn).resolve_left List.not_mem_nil
  · exact hm
  · obtain ⟨k, hk⟩ := Links.exists_reaches_iff.1 ⟨m, hmn⟩
    exact mem_nodes_of_mem_next hk

/-- A node that is found misplaced in the finishing order is on a circle. -/
theorem reaches_self_of_finishAll {order : List Node}
    (h : (ofCurriculum c).links.finishAll = .ok order)
    (hm : (ofCurriculum c).misplaced? [] order = some m) :
    (ofCurriculum c).links.Reaches m m :=
  reaches_self_of_misplaced? ((Links.finished_finishAll h).settled trivial)
    (fun n _ _ hn => .inr ((mem_of_finishAll h).2 (.inr ⟨n, hn⟩))) hm

theorem exists_order_of_acyclic (hc : c.Acyclic) : ∃ order, (ofCurriculum c).order = .ok order := by
  have hlinks := acyclic_links_iff.2 hc
  cases hfinish : (ofCurriculum c).links.finishAll with
  | error n => exact absurd (Links.Reaches.of_next (Links.mem_next_of_finishAll hfinish)) (hlinks n)
  | ok order =>
    have hmisplaced : (ofCurriculum c).misplaced? [] order = none :=
      Option.eq_none_iff_forall_ne_some.2 fun m hm =>
        hlinks m (reaches_self_of_finishAll hfinish hm)
    exact ⟨order, order_eq_ok_iff.2 ⟨hfinish, hmisplaced⟩⟩

theorem acyclic_of_order {order : List Node} (h : (ofCurriculum c).order = .ok order) :
    c.Acyclic := by
  obtain ⟨hfinish, hmisplaced⟩ := order_eq_ok_iff.1 h
  have hloop : ∀ n ∈ order, n ∉ c.prerequisites n := fun n hn =>
    mt mem_next_links.2
      (((Links.finished_finishAll hfinish).loopless n hn).resolve_left List.not_mem_nil)
  have hclear := clear_of_misplaced?_eq_none (List.forall_mem_nil _) hloop hmisplaced
  rw [← Curriculum.acyclic_links]
  intro n hn
  exact hclear n ((mem_of_finishAll hfinish).2 (.inl hn.mem_sources)) n (.inl rfl) hn

/-- There is a teaching order just if the curriculum is acyclic. -/
theorem exists_order_iff : (∃ order, (ofCurriculum c).order = .ok order) ↔ c.Acyclic :=
  ⟨fun ⟨_, h⟩ => acyclic_of_order h, exists_order_of_acyclic⟩

theorem exists_order_eq_error_iff : (∃ x, (ofCurriculum c).order = .error x) ↔ ¬ c.Acyclic := by
  rw [Except.exists_eq_error_iff, exists_order_iff]

/-- **The teaching order.** There is one just if the curriculum is acyclic. It holds each node of the
curriculum and each one that is only mentioned once, and every prerequisite in front of the nodes
that need it. -/
theorem order_exact (c : Curriculum) :
    ((∃ order, (ofCurriculum c).order = .ok order) ↔ c.Acyclic) ∧
    ∀ order, (ofCurriculum c).order = .ok order →
      order.Nodup ∧ (∀ n, n ∈ order ↔ n ∈ c.nodes ∨ ∃ m, n ∈ c.prerequisites m) ∧
      ∀ n, ∀ m ∈ c.prerequisites n, order.idxOf m < order.idxOf n := by
  refine ⟨exists_order_iff, fun order h => ?_⟩
  obtain ⟨hfinish, hmisplaced⟩ := order_eq_ok_iff.1 h
  have hmem : ∀ n, n ∈ order ↔ n ∈ c.nodes ∨ ∃ m, n ∈ c.prerequisites m := fun n =>
    mem_of_finishAll hfinish
  refine ⟨((Links.finished_finishAll hfinish).settled trivial).nodup, hmem, fun n m hm => ?_⟩
  have hn : n ∈ order := (hmem n).2 (.inl (Curriculum.mem_nodes_of_mem_prerequisites hm))
  have hne : m ≠ n := by
    rintro rfl
    exact acyclic_of_order h m (.single hm)
  exact idxOf_lt_of_misplaced?_eq_none hmisplaced hn (mem_prerequisites.2 hm) hne List.not_mem_nil

/-- Node 4 builds on node 1 in two ways, and on node 7, which is only mentioned. -/
def lattice : Curriculum := .ofList [(4, [2, 3, 7, 2]), (2, [1]), (3, [1, 2]), (1, [])]

theorem order_exact_lattice : ∃ order, (ofCurriculum lattice).order = .ok order ∧
    lattice.Acyclic ∧ order.Nodup ∧ 7 ∈ order ∧ 7 ∉ lattice.nodes ∧
    ∀ m ∈ lattice.prerequisites 4, order.idxOf m < order.idxOf 4 := by
  have horder : (ofCurriculum lattice).order = .ok [7, 1, 2, 3, 4] := by decide +kernel
  obtain ⟨hacyclic, hlists⟩ := order_exact lattice
  obtain ⟨honce, hmem, hbefore⟩ := hlists _ horder
  exact ⟨_, horder, hacyclic.1 ⟨_, horder⟩, honce, (hmem 7).2 (.inr ⟨4, by decide⟩), by decide,
    hbefore 4⟩

end Prereq.Graph
