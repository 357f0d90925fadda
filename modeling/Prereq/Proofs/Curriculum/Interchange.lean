import Prereq.Proofs.Curriculum
import Prereq.Proofs.Links.Cut
import Prereq.Proofs.Requirement.NormalForm

/-!
# Which of two nodes stays

* `Requirement.simplify?_pair_eq_left_iff` : of two nodes the first one stays alone just if it makes
  the second one redundant;
* `Curriculum.Interchangeable` : it does so under AND and under OR;
  `Curriculum.interchangeable_iff` : the nodes are equal, or recorded as each other's ancestors;
* `Curriculum.Hub` : a node that is interchangeable with each of some nodes, no two others of which
  are; `Curriculum.hub_of_opens` : the one that is met first, where all circles go through it;
* `Curriculum.exists_opens_least` : that is the least one, if no lower node leads to it;
* `Curriculum.interchangeable_on_circles` : which nodes of a circle are interchangeable;
* `Curriculum.not_interchangeable_ring` : not all of them are.
-/

namespace Prereq

namespace Requirement

theorem operands_pair (a : Ancestors) (d : Connective) (n m : Node) :
    operands a d [.node n, .node m] = [.node n, .node m] := by
  simp [operands, splice]

/-- Of two nodes the first one stays alone just if the second one is redundant beside it. -/
theorem simplify?_pair_eq_left_iff {a : Ancestors} {d : Connective} {n m : Node} :
    simplify? a (.group d [.node n, .node m]) = some (.node n) ↔
      d.redundant a (.node m) (.node n) := by
  rw [simplify?_group_eq, operands_pair, survivors_pair]
  split
  next h => simp [ofParts?, h]
  next h =>
    refine iff_of_false ?_ h
    split
    next h' =>
      intro heq
      have hnm : m = n := by simpa [ofParts?] using heq
      exact h (hnm ▸ h')
    next => simp [ofParts?]

theorem simplify?_all_pair_iff {a : Ancestors} {n m : Node} :
    simplify? a (.group .all [.node n, .node m]) = some (.node n) ↔ a.covers n m := by
  rw [simplify?_pair_eq_left_iff, Connective.redundant_all_iff]
  simp

theorem simplify?_any_pair_iff {a : Ancestors} {n m : Node} :
    simplify? a (.group .any [.node n, .node m]) = some (.node n) ↔ a.covers m n := by
  rw [simplify?_pair_eq_left_iff, Connective.redundant_any_iff]
  simp

end Requirement

namespace Curriculum

open Requirement

variable {c : Curriculum} {n m : Node} {walk : List Node}

/-- Of the nodes `n` and `m` the one that is written first stays alone, under AND and under OR. -/
def Interchangeable (c : Curriculum) (n m : Node) : Prop :=
  ∀ d, simplify? c.ancestors (.group d [.node n, .node m]) = some (.node n)

theorem interchangeable_iff : c.Interchangeable n m ↔
    n = m ∨ c.ancestors.isAncestor m n ∧ c.ancestors.isAncestor n m := by
  have hboth : c.Interchangeable n m ↔ c.ancestors.covers n m ∧ c.ancestors.covers m n := by
    rw [← simplify?_all_pair_iff, ← simplify?_any_pair_iff]
    exact ⟨fun h => ⟨h .all, h .any⟩, fun h d => by cases d; exacts [h.1, h.2]⟩
  rw [hboth, Ancestors.covers_iff, Ancestors.covers_iff, eq_comm (a := m)]
  exact or_and_left.symm

theorem isAncestor_of_mem_prerequisites (h : m ∈ c.prerequisites n) :
    c.ancestors.isAncestor m n := by
  rw [← next_links] at h
  exact c.links.ancestors_records.direct n
    (Links.knows_ancestors_of_mem_sources (Links.mem_sources_of_mem_next h)) m h

/-! ## The node that is met first -/

/-- Of the nodes in `Z`, node `s` is interchangeable with each, and no two others are. -/
def Hub (c : Curriculum) (Z : Node → Prop) (s : Node) : Prop :=
  ∀ k m, Z k → Z m → (c.Interchangeable k m ↔ k = m ∨ k = s ∨ m = s)

theorem Hub.mono {Z Z' : Node → Prop} {s : Node} (h : c.Hub Z s) (hsub : ∀ k, Z' k → Z k) :
    c.Hub Z' s :=
  fun k m hk hm => h k m (hsub k hk) (hsub m hm)

/-- The first node of a circle is a hub for those from which none of its circles is in reach without
it. -/
theorem hub_of_opens {s : Node} {path : List Node} {a : Ancestors}
    (h : c.links.Opens (c.links.OnCircle s) s path a c.ancestors) :
    c.Hub (fun k => c.links.OnCircle s k ∧ (c.links.cut s).ClearWithin (c.links.OnCircle s) k) s := by
  rintro k m ⟨hk, hkclear⟩ ⟨hm, hmclear⟩
  have hfrom : ∀ x, c.links.OnCircle s x → c.ancestors.isAncestor x s := fun x hx =>
    h.isAncestor (c.links.knot_onCircle s) hx
  have hback : ∀ x, c.links.OnCircle s x → (c.links.cut s).ClearWithin (c.links.OnCircle s) x →
      c.ancestors.isAncestor s x := by
    intro x hx hclear
    by_cases hxs : x = s
    · exact hxs ▸ hfrom x hx
    · exact (h.isAncestor_iff hx h.mem hxs hclear).2 (Links.Reaches.cut hx.2 hxs)
  rw [interchangeable_iff]
  refine or_congr_right ⟨fun ⟨hmk, hkm⟩ => ?_, fun hs => ?_⟩
  · -- Recorded for each other, two others would close a circle without the first node.
    by_contra hothers
    push Not at hothers
    have hkm' := (h.isAncestor_iff hk hm hothers.1 hkclear).1 hmk
    have hmk' := (h.isAncestor_iff hm hk hothers.2 hmclear).1 hkm
    exact hkclear k hk (.inl rfl) (hkm'.trans hmk')
  · rcases hs with rfl | rfl
    · exact ⟨hfrom m hm, hback m hm hmclear⟩
    · exact ⟨hback k hk hkclear, hfrom k hk⟩

/-- Nodes are entered in ascending order: one of the circle that no lower node leads to is met
first. -/
theorem exists_opens_least (hn : c.links.OnCircle n n) :
    ∃ s path a, c.links.Opens (c.links.OnCircle n) s path a c.ancestors ∧
      ∀ m, c.links.OnCircle n m → (∀ k < m, ¬ c.BuildsOn k m) → m = s := by
  have hreaches : ∀ x y, c.links.OnCircle n x → c.links.OnCircle n y → c.BuildsOn x y :=
    fun x y hx hy => reaches_links.1 (hx.2.trans hy.1)
  by_cases hleast : ∃ s, c.links.OnCircle n s ∧ ∀ k < s, ¬ c.BuildsOn k s
  · obtain ⟨s, hs, hbelow⟩ := hleast
    obtain ⟨before, after, hnodes⟩ := List.append_of_mem hs.2.mem_sources
    have hascending : (before ++ s :: after).Pairwise (· < ·) := hnodes ▸ c.pairwise_nodes
    refine ⟨s, [], _, Links.opens_of_sources_eq hnodes hs fun k hk m hm hkm => ?_, fun m hm h => ?_⟩
    · have hlt : k < s := (List.pairwise_append.1 hascending).2.2 k hk s List.mem_cons_self
      have hms := hreaches m s hm hs
      refine hbelow k hlt ?_
      rcases hkm with rfl | hkm
      · exact hms
      · exact (reaches_links.1 hkm).trans hms
    · by_contra hne
      rcases UInt64.lt_or_lt_of_ne hne with hlt | hlt
      · exact hbelow m hlt (hreaches m s hm hs)
      · exact h s hlt (hreaches s m hs hm)
  · obtain ⟨s, path, a, h⟩ := Links.exists_opens hn hn.1.mem_sources
    exact ⟨s, path, a, h, fun m hm hbelow => absurd ⟨m, hm, hbelow⟩ hleast⟩

/-- **Nodes on one circle.** Two nodes are interchangeable just if they are recorded as each other's
ancestors. Two that are prerequisites of each other always are. On every circle there is a node
which all the others give way to under AND if it is written first, and which gives way to each of
them under OR if it is written last; it is interchangeable with those that have it as a prerequisite,
such as the one before it.

Of the nodes that share circles with `n` there is one for which all of them are recorded; a node
among them that no lower node leads to is the one. It is a hub for those from which none of their
circles is in reach once its own prerequisites are dropped, and so for all of them if they form a
single circle. -/
theorem interchangeable_on_circles (c : Curriculum) :
    (∀ n m, c.Interchangeable n m ↔
      n = m ∨ c.ancestors.isAncestor m n ∧ c.ancestors.isAncestor n m) ∧
    (∀ n m, m ∈ c.prerequisites n → n ∈ c.prerequisites m → c.Interchangeable n m) ∧
    (∀ walk, c.links.ClosedWalk walk → ∃ s ∈ walk,
      (∀ m ∈ walk,
        simplify? c.ancestors (.group .all [.node s, .node m]) = some (.node s) ∧
        simplify? c.ancestors (.group .any [.node m, .node s]) = some (.node m)) ∧
      (∃ m ∈ walk, s ∈ c.prerequisites m) ∧
      ∀ m ∈ walk, s ∈ c.prerequisites m → c.Interchangeable s m) ∧
    ∀ n, c.links.OnCircle n n → ∃ s, c.links.OnCircle n s ∧
      (∀ m, c.links.OnCircle n m → c.ancestors.isAncestor m s) ∧
      (∀ m, c.links.OnCircle n m → (∀ k < m, ¬ c.BuildsOn k m) → m = s) ∧
      c.Hub (fun k => c.links.OnCircle n k ∧
        (c.links.cut s).ClearWithin (c.links.OnCircle n) k) s ∧
      (c.links.PlainRing n → c.Hub (c.links.OnCircle n) s) := by
  refine ⟨fun n m => interchangeable_iff, fun n m hnm hmn => interchangeable_iff.2 (.inr
    ⟨isAncestor_of_mem_prerequisites hnm, isAncestor_of_mem_prerequisites hmn⟩), fun walk h => ?_,
    fun n hn => ?_⟩
  · obtain ⟨k, ns, hwalk⟩ := h.exists_eq
    have hk : k ∈ walk := hwalk ▸ List.mem_cons_self
    obtain ⟨s, hs, hall⟩ := h.knot.exists_isAncestor hk
    refine ⟨s, hs, fun m hm => ?_, ?_, fun m hm hsm => interchangeable_iff.2 (.inr
      ⟨hall m hm, isAncestor_of_mem_prerequisites hsm⟩)⟩
    · rw [simplify?_all_pair_iff, simplify?_any_pair_iff, and_self, Ancestors.covers_iff]
      exact .inr (hall m hm)
    · obtain ⟨m, -, hm, -, hstep⟩ := Relation.TransGen.tail'_iff.1 (h.knot s s hs hs)
      exact ⟨m, hm, next_links c m ▸ hstep⟩
  · obtain ⟨s, path, a, h, hleast⟩ := exists_opens_least hn
    have hall : ∀ m, c.links.OnCircle n m → c.ancestors.isAncestor m s := fun m =>
      h.isAncestor (c.links.knot_onCircle n)
    have hs : c.links.OnCircle n s := h.mem
    rw [hs.eq] at h
    have hhub := hub_of_opens h
    rw [← hs.eq] at hhub
    exact ⟨s, hs, hall, hleast, hhub,
      fun hring => hhub.mono fun k hk => ⟨hk, hring.clearWithin hs k⟩⟩

/-- Three nodes, each with the next one as its prerequisite. -/
def ring : Curriculum := .ofList [(1, [2]), (2, [3]), (3, [1])]

theorem prerequisites_ring :
    ring.prerequisites 1 = [2] ∧ ring.prerequisites 2 = [3] ∧ ring.prerequisites 3 = [1] :=
  ⟨prerequisites_ofList (by decide) (by simp), prerequisites_ofList (by decide) (by simp),
    prerequisites_ofList (by decide) (by simp)⟩

theorem closedWalk_ring : ring.links.ClosedWalk [1, 2, 3, 1] where
  chain := by
    obtain ⟨h1, h2, h3⟩ := prerequisites_ring
    simp [Links.Step, h1, h2, h3]
  moves := by decide
  closed := rfl

theorem plainRing_ring : ring.links.PlainRing 1 := by
  intro k x y hk hx hy _ _
  obtain ⟨h1, h2, h3⟩ := prerequisites_ring
  have hnodes : ring.nodes = [1, 2, 3] := by decide
  have hk : k = 1 ∨ k = 2 ∨ k = 3 := by
    have hsource : k ∈ ring.nodes := hk.2.mem_sources
    simpa [hnodes] using hsource
  obtain ⟨z, hz⟩ : ∃ z, ring.prerequisites k = [z] := by
    rcases hk with rfl | rfl | rfl
    · exact ⟨2, h1⟩
    · exact ⟨3, h2⟩
    · exact ⟨1, h3⟩
  rw [Links.Step, next_links, hz, List.mem_singleton] at hx hy
  rw [hx, hy]

/-- Node 1 has a circle with node 2 and one with node 3, which has a circle of node 4 below it. -/
def eight : Curriculum := .ofList [(1, [2, 3]), (2, [1]), (3, [1, 4]), (4, [4])]

theorem prerequisites_eight :
    eight.prerequisites 1 = [2, 3] ∧ eight.prerequisites 2 = [1] ∧
    eight.prerequisites 3 = [1, 4] ∧ eight.prerequisites 4 = [4] :=
  ⟨prerequisites_ofList (by decide) (by simp), prerequisites_ofList (by decide) (by simp),
    prerequisites_ofList (by decide) (by simp), prerequisites_ofList (by decide) (by simp)⟩

theorem onCircle_eight : ∀ m ∈ [1, 2, 3], eight.links.OnCircle 1 m := by
  obtain ⟨h1, h2, h3, -⟩ := prerequisites_eight
  have hto : ∀ m ∈ [2, 3], eight.links.Reaches 1 m := fun m hm =>
    .of_next (by rwa [next_links, h1])
  have hback : ∀ m ∈ [2, 3], eight.links.Reaches m 1 := by
    simp only [List.forall_mem_cons]
    exact ⟨.of_next (by simp [h2]), .of_next (by simp [h3]), List.forall_mem_nil _⟩
  have h11 : eight.links.Reaches 1 1 := (hto 2 (by decide)).trans (hback 2 (by decide))
  exact List.forall_mem_cons.2 ⟨⟨h11, h11⟩, fun m hm => ⟨hto m hm, hback m hm⟩⟩

/-- Without the prerequisites of node 1 only the circle of node 4 is left. -/
theorem clearWithin_eight (k : Node) :
    (eight.links.cut 1).ClearWithin (eight.links.OnCircle 1) k := by
  obtain ⟨-, h2, h3, h4⟩ := prerequisites_eight
  have hfour : ∀ m, eight.links.Reaches 4 m → m = 4 := by
    have hclosed : eight.links.Closed (· = 4) := by
      rintro n rfl m hm
      rwa [next_links, h4, List.mem_singleton] at hm
    exact fun m h => hclosed.of_reaches h rfl
  intro m hm _ hcircle
  have hnodes : eight.nodes = [1, 2, 3, 4] := by decide
  have hm' : m = 1 ∨ m = 2 ∨ m = 3 ∨ m = 4 := by
    have hsource : m ∈ eight.nodes := hm.2.mem_sources
    simpa [hnodes] using hsource
  obtain ⟨x, hx, hxm⟩ := Links.reaches_iff_next.1 hcircle
  rcases hm' with rfl | rfl | rfl | rfl
  · exact Links.not_reaches_cut hcircle
  · rw [Links.next_cut_of_ne _ (by decide), next_links, h2, List.mem_singleton] at hx
    subst hx
    exact hxm.elim (by decide) Links.not_reaches_cut
  · rw [Links.next_cut_of_ne _ (by decide), next_links, h3, List.mem_pair] at hx
    rcases hx with rfl | rfl
    · exact hxm.elim (by decide) Links.not_reaches_cut
    · exact hxm.elim (by decide) fun h => absurd (hfour 3 (Links.reaches_of_cut h)) (by decide)
  · exact absurd (hfour 1 hm.2) (by decide)

theorem not_buildsOn_of_lt_one (h : 0 ∉ c.nodes) : ∀ k < 1, ¬ c.BuildsOn k m := fun _ hk hkm =>
  h (UInt64.lt_one_iff.1 hk ▸ (reaches_links.2 hkm).mem_sources)

/-- Node 1 is interchangeable with each of the others, and these are not with each other. -/
theorem interchangeable_on_circles_ring :
    ring.links.ClosedWalk [1, 2, 3, 1] ∧
    (∃ s ∈ [1, 2, 3, 1], ∀ m ∈ [1, 2, 3, 1],
      simplify? ring.ancestors (.group .all [.node s, .node m]) = some (.node s) ∧
      simplify? ring.ancestors (.group .any [.node m, .node s]) = some (.node m)) ∧
    (∀ m ∈ [2, 3], ring.Interchangeable 1 m) ∧ ¬ ring.Interchangeable 2 3 ∧
    (∀ m ∈ [2, 3], eight.Interchangeable 1 m) ∧ ¬ eight.Interchangeable 2 3 := by
  obtain ⟨-, -, hwalk, hring⟩ := interchangeable_on_circles ring
  obtain ⟨t, ht, hall, -⟩ := hwalk _ closedWalk_ring
  have hon : ∀ m ∈ [1, 2, 3], ring.links.OnCircle 1 m := fun m hm =>
    Links.onCircle_iff_closedWalk.2 ⟨_, closedWalk_ring, by decide, List.mem_append_left [1] hm⟩
  obtain ⟨s, -, -, hleast, -, hhub⟩ := hring 1 (hon 1 (by decide))
  obtain rfl := hleast 1 (hon 1 (by decide)) (not_buildsOn_of_lt_one (by decide))
  have hhub := hhub plainRing_ring
  obtain ⟨-, -, -, height⟩ := interchangeable_on_circles eight
  obtain ⟨s, -, -, hleast', hhub', -⟩ := height 1 (onCircle_eight 1 (by decide))
  obtain rfl := hleast' 1 (onCircle_eight 1 (by decide)) (not_buildsOn_of_lt_one (by decide))
  have hin : ∀ m ∈ [1, 2, 3], eight.links.OnCircle 1 m ∧
      (eight.links.cut 1).ClearWithin (eight.links.OnCircle 1) m :=
    fun m hm => ⟨onCircle_eight m hm, clearWithin_eight m⟩
  refine ⟨closedWalk_ring, ⟨t, ht, hall⟩, fun m hm => ?_, fun h => ?_, fun m hm => ?_, fun h => ?_⟩
  · exact (hhub 1 m (hon 1 (by decide)) (hon m (List.mem_cons_of_mem 1 hm))).2 (.inr (.inl rfl))
  · exact absurd ((hhub 2 3 (hon 2 (by decide)) (hon 3 (by decide))).1 h) (by decide)
  · exact (hhub' 1 m (hin 1 (by decide)) (hin m (List.mem_cons_of_mem 1 hm))).2 (.inr (.inl rfl))
  · exact absurd ((hhub' 2 3 (hin 2 (by decide)) (hin 3 (by decide))).1 h) (by decide)

/-- A circle of the nodes 3, 1, 4 and 2, with a chord from node 1 to node 2. -/
def chord : Curriculum := .ofList [(1, [2, 4]), (2, [3, 4]), (3, [1]), (4, [2])]

theorem closedWalk_chord : chord.links.ClosedWalk [3, 1, 4, 2, 3] where
  chain := by
    have h1 : chord.prerequisites 1 = [2, 4] := prerequisites_ofList (by decide) (by simp)
    have h2 : chord.prerequisites 2 = [3, 4] := prerequisites_ofList (by decide) (by simp)
    have h3 : chord.prerequisites 3 = [1] := prerequisites_ofList (by decide) (by simp)
    have h4 : chord.prerequisites 4 = [2] := prerequisites_ofList (by decide) (by simp)
    simp [Links.Step, h1, h2, h3, h4]
  moves := by decide
  closed := rfl

/-- The second of two nodes on one circle may stay instead of the first one, and both may stay. -/
theorem not_interchangeable_ring :
    (¬ ∀ (c : Curriculum) walk, c.links.ClosedWalk walk → ∀ n ∈ walk, ∀ m ∈ walk,
      c.Interchangeable n m) ∧
    simplify? ring.ancestors (.group .all [.node 3, .node 2]) = some (.node 2) ∧
    chord.links.ClosedWalk [3, 1, 4, 2, 3] ∧
    simplify? chord.ancestors (.group .all [.node 3, .node 4]) =
      some (.group .all [.node 3, .node 4]) := by
  have hresult : simplify? ring.ancestors (.group .all [.node 3, .node 2]) = some (.node 2) := by
    decide +kernel
  refine ⟨fun h => ?_, hresult, closedWalk_chord, by decide +kernel⟩
  have hfirst := h ring _ closedWalk_ring 3 (by decide) 2 (by decide) .all
  rw [hresult] at hfirst
  exact absurd hfirst (by decide)

end Curriculum

end Prereq
