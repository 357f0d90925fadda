import Mathlib.Data.List.Nodup
import Prereq.Curriculum
import Prereq.Proofs.Links.Circuits

/-!
# What a curriculum builds on

* `Curriculum.BuildsOn`, `Curriculum.Acyclic`, `Curriculum.Clear`, `Curriculum.Closed` : direct
  prerequisites followed any number of times, no node that builds on itself, a node that builds on
  no such node, and sets of nodes that hold the prerequisites of their members;
* `Curriculum.Circuit` : a chain of prerequisites that ends where it starts;
* `Ancestors.Respected` : a set of nodes that holds whatever its members cover
  (`Curriculum.Closed.respected`);
* `Curriculum.covers_congr` : what a node covers, where no circle is in reach, is settled by what it
  builds on;
* `Curriculum.prerequisites_ofConcepts` : the entries of a curriculum made of distinct concepts;
  `Curriculum.prerequisites_last` : the same of any concepts, by the last one of a node;
* `Curriculum.ancestors_exact` : what the table of ancestors records, with circles or without.
-/

namespace Prereq

/-- A set of nodes that holds whatever its members cover. -/
def Ancestors.Respected (a : Ancestors) (V : Node → Prop) : Prop :=
  ∀ n m, a.covers n m → V n → V m

namespace Curriculum

variable {c : Curriculum} {n m : Node}

/-- Node `n` has `m` among its prerequisites, or among theirs, and so on. -/
def BuildsOn (c : Curriculum) : Node → Node → Prop :=
  Relation.TransGen fun n m => m ∈ c.prerequisites n

/-- No node builds on itself. -/
def Acyclic (c : Curriculum) : Prop := ∀ n, ¬ c.BuildsOn n n

/-- Neither `n` nor a node that it builds on builds on itself. -/
def Clear (c : Curriculum) (n : Node) : Prop := ∀ m, n = m ∨ c.BuildsOn n m → ¬ c.BuildsOn m m

/-- The prerequisites of the nodes in `V` are in `V`. -/
def Closed (c : Curriculum) (V : Node → Prop) : Prop := ∀ n, V n → ∀ m ∈ c.prerequisites n, V m

/-- Each node of the chain has the next one among its prerequisites, the last one is the first one
again, and no other one stands twice. -/
structure Circuit (c : Curriculum) (chain : List Node) : Prop where
  needs : chain.IsChain fun n m => m ∈ c.prerequisites n
  moves : 2 ≤ chain.length
  closed : chain.head? = chain.getLast?
  once : chain.dropLast.Nodup

/-! ## Links -/

theorem mem_nodes : n ∈ c.nodes ↔ c.contains n := by
  rw [nodes, Std.TreeMap.mem_keys, contains, Std.TreeMap.contains_iff_mem]

theorem pairwise_nodes (c : Curriculum) : c.nodes.Pairwise (· < ·) :=
  Std.TreeMap.ordered_keys.imp Std.compare_eq_lt.1

theorem nodup_nodes (c : Curriculum) : c.nodes.Nodup := c.pairwise_nodes.imp UInt64.ne_of_lt

theorem prerequisites_of_not_mem (h : n ∉ c.nodes) : c.prerequisites n = [] := by
  rw [mem_nodes, contains, Std.TreeMap.contains_eq_isSome_getElem?] at h
  unfold prerequisites
  cases hn : c.table[n]? with
  | none => rfl
  | some ms => rw [hn] at h; exact absurd rfl h

theorem mem_nodes_of_mem_prerequisites (h : m ∈ c.prerequisites n) : n ∈ c.nodes := by
  by_contra hn
  rw [prerequisites_of_not_mem hn] at h
  cases h

@[simp] theorem next_links (c : Curriculum) (n : Node) : c.links.next n = c.prerequisites n := by
  by_cases h : n ∈ c.nodes
  · exact Links.next_of_mem h
  · rw [Links.next_of_not_mem h, prerequisites_of_not_mem h]

theorem reaches_links : c.links.Reaches n m ↔ c.BuildsOn n m := by
  unfold Links.Reaches BuildsOn Links.Step
  simp only [next_links]

theorem acyclic_links : c.links.Acyclic ↔ c.Acyclic := by
  unfold Links.Acyclic Acyclic
  simp only [reaches_links]

theorem clear_links : c.links.Clear n ↔ c.Clear n := by
  unfold Links.Clear Clear
  simp only [reaches_links]

theorem clear_iff_prerequisites : c.Clear n ↔ ∀ m ∈ c.prerequisites n, c.Clear m := by
  rw [← clear_links, Links.clear_iff_next, next_links]
  simp only [clear_links]

theorem closed_links {V : Node → Prop} : c.links.Closed V ↔ c.Closed V := by
  unfold Links.Closed Closed
  simp only [next_links]

theorem circuit_links {chain : List Node} : c.links.Circuit chain ↔ c.Circuit chain := by
  have hneeds : chain.IsChain c.links.Step ↔ chain.IsChain fun n m => m ∈ c.prerequisites n := by
    unfold Links.Step
    simp only [next_links]
  exact ⟨fun h => ⟨hneeds.1 h.chain, h.moves, h.closed, h.once⟩,
    fun h => ⟨⟨hneeds.2 h.needs, h.moves, h.closed⟩, h.once⟩⟩

/-- Whatever is recorded of circles or not, closed sets hold what their members cover. -/
theorem Closed.respected {V : Node → Prop} (h : c.Closed V) : c.ancestors.Respected V := by
  intro n m hnm hn
  rcases Ancestors.covers_iff.1 hnm with rfl | hnm
  · exact hn
  · exact (closed_links.2 h).of_reaches (Links.reaches_of_isAncestor hnm) hn

/-- What a node covers is settled by the prerequisites of what it builds on, if there is no circle
among them. -/
theorem covers_congr {d : Curriculum} (clear : c.Clear n)
    (h : ∀ k, n = k ∨ c.BuildsOn n k → ∀ m, m ∈ d.prerequisites k ↔ m ∈ c.prerequisites k)
    (m : Node) : d.ancestors.covers n m = c.ancestors.covers n m := by
  have hlinks : ∀ k, n = k ∨ c.links.Reaches n k → ∀ m, m ∈ d.links.next k ↔ m ∈ c.links.next k := by
    intro k hk m
    rw [next_links, next_links]
    rw [reaches_links] at hk
    exact h k hk m
  have hc : c.links.Clear n := clear_links.2 clear
  have hd : d.links.Clear n := (Links.clear_congr hlinks).2 hc
  rw [Bool.eq_iff_iff, Ancestors.covers_iff, Ancestors.covers_iff, ancestors, ancestors,
    Links.isAncestor_iff_reaches hc, Links.isAncestor_iff_reaches hd, Links.reaches_congr hlinks]

/-! ## Entries -/

theorem prerequisites_insert (c : Curriculum) (n m : Node) (ms : List Node) :
    (c.insert n ms).prerequisites m = if n = m then ms else c.prerequisites m := by
  rw [prerequisites, insert, Std.TreeMap.getElem?_insert, prerequisites]
  simp only [Std.compare_eq_iff_eq]
  split <;> rfl

theorem getElem?_ofList (entries : List (Node × List Node)) (n : Node) :
    (ofList entries).table[n]? = (entries.reverse.find? (·.1 = n)).map (·.2) := by
  have key : ∀ c : Curriculum, (entries.foldl (fun c e => c.insert e.1 e.2) c).table[n]? =
      ((entries.reverse.find? (·.1 = n)).map (·.2)).or c.table[n]? := by
    induction entries with
    | nil => simp
    | cons e entries ih =>
      intro c
      rw [List.foldl_cons, ih, List.reverse_cons, List.find?_append, insert,
        Std.TreeMap.getElem?_insert]
      cases hfound : entries.reverse.find? (·.1 = n) with
      | some e' => simp
      | none => by_cases he : e.1 = n <;> simp [he]
  rw [ofList, key]
  show _ = ((entries.reverse.find? (·.1 = n)).map (·.2))
  have hempty : (∅ : Curriculum).table[n]? = none := by
    show (∅ : Std.TreeMap Node (List Node))[n]? = none
    simp
  rw [hempty, Option.or_none]

theorem mem_nodes_ofList {entries : List (Node × List Node)} :
    n ∈ (ofList entries).nodes ↔ n ∈ entries.map (·.1) := by
  rw [mem_nodes, contains, Std.TreeMap.contains_eq_isSome_getElem?, getElem?_ofList,
    Option.isSome_map, List.find?_isSome]
  simp

/-- Where keys are distinct, looking for a key finds whatever has it. -/
theorem find?_reverse_eq_some_iff {α : Type u} {key : α → Node} {l : List α}
    (distinct : (l.map key).Nodup) {x : α} :
    l.reverse.find? (key · = n) = some x ↔ x ∈ l ∧ key x = n := by
  constructor
  · intro h
    exact ⟨List.mem_reverse.1 (List.mem_of_find?_eq_some h), by simpa using List.find?_some h⟩
  · rintro ⟨hx, rfl⟩
    obtain ⟨y, hy⟩ : ∃ y, l.reverse.find? (key · = key x) = some y := by
      rw [← Option.isSome_iff_exists, List.find?_isSome]
      exact ⟨x, List.mem_reverse.2 hx, by simp⟩
    have hmem : y ∈ l := List.mem_reverse.1 (List.mem_of_find?_eq_some hy)
    have hkey : key y = key x := by simpa using List.find?_some hy
    rw [hy, List.inj_on_of_nodup_map distinct hmem hx hkey]

theorem prerequisites_ofList {entries : List (Node × List Node)}
    (distinct : (entries.map (·.1)).Nodup) {ms : List Node} (h : (n, ms) ∈ entries) :
    (ofList entries).prerequisites n = ms := by
  rw [prerequisites, getElem?_ofList, (find?_reverse_eq_some_iff distinct).2 ⟨h, rfl⟩]
  rfl

/-- The entries of concepts with the node `omitted` left out. -/
theorem mem_nodes_ofConcepts {concepts : List Concept} {omitted : Option Node} :
    n ∈ (ofConcepts concepts omitted).nodes ↔ omitted ≠ some n ∧ n ∈ concepts.map Concept.node := by
  rw [ofConcepts, mem_nodes_ofList, List.map_map]
  simp only [List.mem_map, List.mem_filter, Function.comp_apply, bne_iff_ne]
  constructor
  · rintro ⟨c, ⟨hc, hne⟩, rfl⟩
    exact ⟨hne, c, hc, rfl⟩
  · rintro ⟨hne, c, hc, rfl⟩
    exact ⟨c, ⟨hc, hne⟩, rfl⟩

theorem prerequisites_ofConcepts {concepts : List Concept} {omitted : Option Node}
    (distinct : (concepts.map Concept.node).Nodup) {c : Concept} (hc : c ∈ concepts)
    (hne : omitted ≠ some c.node) :
    (ofConcepts concepts omitted).prerequisites c.node = mentions c.text := by
  refine prerequisites_ofList ?_ ?_
  · rw [List.map_map]
    exact distinct.sublist (List.Sublist.map Concept.node List.filter_sublist)
  · exact List.mem_map.2 ⟨c, List.mem_filter.2 ⟨hc, bne_iff_ne.2 hne⟩, rfl⟩

theorem prerequisites_of_mem {concepts : List Concept}
    (distinct : (concepts.map Concept.node).Nodup) {c : Concept} (hc : c ∈ concepts) :
    (ofConcepts concepts none).prerequisites c.node = mentions c.text :=
  prerequisites_ofConcepts distinct hc (Option.some_ne_none c.node).symm

/-- What is entered for a node is what its last concept mentions, unless the node is left out. -/
theorem prerequisites_last (concepts : List Concept) (omitted : Option Node) (n : Node) :
    (ofConcepts concepts omitted).prerequisites n =
      if omitted = some n then []
      else ((concepts.reverse.find? (·.node = n)).map fun c => mentions c.text).getD [] := by
  have hfound : (concepts.filter fun c => omitted != some c.node).reverse.find? (·.node = n) =
      if omitted = some n then none else concepts.reverse.find? (·.node = n) := by
    rw [← List.filter_reverse, List.find?_filter]
    split
    next homitted =>
      refine List.find?_eq_none.2 fun c _ hc => ?_
      rw [decide_eq_true_iff, decide_eq_true_iff, bne_iff_ne] at hc
      exact hc.1 (hc.2 ▸ homitted)
    next hne =>
      congr 1
      funext c
      rw [Bool.eq_iff_iff, decide_eq_true_iff, decide_eq_true_iff, bne_iff_ne]
      exact ⟨And.right, fun h => ⟨h ▸ hne, h⟩⟩
  rw [prerequisites, ofConcepts, getElem?_ofList, ← List.map_reverse, List.find?_map,
    Option.map_map]
  show (Option.map _ (List.find? (fun c : Concept => c.node = n) _)).getD [] = _
  rw [hfound]
  split <;> rfl

/-- Whatever is entered for a node comes from one of its concepts. -/
theorem exists_of_mem_prerequisites {concepts : List Concept} {omitted : Option Node}
    (h : m ∈ (ofConcepts concepts omitted).prerequisites n) :
    ∃ c ∈ concepts, c.node = n ∧ omitted ≠ some n ∧ m ∈ mentions c.text := by
  rw [prerequisites_last] at h
  split at h
  next => cases h
  next hne =>
    cases hfound : concepts.reverse.find? (·.node = n) with
    | none => rw [hfound] at h; cases h
    | some c =>
      rw [hfound] at h
      have hc : c ∈ concepts := List.mem_reverse.1 (List.mem_of_find?_eq_some hfound)
      have hn : c.node = n := by simpa using List.find?_some hfound
      exact ⟨c, hc, hn, hne, h⟩

/-- Concepts whose texts mention nodes of lower rank only form no circle. -/
theorem acyclic_ofConcepts {concepts : List Concept} {omitted : Option Node} (rank : Node → Nat)
    (h : ∀ c ∈ concepts, ∀ m ∈ mentions c.text, rank m < rank c.node) :
    (ofConcepts concepts omitted).Acyclic := by
  have hlt : ∀ n m, (ofConcepts concepts omitted).BuildsOn n m → rank m < rank n := by
    intro n m hnm
    have hstep : ∀ n, ∀ m ∈ (ofConcepts concepts omitted).prerequisites n, rank m < rank n := by
      intro n m hm
      obtain ⟨c, hc, rfl, -, hmc⟩ := exists_of_mem_prerequisites hm
      exact h c hc m hmc
    induction hnm with
    | single hm => exact hstep _ _ hm
    | tail _ hm ih => exact Nat.lt_trans (hstep _ _ hm) ih
  exact fun n hn => Nat.lt_irrefl _ (hlt n n hn)

/-! ## Recorded ancestors -/

theorem isAncestor_of_of? {a : Ancestors} {s : Std.TreeSet Node} (h : a.of? n = some s) :
    a.isAncestor m n ↔ m ∈ s := by
  rw [Ancestors.isAncestor, h, Option.any_some, Std.TreeSet.contains_iff_mem]

/-- **What is recorded.** Whatever circles a curriculum has, there is an entry for each node that
has prerequisites or is one. It holds the direct prerequisites of the node and nothing that the
node does not build on, and all that the node builds on if no circle can be reached from it. -/
theorem ancestors_exact (c : Curriculum) :
    (∀ n, (∃ s, c.ancestors.of? n = some s) ↔ n ∈ c.nodes ∨ ∃ m, n ∈ c.prerequisites m) ∧
    ∀ n s, c.ancestors.of? n = some s →
      (∀ m ∈ c.prerequisites n, m ∈ s) ∧ (∀ m ∈ s, c.BuildsOn n m) ∧
      (c.Clear n → ∀ m, m ∈ s ↔ c.BuildsOn n m) := by
  have hknows : ∀ n, c.ancestors.knows n ↔ ∃ s, c.ancestors.of? n = some s := fun n => by
    rw [Ancestors.knows_eq_isSome, Option.isSome_iff_exists]
  refine ⟨fun n => ?_, fun n s hs => ?_⟩
  · rw [← hknows, ancestors, Links.knows_ancestors, Links.exists_reaches_iff]
    simp only [next_links]
    rfl
  · have hmem : ∀ m, c.ancestors.isAncestor m n ↔ m ∈ s := fun m => isAncestor_of_of? hs
    refine ⟨fun m hm => ?_, fun m hm => ?_, fun hclear m => ?_⟩
    · rw [← hmem]
      exact c.links.ancestors_records.direct n ((hknows n).2 ⟨s, hs⟩) m (by rwa [next_links])
    · rw [← reaches_links]
      exact Links.reaches_of_isAncestor ((hmem m).2 hm)
    · rw [← hmem, ← reaches_links]
      exact Links.isAncestor_iff_reaches (clear_links.2 hclear)

/-- Nodes 1 and 2 form a circle that node 3 builds on, and node 4 builds on none. -/
def detour : Curriculum := .ofList [(1, [2]), (2, [1]), (3, [2]), (4, [5, 6]), (5, [6])]

/-- Node 4 has all its ancestors, in spite of the circle. -/
theorem ancestors_exact_detour : detour.BuildsOn 1 1 ∧ ¬ detour.Clear 3 ∧ detour.Clear 4 ∧
    ∃ s, detour.ancestors.of? 4 = some s ∧ ∀ m, m ∈ s ↔ detour.BuildsOn 4 m := by
  have h1 : detour.BuildsOn 1 2 := .single (by decide)
  have h2 : detour.BuildsOn 2 1 := .single (by decide)
  have h3 : detour.BuildsOn 3 2 := .single (by decide)
  have clear6 : detour.Clear 6 := clear_iff_prerequisites.2 (by
    rw [show detour.prerequisites 6 = [] by decide]
    exact nofun)
  have clear5 : detour.Clear 5 := clear_iff_prerequisites.2 (by
    rw [show detour.prerequisites 5 = [6] by decide]
    simpa using clear6)
  have clear4 : detour.Clear 4 := clear_iff_prerequisites.2 (by
    rw [show detour.prerequisites 4 = [5, 6] by decide]
    simpa using ⟨clear5, clear6⟩)
  obtain ⟨hentries, hrecorded⟩ := ancestors_exact detour
  obtain ⟨s, hs⟩ := (hentries 4).2 (.inl (by decide))
  exact ⟨h1.trans h2, fun h => h 2 (.inr h3) (h2.trans h1), clear4, s, hs,
    (hrecorded 4 s hs).2.2 clear4⟩

end Curriculum

end Prereq
