import Prereq.Graph.Basic
import Prereq.Proofs.Curriculum

/-!
# The edges of a curriculum's graph

* `Graph.mem_nodes_ofCurriculum`, `Graph.mem_edges_ofCurriculum` : the graph has the nodes of the
  curriculum with those that are only mentioned, and an edge for every direct prerequisite;
* `Graph.mem_prerequisites`, `Graph.mem_next_links` : the neighbours of a node;
* `Graph.acyclic_links_iff` : the links from nodes to their dependents are acyclic just if the
  curriculum is.
-/

namespace Prereq.Graph

variable {g : Graph} {c : Curriculum} {n m k : Node} {e d : Node × Node}

/-! ## Adding nodes and edges -/

theorem mem_nodes_addNode : k ∈ (g.addNode n).nodes ↔ k ∈ g.nodes ∨ k = n := by
  unfold addNode
  split
  next h => exact ⟨.inl, fun hk => hk.elim id fun hk => hk ▸ h⟩
  next h => simp

@[simp] theorem edges_addNode : (g.addNode n).edges = g.edges := by
  unfold addNode
  split <;> rfl

theorem mem_nodes_addEdge : k ∈ (g.addEdge e).nodes ↔ k ∈ g.nodes ∨ k = e.1 ∨ k = e.2 := by
  have hends : k ∈ ((g.addNode e.1).addNode e.2).nodes ↔ k ∈ g.nodes ∨ k = e.1 ∨ k = e.2 := by
    rw [mem_nodes_addNode, mem_nodes_addNode, or_assoc]
  simp only [addEdge]
  split
  next h => exact hends
  next h => exact hends

theorem mem_edges_addEdge : d ∈ (g.addEdge e).edges ↔ d ∈ g.edges ∨ d = e := by
  simp only [addEdge, edges_addNode]
  split
  next h =>
    rw [edges_addNode, edges_addNode]
    exact ⟨.inl, fun hd => hd.elim id fun hd => hd ▸ h⟩
  next h => simp

theorem mem_nodes_foldl_addNode (ns : List Node) :
    k ∈ (ns.foldl addNode g).nodes ↔ k ∈ g.nodes ∨ k ∈ ns := by
  induction ns generalizing g with
  | nil => simp
  | cons n ns ih => rw [List.foldl_cons, ih, mem_nodes_addNode, List.mem_cons, or_assoc]

theorem edges_foldl_addNode (ns : List Node) : (ns.foldl addNode g).edges = g.edges := by
  induction ns generalizing g with
  | nil => rfl
  | cons n ns ih => rw [List.foldl_cons, ih, edges_addNode]

theorem mem_nodes_foldl_addEdge (es : List (Node × Node)) :
    k ∈ (es.foldl addEdge g).nodes ↔ k ∈ g.nodes ∨ ∃ e ∈ es, k = e.1 ∨ k = e.2 := by
  induction es generalizing g with
  | nil => simp
  | cons e es ih => rw [List.foldl_cons, ih, mem_nodes_addEdge, List.exists_mem_cons_iff, or_assoc]

theorem mem_edges_foldl_addEdge (es : List (Node × Node)) :
    d ∈ (es.foldl addEdge g).edges ↔ d ∈ g.edges ∨ d ∈ es := by
  induction es generalizing g with
  | nil => simp
  | cons e es ih => rw [List.foldl_cons, ih, mem_edges_addEdge, List.mem_cons, or_assoc]

/-! ## The graph of a curriculum -/

theorem mem_edgesOf : e ∈ edgesOf c ↔ e.1 ∈ c.prerequisites e.2 := by
  unfold edgesOf
  rw [List.mem_flatMap]
  constructor
  · rintro ⟨n, -, hn⟩
    obtain ⟨m, hm, rfl⟩ := List.mem_map.1 hn
    exact hm
  · intro h
    exact ⟨e.2, Curriculum.mem_nodes_of_mem_prerequisites h, List.mem_map.2 ⟨e.1, h, rfl⟩⟩

theorem mem_edges_ofCurriculum : e ∈ (ofCurriculum c).edges ↔ e.1 ∈ c.prerequisites e.2 := by
  unfold ofCurriculum
  rw [mem_edges_foldl_addEdge, edges_foldl_addNode, mem_edgesOf]
  exact or_iff_right List.not_mem_nil

/-- The nodes of the graph are those of the curriculum and those that are only mentioned. -/
theorem mem_nodes_ofCurriculum :
    k ∈ (ofCurriculum c).nodes ↔ k ∈ c.nodes ∨ ∃ n, k ∈ c.prerequisites n := by
  unfold ofCurriculum
  rw [mem_nodes_foldl_addEdge, mem_nodes_foldl_addNode]
  constructor
  · rintro ((hk | hk) | ⟨e, he, rfl | rfl⟩)
    · cases hk
    · exact .inl hk
    · exact .inr ⟨e.2, mem_edgesOf.1 he⟩
    · exact .inl (Curriculum.mem_nodes_of_mem_prerequisites (mem_edgesOf.1 he))
  · rintro (hk | ⟨n, hn⟩)
    · exact .inl (.inr hk)
    · exact .inr ⟨(k, n), mem_edgesOf.2 hn, .inl rfl⟩

theorem mem_prerequisites : m ∈ (ofCurriculum c).prerequisites n ↔ m ∈ c.prerequisites n := by
  unfold prerequisites
  simp [mem_edges_ofCurriculum]

theorem mem_dependents : n ∈ (ofCurriculum c).dependents m ↔ m ∈ c.prerequisites n := by
  unfold dependents
  simp [mem_edges_ofCurriculum]

theorem mem_next_links : n ∈ (ofCurriculum c).links.next m ↔ m ∈ c.prerequisites n := by
  by_cases hm : m ∈ (ofCurriculum c).links.sources
  · rw [Links.next_of_mem hm]
    exact mem_dependents
  · rw [Links.next_of_not_mem hm]
    refine iff_of_false List.not_mem_nil fun h => hm ?_
    exact mem_nodes_ofCurriculum.2 (.inr ⟨n, h⟩)

theorem mem_nodes_of_mem_next (h : n ∈ (ofCurriculum c).links.next m) :
    n ∈ (ofCurriculum c).nodes :=
  mem_nodes_ofCurriculum.2
    (.inl (Curriculum.mem_nodes_of_mem_prerequisites (mem_next_links.1 h)))

/-- Dependents are prerequisites the other way round. -/
theorem reaches_links : (ofCurriculum c).links.Reaches m n ↔ c.BuildsOn n m := by
  unfold Links.Reaches Curriculum.BuildsOn Links.Step
  simp only [mem_next_links]
  exact Relation.transGen_swap

theorem acyclic_links_iff : (ofCurriculum c).links.Acyclic ↔ c.Acyclic :=
  forall_congr' fun _ => not_congr reaches_links

end Prereq.Graph
