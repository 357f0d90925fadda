import Mathlib.Logic.Function.Basic
import Prereq.Proofs.Graph.Neighbours

/-!
# Adjacency lists

A graph may be kept as one list for each node, in which its prerequisites and its dependents stand
mixed, in the order in which the edges came.

* `Adjacency` : such lists, with `Adjacency.addNode` and `Adjacency.addEdge` and, for the lists of a
  curriculum, `Adjacency.ofCurriculum`; an edge from a node to itself is entered once;
* `Adjacency.neighbours` : the neighbours of a node on one side;
* `Adjacency.Represents` : the lists hold what a graph holds, kept by each addition;
* `Graph.ofCurriculum_faithful` : what the graph of a curriculum holds, read from either.
-/

namespace Prereq

/-- On which side of a node a neighbour stands. -/
inductive Side where
  /-- The neighbour is a prerequisite of the node. -/
  | before
  /-- The neighbour depends on the node. -/
  | after
  deriving DecidableEq, Repr

/-- A graph that keeps, for each node, one list of its neighbours on both sides. -/
structure Adjacency where
  /-- The nodes, in order of addition. -/
  nodes : List Node
  /-- The edges, in order of addition. -/
  edges : List (Node × Node)
  /-- The neighbours of a node, each with its side, in order of addition. -/
  entries : Node → List (Node × Side)

namespace Adjacency

/-! ## Adding nodes and edges -/

/-- The lists without any node. -/
def empty : Adjacency := ⟨[], [], fun _ => []⟩

/-- Add a node with an empty list, unless it is there. -/
def addNode (a : Adjacency) (n : Node) : Adjacency :=
  if n ∈ a.nodes then a else ⟨a.nodes ++ [n], a.edges, a.entries⟩

/-- Enter a neighbour at the end of the list of `n`, which is added if it is not there. -/
def enter (a : Adjacency) (n : Node) (x : Node × Side) : Adjacency :=
  let a := a.addNode n
  ⟨a.nodes, a.edges, Function.update a.entries n (a.entries n ++ [x])⟩

/-- Enter the ends of an edge into each other's list. The end of an edge from a node to itself is
entered once. -/
def enterEnds (a : Adjacency) (e : Node × Node) : Adjacency :=
  let a := a.enter e.1 (e.2, .after)
  if e.1 = e.2 then a else a.enter e.2 (e.1, .before)

/-- Add an edge, unless it is there. -/
def addEdge (a : Adjacency) (e : Node × Node) : Adjacency :=
  if a.edges.contains e then a
  else
    let b := a.enterEnds e
    ⟨b.nodes, b.edges ++ [e], b.entries⟩

/-- The lists of a curriculum: its nodes in ascending order, and then, for each of them, the edges
from its prerequisites. -/
def ofCurriculum (c : Curriculum) : Adjacency :=
  (Graph.edgesOf c).foldl addEdge (c.nodes.foldl addNode empty)

/-- The neighbours of a node on one side; the node itself is a neighbour on both. -/
def neighbours (a : Adjacency) (s : Side) (n : Node) : List Node :=
  ((a.entries n).filter fun x => x.2 = s || x.1 = n).map (·.1)

end Adjacency

namespace Adjacency

variable {a : Adjacency} {g : Graph} {e : Node × Node} {n : Node}

@[simp] theorem edges_addNode : (a.addNode n).edges = a.edges := by
  unfold addNode
  split <;> rfl

@[simp] theorem entries_addNode : (a.addNode n).entries = a.entries := by
  unfold addNode
  split <;> rfl

@[simp] theorem edges_enter (x : Node × Side) : (a.enter n x).edges = a.edges := edges_addNode

@[simp] theorem entries_enter (x : Node × Side) :
    (a.enter n x).entries = Function.update a.entries n (a.entries n ++ [x]) := by
  simp [enter]

/-! ## What the lists hold -/

/-- What an edge enters into the list of a node. -/
def entryOf? (n : Node) (e : Node × Node) : Option (Node × Side) :=
  if e.1 = n then some (e.2, .after) else if e.2 = n then some (e.1, .before) else none

/-- The nodes and the edges are those of a graph, to which the ends of its edges belong, and each
list holds what the edges enter into it. -/
structure Represents (a : Adjacency) (g : Graph) : Prop where
  nodes : a.nodes = g.nodes
  edges : a.edges = g.edges
  entries : ∀ n, a.entries n = g.edges.filterMap (entryOf? n)
  ends : ∀ e ∈ g.edges, e.1 ∈ g.nodes ∧ e.2 ∈ g.nodes

theorem represents_empty : empty.Represents ∅ := ⟨rfl, rfl, fun _ => rfl, nofun⟩

theorem nodes_addNode (h : a.nodes = g.nodes) (n : Node) :
    (a.addNode n).nodes = (g.addNode n).nodes := by
  unfold addNode Graph.addNode
  rw [h]
  split
  · exact h
  · rfl

theorem Represents.addNode (h : a.Represents g) (n : Node) :
    (a.addNode n).Represents (g.addNode n) where
  nodes := nodes_addNode h.nodes n
  edges := by rw [edges_addNode, Graph.edges_addNode, h.edges]
  entries k := by rw [entries_addNode, Graph.edges_addNode, h.entries]
  ends := by
    intro e he
    rw [Graph.edges_addNode] at he
    obtain ⟨hfrom, hto⟩ := h.ends e he
    exact ⟨Graph.mem_nodes_addNode.2 (.inl hfrom), Graph.mem_nodes_addNode.2 (.inl hto)⟩

theorem nodes_enterEnds (h : a.nodes = g.nodes) (e : Node × Node) :
    (a.enterEnds e).nodes = ((g.addNode e.1).addNode e.2).nodes := by
  have hfrom : (a.enter e.1 (e.2, .after)).nodes = (g.addNode e.1).nodes := nodes_addNode h e.1
  simp only [enterEnds]
  split
  next hloop =>
    have hmem : e.2 ∈ (g.addNode e.1).nodes := Graph.mem_nodes_addNode.2 (.inr hloop.symm)
    rw [Graph.addNode_of_mem hmem]
    exact hfrom
  next => exact nodes_addNode hfrom e.2

theorem edges_enterEnds (e : Node × Node) : (a.enterEnds e).edges = a.edges := by
  simp only [enterEnds]
  split <;> simp

/-- Into the list of its start an edge enters its end, and into that of its end, if this is another
node, its start. -/
theorem entries_enterEnds (e : Node × Node) (n : Node) :
    (a.enterEnds e).entries n = a.entries n ++ (entryOf? n e).toList := by
  simp only [enterEnds, entryOf?]
  split
  next hloop =>
    rw [entries_enter, Function.update_apply]
    split <;> grind
  next hloop =>
    rw [entries_enter, entries_enter, Function.update_apply, Function.update_apply]
    split <;> grind

theorem Represents.addEdge (h : a.Represents g) (e : Node × Node) :
    (a.addEdge e).Represents (g.addEdge e) := by
  have hedges : a.edges.contains e ↔ e ∈ g.edges := by rw [List.contains_iff_mem, h.edges]
  by_cases he : e ∈ g.edges
  · obtain ⟨hfrom, hto⟩ := h.ends e he
    rw [Graph.addEdge_of_mem hfrom hto he, Adjacency.addEdge, if_pos (hedges.2 he)]
    exact h
  · rw [Graph.addEdge_of_not_mem he, Adjacency.addEdge, if_neg (mt hedges.1 he)]
    refine ⟨nodes_enterEnds h.nodes e, ?_, fun n => ?_, fun d hd => ?_⟩
    · show (a.enterEnds e).edges ++ [e] = g.edges ++ [e]
      rw [edges_enterEnds, h.edges]
    · show (a.enterEnds e).entries n = _
      rw [entries_enterEnds, h.entries, List.filterMap_append]
      cases hx : entryOf? n e <;> simp [hx]
    · rw [Graph.mem_nodes_addNode, Graph.mem_nodes_addNode, Graph.mem_nodes_addNode,
        Graph.mem_nodes_addNode]
      rcases List.mem_append.1 hd with hd | hd
      · obtain ⟨hfrom, hto⟩ := h.ends d hd
        exact ⟨.inl (.inl hfrom), .inl (.inl hto)⟩
      · obtain rfl := List.mem_singleton.1 hd
        exact ⟨.inl (.inr rfl), .inr rfl⟩

theorem represents_ofCurriculum (c : Curriculum) :
    (ofCurriculum c).Represents (Graph.ofCurriculum c) := by
  have hnodes : (c.nodes.foldl addNode empty).Represents (c.nodes.foldl Graph.addNode ∅) :=
    List.foldl_rel represents_empty fun n _ _ _ h => h.addNode n
  exact List.foldl_rel hnodes fun e _ _ _ h => h.addEdge e

/-! ## Reading the lists -/

/-- The entries on the side before a node come from the edges that end there. -/
theorem Represents.neighbours_before (h : a.Represents g) (n : Node) :
    a.neighbours .before n = g.prerequisites n := by
  rw [neighbours, h.entries, Graph.prerequisites]
  induction g.edges with
  | nil => rfl
  | cons e es ih =>
    by_cases hfrom : e.1 = n <;> by_cases hto : e.2 = n <;>
      simp [entryOf?, hfrom, hto, ih]

/-- The entries on the side after a node come from the edges that start there. -/
theorem Represents.neighbours_after (h : a.Represents g) (n : Node) :
    a.neighbours .after n = g.dependents n := by
  rw [neighbours, h.entries, Graph.dependents]
  induction g.edges with
  | nil => rfl
  | cons e es ih =>
    by_cases hfrom : e.1 = n <;> by_cases hto : e.2 = n <;>
      simp [entryOf?, hfrom, hto, ih]

end Adjacency

/-! ## The graph of a curriculum -/

namespace Graph

/-- **The graph is the curriculum.** Its nodes are those that have an entry, in ascending order, and
then those that are only mentioned. The prerequisites of a node are those of the curriculum without
later repeats, in their order, and its dependents are the nodes that have it among their
prerequisites, in strictly ascending order; a node that needs itself is on both sides. There is an
edge for each pair of a prerequisite and a node that has it. The same nodes, edges and neighbours
are read from adjacency lists. -/
theorem ofCurriculum_faithful (c : Curriculum) :
    (∀ n, (ofCurriculum c).contains n ↔ n ∈ c.nodes ∨ ∃ m, n ∈ c.prerequisites m) ∧
    (ofCurriculum c).nodes =
      c.nodes ++ ((c.nodes.flatMap c.prerequisites).filter (· ∉ c.nodes)).eraseDups ∧
    (∀ n, (ofCurriculum c).prerequisites n = (c.prerequisites n).eraseDups) ∧
    (∀ n, (ofCurriculum c).dependents n = c.nodes.filter (n ∈ c.prerequisites ·) ∧
      ((ofCurriculum c).dependents n).Pairwise (· < ·)) ∧
    (∀ n, (n ∈ (ofCurriculum c).prerequisites n ∧ n ∈ (ofCurriculum c).dependents n) ↔
      n ∈ c.prerequisites n) ∧
    (ofCurriculum c).edges.length = Set.ncard {e : Node × Node | e.1 ∈ c.prerequisites e.2} ∧
    (Adjacency.ofCurriculum c).nodes = (ofCurriculum c).nodes ∧
    (Adjacency.ofCurriculum c).edges = (ofCurriculum c).edges ∧
    (∀ n, (Adjacency.ofCurriculum c).neighbours .before n = (ofCurriculum c).prerequisites n ∧
      (Adjacency.ofCurriculum c).neighbours .after n = (ofCurriculum c).dependents n) := by
  have hlists := Adjacency.represents_ofCurriculum c
  refine ⟨fun n => ?_, nodes_ofCurriculum c, prerequisites_ofCurriculum c,
    fun n => ⟨dependents_ofCurriculum c n, ?_⟩, fun n => ?_, length_edges_ofCurriculum c,
    hlists.nodes, hlists.edges,
    fun n => ⟨hlists.neighbours_before n, hlists.neighbours_after n⟩⟩
  · rw [contains, List.contains_iff_mem, mem_nodes_ofCurriculum]
  · rw [dependents_ofCurriculum]
    exact c.pairwise_nodes.filter _
  · rw [mem_prerequisites, mem_dependents, and_self]

/-- A repeated prerequisite, one without an entry, and a node that needs itself. -/
example :
    let g := ofCurriculum (Curriculum.ofList [(2, [2, 9, 2, 1]), (1, [2])])
    g.nodes = [1, 2, 9] ∧ g.prerequisites 2 = [2, 9, 1] ∧ g.dependents 2 = [1, 2] ∧
      g.edges.length = 4 := by decide +kernel

end Graph

end Prereq
