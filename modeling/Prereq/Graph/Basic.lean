import Prereq.Curriculum
import Prereq.Links.Reach
import Prereq.Node.Ascending

/-!
# The graph of a curriculum

Edges lead from a prerequisite to the node that depends on it. Nodes and edges keep the order in
which they were added.

* `Graph` : nodes and edges; `Graph.addNode` and `Graph.addEdge` add what is missing;
* `Graph.ofCurriculum` : the graph of a curriculum;
* `Graph.prerequisites`, `Graph.dependents` : the neighbours of a node;
* `Graph.downstream` : some nodes and all that depend on them.
-/

namespace Prereq

/-- A directed graph on nodes, in order of addition. -/
structure Graph where
  /-- The nodes. -/
  nodes : List Node
  /-- The edges, each from a prerequisite to a dependent node. -/
  edges : List (Node × Node)
  deriving DecidableEq, Repr

namespace Graph

/-- The graph without nodes. -/
def empty : Graph := ⟨[], []⟩

instance : EmptyCollection Graph := ⟨empty⟩

instance : Inhabited Graph := ⟨∅⟩

/-- Add a node, unless it is there. -/
def addNode (g : Graph) (n : Node) : Graph :=
  if n ∈ g.nodes then g else ⟨g.nodes ++ [n], g.edges⟩

/-- Add an edge, and first its ends as nodes, unless they are there. -/
def addEdge (g : Graph) (e : Node × Node) : Graph :=
  let g := (g.addNode e.1).addNode e.2
  if e ∈ g.edges then g else ⟨g.nodes, g.edges ++ [e]⟩

/-- The edges of a curriculum, ascending by the dependent node, with repetitions. -/
def edgesOf (c : Curriculum) : List (Node × Node) :=
  c.nodes.flatMap fun n => (c.prerequisites n).map fun m => (m, n)

/-- The graph of a curriculum: its nodes in ascending order, then its edges with the nodes that
are only mentioned. -/
def ofCurriculum (c : Curriculum) : Graph :=
  (edgesOf c).foldl addEdge (c.nodes.foldl addNode ∅)

/-- Whether a node is in the graph. -/
def contains (g : Graph) (n : Node) : Bool := g.nodes.contains n

/-- The direct prerequisites of a node, in the order of the edges. -/
def prerequisites (g : Graph) (n : Node) : List Node :=
  (g.edges.filter (·.2 = n)).map (·.1)

/-- The nodes that depend directly on a node, in the order of the edges. -/
def dependents (g : Graph) (n : Node) : List Node :=
  (g.edges.filter (·.1 = n)).map (·.2)

/-- The links from each node to its dependents. -/
def links (g : Graph) : Links := ⟨g.nodes, g.dependents⟩

/-- The given nodes and all that depend on them, directly or not, ascending. -/
def downstream (g : Graph) (starts : List Node) : List Node :=
  Node.ascending (g.links.reach starts)

end Graph

end Prereq
