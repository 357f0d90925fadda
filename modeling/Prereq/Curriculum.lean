import Prereq.Links.Ancestors
import Prereq.Links.Circle
import Prereq.Mention

/-!
# Curricula

* `Concept` : a node with the text of its requirement;
* `Curriculum` : the direct prerequisites of each node, made from a list (`Curriculum.ofList`) or
  from concepts (`Curriculum.ofConcepts`);
* `Curriculum.links` : the links from a node to its prerequisites;
* `Curriculum.ancestors` : what each node builds on, directly or not;
* `Curriculum.checkEdit` : whether new prerequisites of a node would close a circle.
-/

namespace Prereq

/-- A node with the text of its requirement, if it has one. -/
structure Concept where
  /-- The node itself. -/
  node : Node
  /-- Its requirement as typed. -/
  requirement : Option String
  deriving DecidableEq, Repr

/-- The text of the requirement; a concept without one has the empty text. -/
def Concept.text (c : Concept) : String := c.requirement.getD ""

/-- The direct prerequisites of nodes. -/
structure Curriculum where
  /-- The prerequisites by node, in order and with repetitions. -/
  table : Std.TreeMap Node (List Node)

namespace Curriculum

/-- The curriculum without nodes. -/
def empty : Curriculum := ⟨∅⟩

instance : EmptyCollection Curriculum := ⟨empty⟩

instance : Inhabited Curriculum := ⟨∅⟩

/-- Two curricula are equal if they have the same nodes with the same lists of prerequisites. -/
instance : BEq Curriculum := ⟨fun a b => a.table == b.table⟩

/-- Give a node its prerequisites, in place of those it had. -/
def insert (c : Curriculum) (n : Node) (prerequisites : List Node) : Curriculum :=
  ⟨c.table.insert n prerequisites⟩

/-- The curriculum with the given entries, a later one replacing an earlier one of its node. -/
def ofList (entries : List (Node × List Node)) : Curriculum :=
  entries.foldl (fun c e => c.insert e.1 e.2) ∅

/-- The curriculum of some concepts: each builds on the nodes that its text mentions. The node
`omitted` is left out. -/
def ofConcepts (concepts : List Concept) (omitted : Option Node) : Curriculum :=
  ofList ((concepts.filter fun c => omitted != some c.node).map fun c => (c.node, mentions c.text))

/-- The number of nodes that have an entry. -/
def size (c : Curriculum) : Nat := c.table.size

/-- Whether a node has an entry. -/
def contains (c : Curriculum) (n : Node) : Bool := c.table.contains n

/-- The direct prerequisites of a node; a node without an entry has none. -/
def prerequisites (c : Curriculum) (n : Node) : List Node := (c.table[n]?).getD []

/-- The nodes that have an entry, ascending. -/
def nodes (c : Curriculum) : List Node := c.table.keys

/-- The entries, ascending by node. -/
def toList (c : Curriculum) : List (Node × List Node) := c.table.toList

/-- The links from each node to its prerequisites. -/
def links (c : Curriculum) : Links := ⟨c.nodes, c.prerequisites⟩

/-- What each node builds on, directly or not. -/
def ancestors (c : Curriculum) : Ancestors := c.links.ancestors

/-- Whether node `n` could be given these prerequisites: a circle that could be reached from `n`
then is reported. -/
def checkEdit (c : Curriculum) (n : Node) (prerequisites : List Node) : Except Circle Unit :=
  (c.insert n prerequisites).links.checkFrom n

end Curriculum

end Prereq
