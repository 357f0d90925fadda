import Prereq.Node
import Std.Data.TreeMap
import Std.Data.TreeSet

/-!
# Ancestor tables

* `Ancestors` : for each known node, the nodes recorded as its ancestors;
* `Ancestors.ofList`, `Ancestors.insert` : tables made entry by entry, a later entry replacing an
  earlier one of the same node;
* `Ancestors.of?` : the set recorded for a node; `Ancestors.gather` : some nodes and all that is
  recorded for them;
* `Ancestors.covers` : whether meeting one node entails having met another.
-/

namespace Prereq

/-- For each known node, a set of ancestors. -/
structure Ancestors where
  /-- The sets by node. -/
  table : Std.TreeMap Node (Std.TreeSet Node)

namespace Ancestors

/-- The table without entries. -/
def empty : Ancestors := ⟨∅⟩

instance : EmptyCollection Ancestors := ⟨empty⟩

instance : Inhabited Ancestors := ⟨∅⟩

/-- Two tables are equal if they know the same nodes with the same ancestors. -/
instance : BEq Ancestors := ⟨fun a b => a.table == b.table⟩

/-- Record the ancestors of `n`, in place of those recorded before. -/
def insert (a : Ancestors) (n : Node) (ancestors : Std.TreeSet Node) : Ancestors :=
  ⟨a.table.insert n ancestors⟩

/-- The table with the given entries. -/
def ofList (entries : List (Node × List Node)) : Ancestors :=
  entries.foldl (fun a e => a.insert e.1 (Std.TreeSet.ofList e.2)) ∅

/-- The number of known nodes. -/
def size (a : Ancestors) : Nat := a.table.size

/-- The ancestors recorded for `n`; `none` for an unknown node. -/
def of? (a : Ancestors) (n : Node) : Option (Std.TreeSet Node) := a.table[n]?

/-- The known nodes are those with a set of ancestors, be it empty. -/
def knows (a : Ancestors) (n : Node) : Bool := a.table.contains n

/-- Some nodes together with the ancestors recorded for them. -/
def gather (a : Ancestors) (ns : List Node) : Std.TreeSet Node :=
  ns.foldl (fun found n => (found.insert n).insertMany ((a.of? n).getD ∅)) ∅

/-- Whether `m` is recorded as an ancestor of `n`. -/
def isAncestor (a : Ancestors) (m n : Node) : Bool := (a.of? n).any (·.contains m)

/-- Whether meeting `m` entails having met `n`: it is the same node or an ancestor. -/
def covers (a : Ancestors) (m n : Node) : Bool := n == m || a.isAncestor n m

end Ancestors

end Prereq
