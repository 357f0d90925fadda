import Prereq.Node
import Std.Data.TreeSet

/-!
# Nodes in ascending order

* `Node.ascending` : the distinct nodes of a list, ascending (`mem_ascending`,
  `pairwise_ascending`).
-/

namespace Prereq.Node

/-- The distinct nodes of a list in ascending order. -/
def ascending (ns : List Node) : List Node := (Std.TreeSet.ofList ns).toList

theorem mem_ascending {n : Node} {ns : List Node} : n ∈ ascending ns ↔ n ∈ ns := by
  simp [ascending, Std.TreeSet.mem_toList, Std.TreeSet.mem_ofList]

theorem pairwise_ascending (ns : List Node) : (ascending ns).Pairwise (· < ·) :=
  (Std.TreeSet.ordered_toList (t := Std.TreeSet.ofList ns)).imp Std.compare_eq_lt.1

end Prereq.Node
