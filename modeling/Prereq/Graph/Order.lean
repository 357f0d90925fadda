import Prereq.Graph.Basic
import Prereq.Links.Finish

/-!
# Teaching order

* `Graph.misplaced?` : in a proposed order, a prerequisite that does not come before the node that
  needs it;
* `Graph.circleAt` : a circle that can be reached from a node, in the order of "depends on";
* `Graph.order` : the nodes with every prerequisite before its dependents, or a circle.
-/

namespace Prereq.Graph

/-- Check an order node by node, `placed` being the nodes already checked. At the first node with
a prerequisite other than itself that is not placed, the answer is the last such prerequisite. -/
def misplaced? (g : Graph) (placed : List Node) : (order : List Node) → Option Node
  | [] => none
  | n :: rest =>
    match ((g.prerequisites n).filter fun m => m ≠ n ∧ m ∉ placed).getLast? with
    | some m => some m
    | none => g.misplaced? (n :: placed) rest

/-- The circle met first by following dependents from `n`, turned round so that each node depends
on the next one; without any circle, `n` on its own. -/
def circleAt (g : Graph) (n : Node) : Circle :=
  match g.links.search [] [] n with
  | .error c => ⟨c.chain.reverse⟩
  | .ok _ => ⟨[n, n]⟩

/-- All nodes in an order in which every prerequisite comes before its dependents. If there is
none, a circle is reported. -/
def order (g : Graph) : Except Circle (List Node) :=
  match g.links.finishAll with
  | .error n => .error (g.circleAt n)
  | .ok order =>
    match g.misplaced? [] order with
    | some n => .error (g.circleAt n)
    | none => .ok order

end Prereq.Graph
