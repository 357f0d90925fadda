import Prereq.Links.Basic

/-!
# Circles

* `Circle` : a chain of nodes that leads back to its first node, with its message;
* `Links.search` : the search from a node in depth, which ends at the first circle it meets;
* `Links.checkFrom` : the check that no circle can be reached from a node.
-/

namespace Prereq

/-- A chain of nodes that closes; the first node is also the last. -/
structure Circle where
  /-- The nodes of the chain. -/
  chain : List Node
  deriving DecidableEq, Repr

namespace Circle

/-- The node where the chain closes. -/
def entry? (c : Circle) : Option Node := c.chain.head?

/-- The chain in words. -/
def message (c : Circle) : String :=
  "circular prerequisite chain: " ++ String.intercalate " -> " (c.chain.map Node.numeral)

/-- The circle that `n` closes on a path, given from its end back to its start. -/
def close (path : List Node) (n : Node) : Circle :=
  ⟨n :: (path.takeWhile (· ≠ n)).reverse ++ [n]⟩

end Circle

namespace Links

/-- Search for a circle from `n`, reached along `path` (from its end back to its start). The
answer is the circle met first, or else the finished nodes: those from which every link has been
followed without meeting one. Finished nodes are not searched again. -/
def search (l : Links) (path finished : List Node) (n : Node) : Except Circle (List Node) :=
  if n ∈ finished then .ok finished
  else if n ∈ path then .error (Circle.close path n)
  else if n ∈ l.sources then
    (n :: ·) <$> (l.targets n).foldlM (fun finished m => l.search (n :: path) finished m) finished
  else .ok (n :: finished)
termination_by l.unvisited path
decreasing_by exact l.unvisited_cons_lt ‹_› ‹_›

/-- Check that no circle can be reached from `n`; the first one met is the error. -/
def checkFrom (l : Links) (n : Node) : Except Circle Unit := (fun _ => ()) <$> l.search [] [] n

end Links

end Prereq
