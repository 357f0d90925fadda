import Prereq.Links.Basic

/-!
# What can be reached

* `Links.reachFrom` : take nodes from a queue, each new one adding its targets at the end;
* `Links.reach` : the given nodes and all that links lead to from them.
-/

namespace Prereq.Links

/-- The nodes seen so far, with those that the queue still leads to. -/
def reachFrom (l : Links) (seen : List Node) : (queue : List Node) → List Node
  | [] => seen
  | n :: queue =>
    if n ∈ seen then l.reachFrom seen queue
    else if n ∈ l.sources then l.reachFrom (n :: seen) (queue ++ l.targets n)
    else l.reachFrom (n :: seen) queue
termination_by queue => (l.unvisited seen, queue.length)
decreasing_by
  · exact Prod.Lex.right _ (by simp)
  · exact Prod.Lex.left _ _ (l.unvisited_cons_lt ‹_› ‹_›)
  · rcases Nat.lt_or_eq_of_le (l.unvisited_cons_le seen n) with h | h
    · exact Prod.Lex.left _ _ h
    · rw [h]
      exact Prod.Lex.right _ (by simp)

/-- The nodes that can be reached from some nodes, these included. -/
def reach (l : Links) (starts : List Node) : List Node := l.reachFrom [] starts

end Prereq.Links
