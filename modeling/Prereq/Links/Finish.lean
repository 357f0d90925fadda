import Prereq.Links.Basic

/-!
# Finishing order

* `Links.finish` : walk in depth from a node and put each node before the ones it leads to;
* `Links.finishAll` : the same from every source in turn. It fails only at a node that links to
  itself; on longer circles it gives some order, in which a link leads backwards.
-/

namespace Prereq.Links

/-- Walk from `n`, reached along `path`, and put it in front of the finished nodes once all its
targets are finished or on the path, the last target first. A node that links to itself ends the
walk. -/
def finish (l : Links) (path finished : List Node) (n : Node) : Except Node (List Node) :=
  if n ∈ finished then .ok finished
  else if n ∈ path then .ok finished
  else if n ∈ l.sources then
    if n ∈ l.targets n then .error n
    else
      (n :: ·) <$> (l.targets n).reverse.foldlM (fun finished m => l.finish (n :: path) finished m)
        finished
  else .ok (n :: finished)
termination_by l.unvisited path
decreasing_by exact l.unvisited_cons_lt ‹_› ‹_›

/-- The order in which walks from all sources finish, from last to first, or the first node met
that links to itself. -/
def finishAll (l : Links) : Except Node (List Node) := l.sources.foldlM (l.finish []) []

end Prereq.Links
