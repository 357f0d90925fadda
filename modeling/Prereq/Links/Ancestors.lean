import Prereq.Ancestors
import Prereq.Links.Basic

/-!
# Ancestors along links

* `Links.collect` : enter a node, and what it leads to, into a table of ancestors;
* `Links.ancestors` : the table of all nodes that are sources or targets.

A node on the path that is being followed has no entry yet, so a link back to it adds the node
itself and nothing more. Where circles can be reached the entries may therefore be incomplete, and
then the order of the sources matters.
-/

namespace Prereq.Links

/-- Enter `n`, reached along `path`, into the table: first the nodes it leads to, then `n` with
each of them and the ancestors they have by then. Known nodes are not entered again. -/
def collect (l : Links) (path : List Node) (table : Ancestors) (n : Node) : Ancestors :=
  if table.knows n then table
  else if n ∈ path then table
  else if n ∈ l.sources then
    let table := (l.targets n).foldl (fun table m => l.collect (n :: path) table m) table
    table.insert n (table.gather (l.targets n))
  else table.insert n ∅
termination_by l.unvisited path
decreasing_by exact l.unvisited_cons_lt ‹_› ‹_›

/-- The table of all sources and targets, entered in the order of the sources. -/
def ancestors (l : Links) : Ancestors := l.sources.foldl (l.collect []) ∅

end Prereq.Links
