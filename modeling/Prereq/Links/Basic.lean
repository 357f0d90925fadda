import Prereq.Node

/-!
# Links between nodes

* `Links` : a finite directed relation on nodes, as a list of targets for each source;
* `Links.next` : the targets of a node, in order;
* `Links.unvisited` : how many sources a walk has not visited, which bounds its depth
  (`unvisited_cons_lt`).
-/

namespace Prereq

/-- A finite directed relation on nodes. -/
structure Links where
  /-- The nodes that may have targets. -/
  sources : List Node
  /-- The targets of a source, in order; for other nodes the value plays no part. -/
  targets : Node → List Node

namespace Links

/-- The targets of a node; a node that is no source has none. -/
def next (l : Links) (n : Node) : List Node := if n ∈ l.sources then l.targets n else []

/-- The number of sources that are not among the visited nodes. -/
def unvisited (l : Links) (visited : List Node) : Nat :=
  (l.sources.filter (· ∉ visited)).length

theorem length_filter_cons_le (visited sources : List Node) (n : Node) :
    (sources.filter (· ∉ n :: visited)).length ≤ (sources.filter (· ∉ visited)).length := by
  rw [← List.countP_eq_length_filter, ← List.countP_eq_length_filter]
  exact List.countP_mono_left fun m _ h => by simp_all

theorem length_filter_cons_lt {visited sources : List Node} {n : Node} (source : n ∈ sources)
    (new : n ∉ visited) :
    (sources.filter (· ∉ n :: visited)).length < (sources.filter (· ∉ visited)).length := by
  induction sources with
  | nil => cases source
  | cons m sources ih =>
    by_cases hm : m = n
    · subst hm
      rw [List.filter_cons_of_neg (by simp), List.filter_cons_of_pos (by simpa using new),
        List.length_cons]
      exact Nat.lt_succ_of_le (length_filter_cons_le visited sources m)
    · have hlt := ih ((List.mem_cons.1 source).resolve_left (Ne.symm hm))
      by_cases hv : m ∈ visited
      · rwa [List.filter_cons_of_neg (by simp [hv]), List.filter_cons_of_neg (by simp [hv])]
      · rw [List.filter_cons_of_pos (by simp [hm, hv]), List.filter_cons_of_pos (by simpa using hv),
          List.length_cons, List.length_cons]
        exact Nat.succ_lt_succ hlt

/-- Visiting a further node leaves no more sources unvisited. -/
theorem unvisited_cons_le (l : Links) (visited : List Node) (n : Node) :
    l.unvisited (n :: visited) ≤ l.unvisited visited :=
  length_filter_cons_le visited l.sources n

/-- Visiting a new source leaves one source less unvisited. -/
theorem unvisited_cons_lt (l : Links) {visited : List Node} {n : Node} (source : n ∈ l.sources)
    (new : n ∉ visited) : l.unvisited (n :: visited) < l.unvisited visited :=
  length_filter_cons_lt source new

end Links

end Prereq
