import Prereq.Proofs.Graph.Edges
import Prereq.Proofs.Links.Reach
import Prereq.Proofs.Links.Search

/-!
# What depends on a node

* `Graph.mem_downstream` : what is found to depend on some nodes are these and all that builds on one
  of them;
* `Graph.downstream_exact` : compared with the table of ancestors.

Both follow the prerequisites, the one from a node to what needs it and the other one back. The table
stops short around circles, so that a node may depend on one that is not recorded for it.
-/

namespace Prereq.Graph

variable {c : Curriculum} {starts : List Node} {n m : Node}

theorem mem_downstream : n ∈ (ofCurriculum c).downstream starts ↔
    n ∈ starts ∨ ∃ m ∈ starts, c.BuildsOn n m := by
  unfold downstream
  rw [Node.mem_ascending, Links.mem_reach]
  simp only [reaches_links]
  constructor
  · rintro ⟨m, hm, rfl | hnm⟩
    · exact .inl hm
    · exact .inr ⟨m, hm, hnm⟩
  · rintro (hn | ⟨m, hm, hnm⟩)
    · exact ⟨n, hn, .inl rfl⟩
    · exact ⟨m, hm, .inr hnm⟩

/-- **What depends on a node.** The nodes found for some given ones are these and all that builds on
them, in ascending order. For a single node, everything it is recorded for as an ancestor is among
them; and of the nodes from which no circle can be reached there are no others. -/
theorem downstream_exact (c : Curriculum) :
    (∀ starts, ((ofCurriculum c).downstream starts).Pairwise (· < ·) ∧
      ∀ n, n ∈ (ofCurriculum c).downstream starts ↔
        n ∈ starts ∨ ∃ m ∈ starts, c.BuildsOn n m) ∧
    (∀ n m, c.ancestors.isAncestor m n → n ∈ (ofCurriculum c).downstream [m]) ∧
    ∀ n m, c.Clear n → n ∈ (ofCurriculum c).downstream [m] → n = m ∨ c.ancestors.isAncestor m n := by
  have hsingle : ∀ n m, n ∈ (ofCurriculum c).downstream [m] ↔ n = m ∨ c.BuildsOn n m := by
    intro n m
    simp only [mem_downstream, List.mem_singleton, exists_eq_left]
  refine ⟨fun starts => ⟨Node.pairwise_ascending _, fun n => mem_downstream⟩, fun n m h => ?_,
    fun n m hclear h => ?_⟩
  · exact (hsingle n m).2 (.inr (Curriculum.reaches_links.1 (Links.reaches_of_isAncestor h)))
  · refine ((hsingle n m).1 h).imp_right fun hnm => ?_
    exact (Links.isAncestor_iff_reaches (Curriculum.clear_links.2 hclear)).2
      (Curriculum.reaches_links.2 hnm)

/-- Nodes 1, 2 and 3 form a circle that builds on node 6, and so does node 4 without a circle. -/
def estuary : Curriculum := .ofList [(1, [2]), (2, [3]), (3, [1, 6]), (4, [5]), (5, [6])]

/-- Node 6 is recorded for node 4. Node 3 depends on node 2, which is not recorded for it. -/
theorem downstream_exact_estuary : estuary.Clear 4 ∧ 4 ∈ (ofCurriculum estuary).downstream [6] ∧
    estuary.ancestors.isAncestor 6 4 ∧ 3 ∈ (ofCurriculum estuary).downstream [2] ∧
    ¬ estuary.ancestors.isAncestor 2 3 := by
  have hclear : estuary.Clear 4 :=
    Curriculum.clear_links.1 (Links.checkFrom_eq_ok_iff.1 (by decide +kernel))
  obtain ⟨hfound, -, hrecorded⟩ := downstream_exact estuary
  have h5 : estuary.BuildsOn 4 5 := .single (by decide)
  have h4 : 4 ∈ (ofCurriculum estuary).downstream [6] :=
    ((hfound [6]).2 4).2 (.inr ⟨6, List.mem_singleton_self 6, h5.tail (by decide)⟩)
  have h1 : estuary.BuildsOn 3 1 := .single (by decide)
  have h3 : 3 ∈ (ofCurriculum estuary).downstream [2] :=
    ((hfound [2]).2 3).2 (.inr ⟨2, List.mem_singleton_self 2, h1.tail (by decide)⟩)
  exact ⟨hclear, h4, (hrecorded 4 6 hclear h4).resolve_left (by decide), h3, by decide +kernel⟩

end Prereq.Graph
