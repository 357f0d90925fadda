import Prereq.Proofs.Graph.Edges
import Prereq.Proofs.Mentions
import Prereq.Proofs.Requirement.Leaves

/-!
# Deleting a node

A deleted node has to go from the concepts that depend on it. The graph knows these by the last
concept of each node, and by what that concept mentions.

* `leavesOf_removeNode_sublist` : a text with a node taken out holds the other nodes at most, in
  their order;
* `deleteNode` : some concepts without a node, which is taken out of the texts of its dependents;
* `deleteNode_leaves_no_trace` : after that the graph does not contain the node, and it is neither
  mentioned in an edited text nor read from one.
-/

namespace Prereq

open Requirement (read? leavesOf)

variable {x n : Node} {concepts : List Concept}

/-! ## Texts -/

theorem leavesOf_removeNode_sublist (x : Node) (s : String) :
    (leavesOf (read? (removeNode x s))).Sublist ((leavesOf (read? s)).filter (· ≠ x)) := by
  cases hs : read? s with
  | none =>
    rw [removeNode_of_read?_eq_none hs, read?_ite_isBlank hs]
    exact List.Sublist.slnil
  | some r =>
    rw [removeNode_of_read? hs, Requirement.leavesOf_read?_render]
    apply (Requirement.leavesOf_bind_simplify?_sublist ∅ _).trans
    rw [Requirement.leavesOf_prune?]
    exact List.Sublist.refl _

/-- Nothing is left of a node that is taken out of a text. -/
theorem not_mem_removeNode (x : Node) (s : String) :
    x ∉ mentions (removeNode x s) ∧ x ∉ leavesOf (read? (removeNode x s)) := by
  have hread : x ∉ leavesOf (read? (removeNode x s)) := fun h => by
    have hmem := (leavesOf_removeNode_sublist x s).subset h
    simp at hmem
  exact ⟨fun h => hread (mem_leavesOf_of_mem_mentions h), hread⟩

/-! ## Concepts -/

/-- A concept with a node taken out of its text. -/
def Concept.remove (x : Node) (c : Concept) : Concept := ⟨c.node, c.requirement.map (removeNode x)⟩

theorem Concept.text_remove (x : Node) (c : Concept) :
    (c.remove x).text = removeNode x c.text := by
  obtain ⟨n, requirement⟩ := c
  cases requirement <;> rfl

/-- A concept once node `x` is deleted, which the given nodes depend on. -/
def Concept.update (x : Node) (dependents : List Node) (c : Concept) : Concept :=
  if c.node ∈ dependents then c.remove x else c

/-- Some concepts after node `x` is deleted. Its own ones go, and it is taken out of those of the
nodes that depend directly on it. -/
def deleteNode (x : Node) (concepts : List Concept) : List Concept :=
  (concepts.filter (·.node ≠ x)).map
    (Concept.update x ((Graph.ofCurriculum (.ofConcepts concepts none)).dependents x))

theorem Concept.node_update (x : Node) (dependents : List Node) (c : Concept) :
    (c.update x dependents).node = c.node := by
  unfold Concept.update
  split <;> rfl

/-- The last concept of another node is the one that was last before. -/
theorem find?_deleteNode (hn : n ≠ x) : (deleteNode x concepts).reverse.find? (·.node = n) =
    (concepts.reverse.find? (·.node = n)).map
      (Concept.update x ((Graph.ofCurriculum (.ofConcepts concepts none)).dependents x)) := by
  rw [deleteNode, ← List.map_reverse, List.find?_map, ← List.filter_reverse, List.find?_filter]
  congr 2
  funext c
  rw [Function.comp_apply, Concept.node_update, Bool.eq_iff_iff]
  simp only [decide_eq_true_iff]
  exact ⟨And.right, fun h => ⟨h ▸ hn, h⟩⟩

theorem not_mem_nodes_deleteNode :
    x ∉ (Curriculum.ofConcepts (deleteNode x concepts) none).nodes := by
  rw [Curriculum.mem_nodes_ofConcepts]
  rintro ⟨-, h⟩
  obtain ⟨c, hc, hx⟩ := List.mem_map.1 h
  obtain ⟨d, hd, rfl⟩ := List.mem_map.1 hc
  rw [Concept.node_update] at hx
  exact of_decide_eq_true (List.mem_filter.1 hd).2 hx

/-- If the last concept of a node mentioned `x`, the node was a dependent, and `x` has been taken
out; if not, there was nothing to take out. -/
theorem not_mem_prerequisites_deleteNode (n : Node) :
    x ∉ (Curriculum.ofConcepts (deleteNode x concepts) none).prerequisites n := by
  by_cases hn : n = x
  · subst hn
    rw [Curriculum.prerequisites_of_not_mem not_mem_nodes_deleteNode]
    exact List.not_mem_nil
  have hnone : none ≠ some n := (Option.some_ne_none n).symm
  have hlast := Curriculum.prerequisites_last concepts none n
  rw [if_neg hnone] at hlast
  rw [Curriculum.prerequisites_last, if_neg hnone, find?_deleteNode hn]
  cases hfound : concepts.reverse.find? (·.node = n) with
  | none => exact List.not_mem_nil
  | some c =>
    rw [hfound] at hlast
    have hnode : c.node = n := by simpa using List.find?_some hfound
    rw [Option.map_some, Option.map_some, Option.getD_some, Concept.update]
    by_cases hdep : c.node ∈ (Graph.ofCurriculum (.ofConcepts concepts none)).dependents x
    · rw [if_pos hdep, Concept.text_remove]
      exact (not_mem_removeNode x c.text).1
    · rw [if_neg hdep]
      rw [hnode, Graph.mem_dependents, hlast] at hdep
      exact hdep

/-- **Deleting a node leaves no trace of it.** Once it is taken out of its direct dependents, the
graph does not contain it, and no text that was edited mentions it or is read with it. -/
theorem deleteNode_leaves_no_trace (x : Node) (concepts : List Concept) :
    (Graph.ofCurriculum (.ofConcepts (deleteNode x concepts) none)).contains x = false ∧
    ∀ c ∈ concepts, c.node ∈ (Graph.ofCurriculum (.ofConcepts concepts none)).dependents x →
      x ∉ mentions (removeNode x c.text) ∧ x ∉ leavesOf (read? (removeNode x c.text)) := by
  refine ⟨?_, fun c _ _ => not_mem_removeNode x c.text⟩
  rw [Graph.contains, Bool.eq_false_iff, Ne, List.contains_iff_mem, Graph.mem_nodes_ofCurriculum]
  rintro (h | ⟨n, h⟩)
  · exact not_mem_nodes_deleteNode h
  · exact not_mem_prerequisites_deleteNode n h

/-- The second concept of node 2 stands for the first one. It mentions node 1 with a leading zero, and
holds it once more glued to a letter. -/
def revised : List Concept :=
  [⟨1, none⟩, ⟨2, some "3"⟩, ⟨2, some "01, a1 OR (3"⟩, ⟨3, some "x1 4"⟩]

theorem deleteNode_leaves_no_trace_revised :
    2 ∈ (Graph.ofCurriculum (.ofConcepts revised none)).dependents 1 ∧
    (Graph.ofCurriculum (.ofConcepts (deleteNode 1 revised) none)).contains 1 = false ∧
    1 ∉ mentions (removeNode 1 "01, a1 OR (3") ∧
    1 ∉ leavesOf (read? (removeNode 1 "01, a1 OR (3")) := by
  have hlast : (Curriculum.ofConcepts revised none).prerequisites 2 = [1, 3] := by
    rw [Curriculum.prerequisites_last, if_neg (by simp)]
    decide
  have hdependent : 2 ∈ (Graph.ofCurriculum (.ofConcepts revised none)).dependents 1 := by
    rw [Graph.mem_dependents, hlast]
    exact List.mem_cons_self
  have hmem : ⟨2, some "01, a1 OR (3"⟩ ∈ revised := by simp [revised]
  have htext : Concept.text ⟨2, some "01, a1 OR (3"⟩ = "01, a1 OR (3" := rfl
  obtain ⟨hgraph, htexts⟩ := deleteNode_leaves_no_trace 1 revised
  have hedited := htexts _ hmem hdependent
  rw [htext] at hedited
  exact ⟨hdependent, hgraph, hedited⟩

end Prereq
