import Mathlib.Data.List.Basic
import Prereq.Proofs.Requirement.Reading

/-!
# The shape of a requirement without its nodes

* `Requirement.outline` : the shape of a requirement, all nodes made one;
* `Requirement.joint_outline`, `Requirement.alternatives_outline` : what the shape decides;
* `Requirement.eq_of_outline` : the shape and the nodes in order are all there is;
* `Requirement.exists_read?` : a shape that is read from some text is read with any nodes.
-/

namespace Prereq.Requirement

variable {c : Connective} {r x y : Requirement} {parts : List Requirement}

/-- The shape of a requirement: all nodes are made one. -/
def outline (r : Requirement) : Requirement := r.mapNodes fun _ => 0

theorem outline_group (c : Connective) (parts : List Requirement) :
    (group c parts).outline = group c (parts.map outline) := mapNodes_group _ c parts

theorem outline_mapNodes (f : Node → Node) (r : Requirement) :
    (r.mapNodes f).outline = r.outline := by
  induction r with
  | node n => rfl
  | group c parts ih =>
    rw [mapNodes_group, outline_group, outline_group, List.map_map]
    exact congrArg (group c) (List.map_congr_left ih)

theorem joint_outline : r.outline.Joint ↔ r.Joint := by
  induction r with
  | node n => exact iff_of_true (joint_node 0) (joint_node n)
  | group c parts ih =>
    rw [outline_group]
    cases c with
    | all =>
      rw [joint_all, joint_all, List.forall_mem_map]
      exact forall₂_congr ih
    | any => exact iff_of_false not_joint_any not_joint_any

theorem alternatives_outline : r.outline.Alternatives ↔ r.Alternatives := by
  induction r with
  | node n => exact iff_of_true (alternatives_node 0) (alternatives_node n)
  | group c parts ih =>
    rw [outline_group]
    cases c with
    | all =>
      rw [alternatives_all, alternatives_all, List.forall_mem_map]
      exact forall₂_congr fun p _ => joint_outline
    | any =>
      rw [alternatives_any, alternatives_any, List.forall_mem_map]
      exact forall₂_congr ih

/-! ## Shape and nodes -/

theorem leaves_mapNodes (f : Node → Node) (r : Requirement) :
    (r.mapNodes f).leaves = r.leaves.map f := by
  induction r with
  | node n => rfl
  | group c parts ih =>
    rw [mapNodes_group, leaves_group, leaves_group, List.flatMap_map, List.map_flatMap]
    exact List.flatMap_congr ih

theorem length_leaves_eq (h : x.outline = y.outline) : x.leaves.length = y.leaves.length := by
  have hlen : ∀ r : Requirement, r.outline.leaves.length = r.leaves.length := fun r => by
    rw [outline, leaves_mapNodes, List.length_map]
  rw [← hlen x, h, hlen y]

theorem eq_of_outline (h : x.outline = y.outline) (hleaves : x.leaves = y.leaves) : x = y := by
  induction x generalizing y with
  | node n =>
    cases y with
    | node k => exact congrArg node (List.singleton_inj.1 hleaves)
    | group d qs =>
      rw [outline_group] at h
      cases h
  | group c ps ih =>
    cases y with
    | node k =>
      rw [outline_group] at h
      cases h
    | group d qs =>
      rw [outline_group, outline_group] at h
      rw [leaves_group, leaves_group] at hleaves
      obtain ⟨rfl, hparts⟩ := group.inj h
      clear h
      -- The parts have as many nodes each, so that the nodes of the group split in the same way.
      refine congrArg (group c) ?_
      induction ps generalizing qs with
      | nil => exact (List.map_eq_nil_iff.1 hparts.symm).symm
      | cons p ps ihps =>
        cases qs with
        | nil => cases hparts
        | cons q qs =>
          obtain ⟨hp, hps⟩ := List.cons.inj hparts
          rw [List.flatMap_cons, List.flatMap_cons] at hleaves
          obtain ⟨hpleaves, hpsleaves⟩ := List.append_inj hleaves (length_leaves_eq hp)
          rw [ih p List.mem_cons_self hp hpleaves,
            ihps (fun p' hp' => ih p' (List.mem_cons_of_mem p hp')) qs hpsleaves hps]

/-! ## Reading a shape with other nodes -/

theorem leavesOf_read? (s : String) : leavesOf (read? s) = Token.nodes (Token.scan s.toList) := by
  rw [read?, leavesOf_ofTokens?, Token.ofText, Token.nodes_limitNesting]

/-- The nodes of a text can be replaced by any others, wherever they stand. -/
theorem exists_read? {s : String} (h : (read? s).map outline = some y.outline) :
    ∃ s', read? s' = some y := by
  obtain ⟨x, hx, hout⟩ := Option.map_eq_some_iff.1 h
  have hlen : y.leaves.length = (Token.nodes (Token.scan s.toList)).length := by
    rw [← leavesOf_read?, hx]
    exact (length_leaves_eq hout).symm
  obtain ⟨us, hnodes, hkinds⟩ := Token.exists_nodes _ _ hlen
  have hread : read? (String.ofList (Token.write us)) = ofTokens? (Token.limitNesting us) := by
    rw [read?, String.toList_ofList, Token.ofText, Token.scan_write]
  have houtline : (ofTokens? (Token.limitNesting us)).map outline = some y.outline :=
    calc (ofTokens? (Token.limitNesting us)).map outline
        = ofTokens? (Token.limitNesting (us.map (Token.mapNode fun _ => 0))) := by
          rw [Token.limitNesting_map, ofTokens?_map]
          rfl
      _ = (read? s).map outline := by
          rw [hkinds, Token.limitNesting_map, ofTokens?_map]
          rfl
      _ = some y.outline := h
  obtain ⟨z, hz, hzy⟩ := Option.map_eq_some_iff.1 houtline
  have hleaves : z.leaves = y.leaves := by
    have hall := leavesOf_ofTokens? (Token.limitNesting us)
    rwa [hz, Token.nodes_limitNesting, hnodes] at hall
  exact ⟨_, hread.trans (hz.trans (congrArg some (eq_of_outline hzy hleaves)))⟩

end Prereq.Requirement
