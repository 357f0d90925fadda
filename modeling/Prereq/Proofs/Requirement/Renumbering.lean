import Prereq.Proofs.Links.Ancestors
import Prereq.Proofs.Requirement.Leaves
import Prereq.Proofs.Requirement.NormalForm
import Prereq.Proofs.Requirement.Outline

/-!
# Simplification of renumbered requirements

Simplification asks of nodes only which ones cover which. Where other nodes take the place of those
of a requirement and cover each other as they do, the same is dropped and the same stays.

* `Requirement.splice_mapNodes`, `Connective.redundant_mapNodes`, `Requirement.ofParts?_mapNodes` :
  the steps of simplification on renumbered parts;
* `Requirement.simplify?_mapNodes` : the whole of it;
* `Requirement.simplify?_congr` : two tables that agree on the nodes of a requirement;
* `Ancestors.mapNodes` : a table with its nodes renumbered (`Ancestors.of?_mapNodes`);
* `Requirement.simplify?_renumbered` : the requirement and the table renumbered together.
-/

namespace Prereq

variable {f : Node → Node} {a b : Ancestors} {c : Connective} {x y r : Requirement}
  {parts : List Requirement}

/-! ## One group -/

theorem Connective.redundant_mapNodes
    (h : ∀ n ∈ x.leaves ++ y.leaves, ∀ m ∈ x.leaves ++ y.leaves,
      b.covers (f n) (f m) = a.covers n m) :
    c.redundant b (x.mapNodes f) (y.mapNodes f) = c.redundant a x y := by
  have hx : ∀ n ∈ x.leaves, n ∈ x.leaves ++ y.leaves := fun n => List.mem_append_left y.leaves
  have hy : ∀ n ∈ y.leaves, n ∈ x.leaves ++ y.leaves := fun n => List.mem_append_right x.leaves
  rw [Bool.eq_iff_iff]
  cases c with
  | all =>
    rw [redundant_all_iff, redundant_all_iff, Requirement.leaves_mapNodes,
      Requirement.leaves_mapNodes, List.forall_mem_map]
    refine forall₂_congr fun n hn => ?_
    simp only [List.mem_map, exists_exists_and_eq_and]
    refine exists_congr fun m => and_congr_right fun hm => ?_
    rw [h m (hy m hm) n (hx n hn)]
  | any =>
    rw [redundant_any_iff, redundant_any_iff, Requirement.leaves_mapNodes,
      Requirement.leaves_mapNodes, List.forall_mem_map]
    refine forall₂_congr fun m hm => ?_
    simp only [List.mem_map, exists_exists_and_eq_and]
    refine exists_congr fun n => and_congr_right fun hn => ?_
    rw [h n (hx n hn) m (hy m hm)]

namespace Requirement

theorem splice_mapNodes (f : Node → Node) (c : Connective) (parts : List Requirement) :
    splice c (parts.map (mapNodes f)) = (splice c parts).map (mapNodes f) := by
  rw [splice, splice, List.flatMap_map, List.map_flatMap]
  apply List.flatMap_congr
  intro p _
  cases p with
  | node n => rfl
  | group d inner => by_cases hd : d = c <;> simp [hd]

theorem ofParts?_mapNodes (f : Node → Node) (c : Connective) (parts : List Requirement) :
    ofParts? c (parts.map (mapNodes f)) = (ofParts? c parts).map (mapNodes f) := by
  match parts with
  | [] => rfl
  | [p] => rfl
  | p :: q :: parts => simp [ofParts?]

/-- The leaves of the operands of a group are leaves of the group. -/
theorem leaves_subset_of_mem_operands {q : Requirement} (hq : q ∈ operands a c parts) :
    q.leaves ⊆ (group c parts).leaves := by
  have hsub : ((operands a c parts).flatMap leaves).Sublist (group c parts).leaves := by
    rw [operands, flatMap_leaves_splice, flatMap_leaves_filterMap, leaves_group]
    exact List.Sublist.flatMap_right parts fun p _ => leavesOf_simplify?_sublist a p
  intro n hn
  exact hsub.subset (List.mem_flatMap.2 ⟨q, hq, hn⟩)

/-! ## The whole requirement -/

/-- The nodes that take the place of others are simplified as these are, if they cover each other
as these do. -/
theorem simplify?_mapNodes
    (h : ∀ n ∈ r.leaves, ∀ m ∈ r.leaves, b.covers (f n) (f m) = a.covers n m) :
    simplify? b (r.mapNodes f) = (simplify? a r).map (mapNodes f) := by
  induction r with
  | node n => rfl
  | group c parts ih =>
    have hparts : ∀ p ∈ parts, simplify? b (p.mapNodes f) = (simplify? a p).map (mapNodes f) := by
      intro p hp
      have hsub : ∀ n ∈ p.leaves, n ∈ (group c parts).leaves := fun n hn => by
        rw [leaves_group]
        exact List.mem_flatMap.2 ⟨p, hp, hn⟩
      exact ih p hp fun n hn m hm => h n (hsub n hn) m (hsub m hm)
    have hops : operands b c (parts.map (mapNodes f)) = (operands a c parts).map (mapNodes f) := by
      rw [operands, List.filterMap_map, operands, ← splice_mapNodes, List.map_filterMap]
      exact congrArg (splice c) (List.filterMap_congr hparts)
    have hredundant : ∀ x ∈ operands a c parts, ∀ y ∈ operands a c parts,
        c.redundant b (x.mapNodes f) (y.mapNodes f) = c.redundant a x y := by
      intro x hx y hy
      have hsub := List.append_subset.2
        ⟨leaves_subset_of_mem_operands hx, leaves_subset_of_mem_operands hy⟩
      exact Connective.redundant_mapNodes fun n hn m hm => h n (hsub hn) m (hsub hm)
    have hstay : survivors (c.redundant b) [] ((operands a c parts).map (mapNodes f)) =
        (survivors (c.redundant a) [] (operands a c parts)).map (mapNodes f) := by
      calc survivors (c.redundant b) ([].map (mapNodes f)) ((operands a c parts).map (mapNodes f))
          = (survivors (fun x y => c.redundant b (x.mapNodes f) (y.mapNodes f)) []
              (operands a c parts)).map (mapNodes f) := survivors_map _ _ _ _
        _ = (survivors (c.redundant a) [] (operands a c parts)).map (mapNodes f) := by
          rw [survivors_congr hredundant]
    rw [mapNodes_group, simplify?_group_eq, hops, hstay, ofParts?_mapNodes, simplify?_group_eq]

theorem mapNodes_id (r : Requirement) : r.mapNodes id = r := by
  induction r with
  | node n => rfl
  | group c parts ih =>
    have hparts : parts.map (mapNodes id) = parts.map id := List.map_congr_left ih
    rw [mapNodes_group, hparts, List.map_id]

/-- Only what the nodes of a requirement cover among each other matters. -/
theorem simplify?_congr (h : ∀ n ∈ r.leaves, ∀ m ∈ r.leaves, b.covers n m = a.covers n m) :
    simplify? b r = simplify? a r := by
  have hid : (mapNodes id : Requirement → Requirement) = id := funext mapNodes_id
  have hsame := simplify?_mapNodes (f := id) h
  rwa [hid, Option.map_id, id, id] at hsame

theorem bind_simplify?_congr (o : Option Requirement)
    (h : ∀ n ∈ leavesOf o, ∀ m ∈ leavesOf o, b.covers n m = a.covers n m) :
    o.bind (simplify? b) = o.bind (simplify? a) := by
  cases o with
  | none => rfl
  | some r => exact simplify?_congr h

end Requirement

/-! ## Renumbered tables -/

namespace Ancestors

/-- The table with other nodes in the place of those it knows and of their ancestors. -/
def mapNodes (f : Node → Node) (a : Ancestors) : Ancestors :=
  ⟨.ofList (a.table.toList.map fun e => (f e.1, Std.TreeSet.ofList (e.2.toList.map f)))⟩

variable (hf : Function.Injective f)

include hf

/-- A node that takes the place of another has its entry, with all ancestors renumbered. -/
theorem of?_mapNodes (a : Ancestors) (n : Node) :
    (a.mapNodes f).of? (f n) = (a.of? n).map fun s => Std.TreeSet.ofList (s.toList.map f) := by
  cases hn : a.of? n with
  | some s =>
    refine Std.TreeMap.getElem?_ofList_of_mem (Std.compare_eq_iff_eq.2 rfl) ?_ ?_
    · -- Different keys stay different.
      refine List.pairwise_map.2 (Std.TreeMap.distinct_keys_toList.imp fun h heq => h ?_)
      exact Std.compare_eq_iff_eq.2 (hf (Std.compare_eq_iff_eq.1 heq))
    · exact List.mem_map.2 ⟨(n, s), Std.TreeMap.mem_toList_iff_getElem?_eq_some.2 hn, rfl⟩
  | none =>
    refine Std.TreeMap.getElem?_ofList_of_contains_eq_false ?_
    rw [List.map_map, List.contains_eq_mem, decide_eq_false_iff_not, List.mem_map]
    rintro ⟨⟨m, s⟩, hmem, hm⟩
    obtain rfl : m = n := hf hm
    have hs : a.of? m = some s := Std.TreeMap.mem_toList_iff_getElem?_eq_some.1 hmem
    rw [hn] at hs
    cases hs

theorem isAncestor_mapNodes (a : Ancestors) (m n : Node) :
    (a.mapNodes f).isAncestor (f m) (f n) = a.isAncestor m n := by
  rw [isAncestor, of?_mapNodes hf, Option.any_map, isAncestor]
  refine congrArg (Option.any · (a.of? n)) (funext fun s => ?_)
  rw [Std.TreeSet.contains_ofList, Bool.eq_iff_iff, List.contains_iff_mem,
    List.mem_map_of_injective hf, Std.TreeSet.mem_toList, Std.TreeSet.contains_iff_mem]

theorem covers_mapNodes (a : Ancestors) (n m : Node) :
    (a.mapNodes f).covers (f n) (f m) = a.covers n m := by
  rw [Bool.eq_iff_iff, covers_iff, covers_iff, isAncestor_mapNodes hf, hf.eq_iff]

end Ancestors

namespace Requirement

/-- Numbers do not matter: where a requirement and the table are renumbered together, so is what is
left of the requirement. -/
theorem simplify?_renumbered (hf : Function.Injective f) (a : Ancestors) (r : Requirement) :
    simplify? (a.mapNodes f) (r.mapNodes f) = (simplify? a r).map (mapNodes f) :=
  simplify?_mapNodes fun n _ m _ => a.covers_mapNodes hf n m

/-- The order of the nodes is reversed. A nested group is spliced in, one with a single part
collapses, and ancestors are dropped from both kinds of groups. -/
theorem simplify?_renumbered_reversed :
    let f : Node → Node := fun n => ~~~n
    let a : Ancestors := .ofList [(3, [1, 2]), (5, [3, 1, 2])]
    let r := group .all [.node 1, .group .all [.node 3, .group .any [.node 5]],
      .group .any [.node 3, .node 2, .node 9]]
    simplify? a r = some (.group .all [.node 5, .group .any [.node 2, .node 9]]) ∧
    simplify? (a.mapNodes f) (r.mapNodes f) =
      some (.group .all [.node (~~~5), .group .any [.node (~~~2), .node (~~~9)]]) := by
  intro f a r
  have hf : Function.Injective f := fun _ _ => UInt64.not_inj.1
  have hr : simplify? a r = some (.group .all [.node 5, .group .any [.node 2, .node 9]]) := by
    decide
  refine ⟨hr, ?_⟩
  rw [simplify?_renumbered hf, hr]
  rfl

end Requirement

end Prereq
