import Mathlib.Data.List.Flatten
import Prereq.Proofs.Requirement.Combination
import Prereq.Proofs.Requirement.Leaves

/-!
# What pruning leaves of the pathways

A node that is taken out of a requirement takes its leaves along and no others. Of the pathways, each
without the node, some are left: where a part of a choice goes its pathways go with it, and where a
part that is needed goes it asks for nothing any more. No pathway is new.

* `Pathway.without` : a pathway with a node taken out;
* `Pathway.Remains` : some pathways are left of others, and none only if there is nothing on these;
  both connectives keep this (`Pathway.Remains.combine`);
* `Requirement.remains_prune?` : what is left of the pathways of a requirement;
* `Requirement.prune?_leaves_old_pathways` : what pruning does to a requirement, its leaves and its
  pathways.
-/

namespace Prereq

/-! ## Remaining pathways -/

namespace Pathway

variable {ps qs xs ys : List Pathway}

/-- A pathway with a node taken out. -/
def without (n : Node) (p : Pathway) : Pathway := p.filter (· ≠ n)

theorem without_append (n : Node) (p q : Pathway) :
    without n (p ++ q) = without n p ++ without n q := List.filter_append _ _

/-- Some of the pathways `xs` are left, in their order. None are left only if there is nothing on
any of them, so that nothing is asked for where they were a factor. -/
structure Remains (ps xs : List Pathway) : Prop where
  /-- No pathway is new. -/
  sublist : ps.Sublist xs
  /-- A pathway with a node on it leaves one behind. -/
  eq_nil : ps = [] → ∀ x ∈ xs, x = []

theorem remains_nil : Remains [] [] := ⟨List.Sublist.refl [], nofun⟩

theorem Remains.append (hps : Remains ps xs) (hqs : Remains qs ys) : Remains (ps ++ qs) (xs ++ ys) where
  sublist := hps.sublist.append hqs.sublist
  eq_nil h := by
    obtain ⟨hp, hq⟩ := List.append_eq_nil_iff.1 h
    exact List.forall_mem_append.2 ⟨hps.eq_nil hp, hqs.eq_nil hq⟩

/-- A product with pathways that have nothing on them repeats the other side. -/
theorem sublist_product_right (hps : ∀ x ∈ xs, x = []) : ys.Sublist (product xs ys) := by
  cases xs with
  | nil => exact List.Sublist.refl ys
  | cons x xs =>
    by_cases hys : ys = []
    · rw [hys]
      exact List.nil_sublist _
    · rw [product_of_ne_nil (List.cons_ne_nil x xs) hys, List.flatMap_cons,
        hps x List.mem_cons_self]
      simp

theorem sublist_product_left (hys : ∀ y ∈ ys, y = []) : xs.Sublist (product xs ys) := by
  cases ys with
  | nil => rw [product_nil]
  | cons y ys =>
    by_cases hxs : xs = []
    · rw [hxs]
      exact List.nil_sublist _
    · rw [product_of_ne_nil hxs (List.cons_ne_nil y ys)]
      have hfirst : ∀ x ∈ xs, [x].Sublist ((y :: ys).map (x ++ ·)) := fun x _ => by
        rw [List.map_cons, hys y List.mem_cons_self, List.append_nil]
        exact List.singleton_sublist.2 List.mem_cons_self
      have hall := List.Sublist.flatMap_right xs hfirst
      rwa [List.flatMap_singleton'] at hall

theorem eq_nil_of_mem_product (hxs : ∀ x ∈ xs, x = []) (hys : ∀ y ∈ ys, y = []) :
    ∀ z ∈ product xs ys, z = [] := by
  by_cases hx : xs = []
  · rwa [hx, nil_product]
  by_cases hy : ys = []
  · rwa [hy, product_nil]
  intro z hz
  rw [product_of_ne_nil hx hy] at hz
  obtain ⟨x, hx, hz⟩ := List.mem_flatMap.1 hz
  obtain ⟨y, hy, rfl⟩ := List.mem_map.1 hz
  rw [hxs x hx, hys y hy, List.append_nil]

/-- If no pathways are left on one side, those that were there have nothing on them, so that the
product still holds each pathway of the other side. -/
theorem Remains.product (hps : Remains ps xs) (hqs : Remains qs ys) :
    Remains (product ps qs) (product xs ys) where
  sublist := by
    by_cases hp : ps = []
    · rw [hp, nil_product]
      exact hqs.sublist.trans (sublist_product_right (hps.eq_nil hp))
    by_cases hq : qs = []
    · rw [hq, product_nil]
      exact hps.sublist.trans (sublist_product_left (hqs.eq_nil hq))
    have hx : xs ≠ [] := fun h => hp (List.sublist_nil.1 (h ▸ hps.sublist))
    have hy : ys ≠ [] := fun h => hq (List.sublist_nil.1 (h ▸ hqs.sublist))
    rw [product_of_ne_nil hp hq, product_of_ne_nil hx hy]
    exact (hps.sublist.flatMap _).trans
      (List.Sublist.flatMap_right xs fun p _ => hqs.sublist.map (p ++ ·))
  eq_nil h := by
    obtain ⟨hp, hq⟩ := product_eq_nil_iff.1 h
    exact eq_nil_of_mem_product (hps.eq_nil hp) (hqs.eq_nil hq)

theorem Remains.combine (c : Connective) (hps : Remains ps xs) (hqs : Remains qs ys) :
    Remains (combine c ps qs) (combine c xs ys) := by
  cases c with
  | all => exact hps.product hqs
  | any => exact hps.append hqs

end Pathway

open Pathway

namespace Requirement

variable {n : Node} {r : Requirement}

/-! ## Pathways of what is left -/

theorem pathwaysOf_ofParts? (c : Connective) (parts : List Requirement) :
    pathwaysOf (ofParts? c parts) = (group c parts).pathways := by
  match parts with
  | [] => exact (pathways_group_nil c).symm
  | [p] => exact (pathways_group_singleton c p).symm
  | p :: q :: parts => rfl

/-- A part that is gone combines as no pathways at all. -/
theorem pathways_group_filterMap_cons (c : Connective) (f : Requirement → Option Requirement)
    (p : Requirement) (parts : List Requirement) :
    (group c ((p :: parts).filterMap f)).pathways =
      combine c (pathwaysOf (f p)) (group c (parts.filterMap f)).pathways := by
  cases hp : f p with
  | none => rw [List.filterMap_cons_none hp, pathwaysOf_none, nil_combine]
  | some q => rw [List.filterMap_cons_some hp, pathways_group_cons, pathwaysOf_some]

theorem remains_prune? (n : Node) (r : Requirement) :
    Remains (pathwaysOf (prune? n r)) (r.pathways.map (without n)) := by
  induction r with
  | node m =>
    by_cases hm : m = n
    · subst hm
      constructor <;> simp [without]
    · constructor <;> simp [without, hm]
  | group c parts ih =>
    rw [prune?_group, pathwaysOf_ofParts?]
    induction parts with
    | nil =>
      rw [List.filterMap_nil, pathways_group_nil]
      exact remains_nil
    | cons p parts ihparts =>
      obtain ⟨hp, hparts⟩ := List.forall_mem_cons.1 ih
      rw [pathways_group_filterMap_cons, pathways_group_cons, map_combine (without_append n)]
      exact hp.combine c (ihparts hparts)

theorem prune?_eq_none_iff : prune? n r = none ↔ ∀ m ∈ r.leaves, m = n := by
  induction r with
  | node m => by_cases hm : m = n <;> simp [hm]
  | group c parts ih =>
    rw [prune?_group, ofParts?_eq_none_iff, List.filterMap_eq_nil_iff, leaves_group,
      List.forall_mem_flatMap]
    exact forall₂_congr ih

/-- **Pruning takes out one node.** Nothing is left of a requirement just if it has no other leaf.
Otherwise its other leaves are left in their order, and each pathway is one of the old ones without
the node, the pathways being in their order too. -/
theorem prune?_leaves_old_pathways (n : Node) (r : Requirement) :
    (prune? n r = none ↔ ∀ m ∈ r.leaves, m = n) ∧
    ∀ t, prune? n r = some t → t.leaves = r.leaves.filter (· ≠ n) ∧
      (pathwaysOf (some t)).Sublist ((pathwaysOf (some r)).map (without n)) := by
  refine ⟨prune?_eq_none_iff, fun t ht => ⟨?_, ?_⟩⟩
  · have hleaves := leavesOf_prune? n r
    rwa [ht] at hleaves
  · have hremains := remains_prune? n r
    rw [ht] at hremains
    exact hremains.sublist

/-- A part that loses one of two alternatives, one that goes, and one that collapses at two levels. -/
def thicket : Requirement :=
  group .all [group .any [node 1, node 2], group .all [node 1],
    group .any [group .all [node 3, node 1], node 1]]

theorem prune?_leaves_old_pathways_thicket :
    prune? 1 thicket = some (group .all [node 2, node 3]) ∧
    thicket.leaves = [1, 2, 1, 3, 1, 1] ∧
    (group .all [node 2, node 3]).leaves = thicket.leaves.filter (· ≠ 1) ∧
    (pathwaysOf (some thicket)).map (without 1) = [[3], [], [2, 3], [2]] ∧
    (pathwaysOf (some (group .all [node 2, node 3]))).Sublist
      ((pathwaysOf (some thicket)).map (without 1)) := by
  have hpruned : prune? 1 thicket = some (group .all [node 2, node 3]) := by decide
  obtain ⟨hleaves, hpathways⟩ := (prune?_leaves_old_pathways 1 thicket).2 _ hpruned
  exact ⟨hpruned, rfl, hleaves, by decide, hpathways⟩

end Requirement

end Prereq
