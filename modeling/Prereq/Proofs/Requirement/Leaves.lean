import Mathlib.Data.List.Flatten
import Prereq.Proofs.Requirement.NormalForm
import Prereq.Proofs.Requirement.Reading
import Prereq.Requirement.Edit

/-!
# The leaves of what an edit leaves

Splicing, and replacing a group of one part by that part, keep the leaves of a requirement in their
order. So all that can go is what is taken out on purpose.

* `Requirement.leavesOf_simplify?_sublist` : simplification drops leaves, and does not move any;
* `Requirement.simplify?_content` : it never drops all of them, so that no group has to fall back on
  its first operand;
* `Requirement.leavesOf_prune?` : taking out a node takes out all its leaves and no others.
-/

namespace Prereq.Requirement

theorem leavesOf_ofParts? (c : Connective) (parts : List Requirement) :
    leavesOf (ofParts? c parts) = parts.flatMap leaves := by
  match parts with
  | [] => rfl
  | [p] => simp [ofParts?, leavesOf]
  | p :: q :: parts => simp [ofParts?, leavesOf]

theorem flatMap_leaves_splice (c : Connective) (parts : List Requirement) :
    (splice c parts).flatMap leaves = parts.flatMap leaves := by
  rw [splice, List.flatMap_assoc]
  apply List.flatMap_congr
  intro p _
  cases p with
  | node n => simp
  | group d inner => by_cases hd : d = c <;> simp [hd]

/-- The leaves of parts that may be gone. -/
theorem flatMap_leaves_filterMap (f : Requirement → Option Requirement)
    (parts : List Requirement) :
    (parts.filterMap f).flatMap leaves = parts.flatMap fun p => leavesOf (f p) := by
  rw [List.filterMap_eq_flatMap_toList, List.flatMap_assoc]
  apply List.flatMap_congr
  intro p _
  cases f p with
  | none => rfl
  | some q => exact List.flatMap_singleton leaves q

theorem leavesOf_simplify?_sublist (a : Ancestors) (r : Requirement) :
    (leavesOf (simplify? a r)).Sublist r.leaves := by
  induction r with
  | node n => exact List.Sublist.refl [n]
  | group c parts ih =>
    have hstay := survivors_sublist (c.redundant a) [] (splice c (parts.filterMap (simplify? a)))
    have hdrop := hstay.flatMap leaves
    rw [flatMap_leaves_splice, flatMap_leaves_filterMap] at hdrop
    rw [simplify?_group, leavesOf_ofParts?, leaves_group]
    exact hdrop.trans (List.Sublist.flatMap_right parts ih)

theorem leavesOf_bind_simplify?_sublist (a : Ancestors) (r : Option Requirement) :
    (leavesOf (r.bind (simplify? a))).Sublist (leavesOf r) := by
  cases r with
  | none => exact List.Sublist.slnil
  | some r => exact leavesOf_simplify?_sublist a r

theorem leaves_ne_nil_of_simplify? {a : Ancestors} {r t : Requirement}
    (h : simplify? a r = some t) : t.leaves ≠ [] :=
  (canonical_of_simplify? h).filled.leaves_ne_nil

/-- **Content is kept.** Whatever a table of ancestors records, something is left of every
requirement that has a leaf, and the leaves that are left stand in their order. No group loses all
its operands to each other: to fall back on the first operand in that case would change nothing. -/
theorem simplify?_content (a : Ancestors) :
    (∀ r, simplify? a r = none ↔ r.leaves = []) ∧
    (∀ r, r.leaves ≠ [] →
      ∃ t, simplify? a r = some t ∧ t.leaves ≠ [] ∧ t.leaves.Sublist r.leaves) ∧
    (∀ (c : Connective) ops, survivors (c.redundant a) [] ops = [] ↔ ops = []) ∧
    ∀ c parts,
      let ops := operands a c parts
      let kept := survivors (c.redundant a) [] ops
      simplify? a (.group c parts) = if kept.isEmpty then ops.head? else ofParts? c kept := by
  refine ⟨fun r => simplify?_eq_none_iff, fun r hr => ?_, fun c ops => survivors_eq_nil_iff,
    fun c parts => ?_⟩
  · obtain ⟨t, ht⟩ := Option.ne_none_iff_exists'.1 (mt simplify?_eq_none_iff.1 hr)
    have hsublist := leavesOf_simplify?_sublist a r
    rw [ht] at hsublist
    exact ⟨t, ht, leaves_ne_nil_of_simplify? ht, hsublist⟩
  · intro ops kept
    rw [simplify?_group_eq]
    split
    next hempty =>
      have hkept : kept = [] := List.isEmpty_iff.1 hempty
      have hops : ops = [] := survivors_eq_nil_iff.1 hkept
      show ofParts? c kept = ops.head?
      rw [hkept, hops]
      rfl
    next => rfl

/-- Three nodes of which each has the next one as its ancestor, among them a group without nodes. -/
def roundabout : Requirement :=
  .group .all [.node 1, .node 2, .group .any [.group .all []], .node 3]

/-- Each of the nodes is redundant beside another one, and yet one of them stays. -/
theorem simplify?_content_roundabout :
    let a : Ancestors := .ofList [(1, [2]), (2, [3]), (3, [1])]
    Connective.all.redundant a (.node 1) (.node 3) ∧ Connective.all.redundant a (.node 2) (.node 1) ∧
    Connective.all.redundant a (.node 3) (.node 2) ∧ roundabout.leaves ≠ [] ∧
    (∃ t, simplify? a roundabout = some t ∧ t.leaves ≠ [] ∧ t.leaves.Sublist roundabout.leaves) ∧
    simplify? a roundabout = some (.node 2) := by
  intro a
  have hleaves : roundabout.leaves ≠ [] := by decide
  exact ⟨by decide, by decide, by decide, hleaves,
    (simplify?_content a).2.1 roundabout hleaves, by decide⟩

theorem leavesOf_prune? (n : Node) (r : Requirement) :
    leavesOf (prune? n r) = r.leaves.filter (· ≠ n) := by
  induction r with
  | node m => by_cases hm : m = n <;> simp [hm, leavesOf]
  | group c parts ih =>
    rw [prune?_group, leavesOf_ofParts?, flatMap_leaves_filterMap, leaves_group,
      List.filter_flatMap]
    exact List.flatMap_congr ih

end Prereq.Requirement
