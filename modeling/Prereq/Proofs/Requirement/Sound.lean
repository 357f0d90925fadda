import Prereq.Proofs.Curriculum
import Prereq.Proofs.Requirement.NormalForm

/-!
# Simplification of alternatives is sound

In a requirement whose alternatives are nodes or groups that need all their parts, the operands of
every group are needed jointly once they have been simplified. Then redundancy is an implication
between operands, and a set of nodes that respects the ancestors meets the simplified requirement
just if it meets the given one.

* `Connective.redundant_sound` : what redundancy says about operands that are needed jointly;
* `Requirement.holds_survivors` : the pass drops nothing that matters;
* `Requirement.simplify?_sound` : the whole requirement, for any table of ancestors.

The ancestors of a curriculum are such a table for its closed sets, circles or not.
-/

namespace Prereq

variable {V : Node → Prop} {a : Ancestors} {c : Connective}

/-- Covering node by node is an implication if the covering part is needed jointly. -/
theorem Requirement.Joint.holds_of_covers {x y : Requirement} (hV : a.Respected V)
    (hy : y.Joint) (hx : x.Filled) (h : ∀ n ∈ x.leaves, ∃ m ∈ y.leaves, a.covers m n)
    (holds : y.Holds V) : x.Holds V := by
  refine hx.holds fun n hn => ?_
  obtain ⟨m, hm, hmn⟩ := h n hn
  exact hV m n hmn (hy.holds_iff.1 holds m hm)

/-- Under AND a redundant part follows from the other one, and under OR the other one follows
from it. -/
theorem Connective.redundant_sound {x y : Requirement} (hV : a.Respected V)
    (hx : x.Joint ∧ x.Filled) (hy : y.Joint ∧ y.Filled) (h : c.redundant a x y) :
    (c = .all → y.Holds V → x.Holds V) ∧ (c = .any → x.Holds V → y.Holds V) := by
  constructor
  · rintro rfl
    exact hy.1.holds_of_covers hV hx.2 (redundant_all_iff.1 h)
  · rintro rfl
    exact hx.1.holds_of_covers hV hy.2 (redundant_any_iff.1 h)

namespace Requirement

theorem holds_survivors {ops : List Requirement} (hV : a.Respected V)
    (hops : ∀ x ∈ ops, x.Joint ∧ x.Filled) :
    (group c (survivors (c.redundant a) [] ops)).Holds V ↔ (group c ops).Holds V := by
  cases c with
  | all =>
    rw [holds_all, holds_all]
    constructor
    · refine forall_of_survivors fun x hx y hy h => ?_
      exact (Connective.redundant_sound hV (hops x hx) (hops y hy) h).1 rfl
    · exact fun h x hx => h x (mem_of_mem_survivors hx)
  | any =>
    rw [holds_any, holds_any]
    refine ⟨fun h => ?_, fun h => ?_⟩
    · obtain ⟨x, hx, hxV⟩ := h
      exact ⟨x, mem_of_mem_survivors hx, hxV⟩
    · obtain ⟨x, hx, hxV⟩ := h
      by_contra hnone
      -- If nothing that stays holds, then nothing that was dropped does.
      have hfails : ∀ y ∈ ops, ¬ y.Holds V := by
        refine forall_of_survivors (fun y hy z hz h hzV hyV => hzV ?_)
          fun y hy hyV => hnone ⟨y, hy, hyV⟩
        exact (Connective.redundant_sound hV (hops y hy) (hops z hz) h).2 rfl hyV
      exact hfails x hx hxV

/-- Parts that keep their meaning keep that of the group. -/
theorem holds_filterMap {f : Requirement → Option Requirement} {parts : List Requirement}
    (h : ∀ p ∈ parts, ∃ t, f p = some t ∧ (t.Holds V ↔ p.Holds V)) :
    (group c (parts.filterMap f)).Holds V ↔ (group c parts).Holds V := by
  cases c with
  | all =>
    rw [holds_all, holds_all]
    constructor
    · intro hall p hp
      obtain ⟨t, ht, hiff⟩ := h p hp
      exact hiff.1 (hall t (List.mem_filterMap.2 ⟨p, hp, ht⟩))
    · intro hall t ht
      obtain ⟨p, hp, hpt⟩ := List.mem_filterMap.1 ht
      obtain ⟨t', ht', hiff⟩ := h p hp
      cases hpt.symm.trans ht'
      exact hiff.2 (hall p hp)
  | any =>
    rw [holds_any, holds_any]
    refine ⟨fun h => ?_, fun h => ?_⟩
    · obtain ⟨t, ht, htV⟩ := h
      obtain ⟨p, hp, hpt⟩ := List.mem_filterMap.1 ht
      obtain ⟨t', ht', hiff⟩ := h p hp
      cases hpt.symm.trans ht'
      exact ⟨p, hp, hiff.1 htV⟩
    · obtain ⟨p, hp, hpV⟩ := h
      obtain ⟨t, ht, hiff⟩ := h p hp
      exact ⟨t, List.mem_filterMap.2 ⟨p, hp, ht⟩, hiff.2 hpV⟩

theorem exists_simplify? {r : Requirement} (h : r.Filled) : ∃ t, simplify? a r = some t := by
  rw [← Option.ne_none_iff_exists']
  exact fun hnone => h.leaves_ne_nil (simplify?_eq_none_iff.1 hnone)

/-! ## Shapes that simplification keeps -/

theorem joint_of_simplify? {r t : Requirement} (hr : r.Joint) (h : simplify? a r = some t) :
    t.Joint := by
  induction r generalizing t with
  | node n =>
    rw [simplify?_node, Option.some.injEq] at h
    exact h ▸ joint_node n
  | group c parts ih =>
    cases c with
    | any => exact absurd hr not_joint_any
    | all =>
      have hops : ∀ q ∈ operands a .all parts, q.Joint := by
        intro q hq
        obtain ⟨p, hp, t, hpt, ⟨-, rfl⟩ | ⟨inner, rfl, hq⟩⟩ := mem_operands.1 hq
        · exact ih p hp (joint_all.1 hr p hp) hpt
        · exact joint_all.1 (ih p hp (joint_all.1 hr p hp) hpt) q hq
      rw [simplify?_group_eq] at h
      rcases ofParts?_eq_some_iff.1 h with hone | ⟨-, rfl⟩
      · exact hops t (mem_of_mem_survivors (hone ▸ List.mem_singleton_self t))
      · exact joint_all.2 fun q hq => hops q (mem_of_mem_survivors hq)

theorem alternatives_of_simplify? {r t : Requirement} (hr : r.Alternatives)
    (h : simplify? a r = some t) : t.Alternatives := by
  induction r generalizing t with
  | node n =>
    rw [simplify?_node, Option.some.injEq] at h
    exact h ▸ alternatives_node n
  | group c parts ih =>
    cases c with
    | all => exact (joint_of_simplify? (joint_all.2 (alternatives_all.1 hr)) h).alternatives
    | any =>
      have hops : ∀ q ∈ operands a .any parts, q.Alternatives := by
        intro q hq
        obtain ⟨p, hp, t, hpt, ⟨-, rfl⟩ | ⟨inner, rfl, hq⟩⟩ := mem_operands.1 hq
        · exact ih p hp (alternatives_any.1 hr p hp) hpt
        · exact alternatives_any.1 (ih p hp (alternatives_any.1 hr p hp) hpt) q hq
      rw [simplify?_group_eq] at h
      rcases ofParts?_eq_some_iff.1 h with hone | ⟨-, rfl⟩
      · exact hops t (mem_of_mem_survivors (hone ▸ List.mem_singleton_self t))
      · exact alternatives_any.2 fun q hq => hops q (mem_of_mem_survivors hq)

/-- The operands of a group are needed jointly: under AND nothing else may stand there, and under
OR the alternatives of a part have taken its place. -/
theorem joint_of_mem_operands {parts : List Requirement} {q : Requirement}
    (h : (group c parts).Alternatives) (hq : q ∈ operands a c parts) : q.Joint := by
  have hq' := (canonical_of_mem_operands' hq).1
  obtain ⟨p, hp, t, hpt, ht⟩ := mem_operands.1 hq
  cases c with
  | all =>
    have hjoint := joint_of_simplify? (alternatives_all.1 h p hp) hpt
    rcases ht with ⟨-, rfl⟩ | ⟨inner, rfl, hq⟩
    · exact hjoint
    · exact joint_all.1 hjoint q hq
  | any =>
    have halt := alternatives_of_simplify? (alternatives_any.1 h p hp) hpt
    rcases ht with ⟨-, rfl⟩ | ⟨inner, rfl, hq⟩
    · exact halt.joint hq'
    · exact (alternatives_any.1 halt q hq).joint hq'

theorem Alternatives.part {parts : List Requirement} {p : Requirement}
    (h : (group c parts).Alternatives) (hp : p ∈ parts) : p.Alternatives :=
  fun qs hw => h qs (.part hp hw)

/-! ## Soundness -/

theorem simplify?_sound {r t : Requirement} (hV : a.Respected V) (filled : r.Filled)
    (flat : r.Alternatives) (h : simplify? a r = some t) : t.Holds V ↔ r.Holds V := by
  induction r generalizing t with
  | node n =>
    rw [simplify?_node, Option.some.injEq] at h
    rw [← h]
  | group c parts ih =>
    have hparts : ∀ p ∈ parts, ∃ t, simplify? a p = some t ∧ (t.Holds V ↔ p.Holds V) := by
      intro p hp
      have hp' := (filled_group.1 filled).2 p hp
      obtain ⟨t, ht⟩ := exists_simplify? (a := a) hp'
      exact ⟨t, ht, ih p hp hp' (flat.part hp) ht⟩
    have hops : ∀ q ∈ operands a c parts, q.Joint ∧ q.Filled := fun q hq =>
      ⟨joint_of_mem_operands flat hq, (canonical_of_mem_operands' hq).2.filled⟩
    rw [simplify?_group_eq] at h
    calc t.Holds V
        ↔ (group c (survivors (c.redundant a) [] (operands a c parts))).Holds V :=
          holds_of_ofParts? h
      _ ↔ (group c (operands a c parts)).Holds V := holds_survivors hV hops
      _ ↔ (group c (parts.filterMap (simplify? a))).Holds V := holds_splice
      _ ↔ (group c parts).Holds V := holds_filterMap hparts

/-- **Alternatives keep their meaning.** Whatever a curriculum looks like, a set of nodes that
holds the prerequisites of its members meets the simplified requirement just if it meets the
requirement. -/
theorem simplify?_faithful (c : Curriculum) (r : Requirement) (filled : r.Filled)
    (flat : r.Alternatives) (V : Node → Prop) (hV : c.Closed V) :
    ∃ t, simplify? c.ancestors r = some t ∧ (t.Holds V ↔ r.Holds V) := by
  obtain ⟨t, ht⟩ := exists_simplify? (a := c.ancestors) filled
  exact ⟨t, ht, simplify?_sound hV.respected filled flat ht⟩

/-- Three nodes in a circle. -/
def circle : Curriculum := .ofList [(1, [2]), (2, [3]), (3, [1])]

/-- Alternatives within alternatives, one of them a conjunction within a conjunction. -/
def nested : Requirement :=
  .group .any [.group .any [.node 1, .group .all [.node 2, .group .all [.node 3, .node 4]]], .node 5]

theorem simplify?_faithful_circle :
    nested.Filled ∧ nested.Alternatives ∧ circle.Closed (· ∈ [1, 2, 3]) ∧
    ∃ t, simplify? circle.ancestors nested = some t ∧
      (t.Holds (· ∈ [1, 2, 3]) ↔ nested.Holds (· ∈ [1, 2, 3])) := by
  have filled : nested.Filled := by
    simp [nested, filled_group, filled_node]
  have flat : nested.Alternatives := by
    simp [nested, alternatives_any, alternatives_all, joint_all, joint_node, alternatives_node]
  have closed : circle.Closed (· ∈ [1, 2, 3]) := by
    have h1 : circle.prerequisites 1 = [2] := Curriculum.prerequisites_ofList (by decide) (by simp)
    have h2 : circle.prerequisites 2 = [3] := Curriculum.prerequisites_ofList (by decide) (by simp)
    have h3 : circle.prerequisites 3 = [1] := Curriculum.prerequisites_ofList (by decide) (by simp)
    intro n hn m hm
    simp only [List.mem_cons, List.not_mem_nil, or_false] at hn
    rcases hn with rfl | rfl | rfl
    · rw [h1] at hm; simp_all
    · rw [h2] at hm; simp_all
    · rw [h3] at hm; simp_all
  exact ⟨filled, flat, closed, simplify?_faithful circle nested filled flat _ closed⟩

end Requirement

end Prereq
