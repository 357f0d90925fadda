import Prereq.Node.Ascending
import Prereq.Proofs.Requirement.Combination
import Prereq.Proofs.Requirement.Grouping

/-!
# The nodes of the pathways

No node of a requirement is lost on the way to its pathways, whatever groups are empty or hold one
part only, and grouping parts that share their group's connective does not touch the pathways.

* `Pathway.Spans` : pathways with nodes in them, each picked out of some nodes in their order, that
  use all of these nodes together;
* `Pathway.Spans.combine` : under either connective two lists of pathways span what they span apart;
* `Requirement.spans_pathways` : the pathways of a requirement span its leaves;
* `Requirement.Ungroups.pathways_eq` : taking a group apart leaves the list of pathways as it is;
* `Requirement.pathways_cover_leaves` : both.
-/

namespace Prereq

/-! ## Nodes that pathways span -/

namespace Pathway

variable {ps qs : List Pathway} {ms ns : List Node}

/-- None of the pathways is empty, each picks some of the nodes in order, and each of the nodes is
on one of them. -/
structure Spans (ps : List Pathway) (ns : List Node) : Prop where
  /-- No pathway is empty. -/
  ne_nil : ∀ p ∈ ps, p ≠ []
  /-- A pathway picks some of the nodes. -/
  sublist : ∀ p ∈ ps, p.Sublist ns
  /-- Each node is on a pathway. -/
  covered : ∀ n ∈ ns, ∃ p ∈ ps, n ∈ p

theorem spans_nil : Spans [] [] := ⟨nofun, nofun, nofun⟩

theorem Spans.eq_nil (h : Spans [] ns) : ns = [] := by
  rw [List.eq_nil_iff_forall_not_mem]
  intro n hn
  obtain ⟨p, hp, -⟩ := h.covered n hn
  cases hp

theorem Spans.append (hps : Spans ps ms) (hqs : Spans qs ns) : Spans (ps ++ qs) (ms ++ ns) where
  ne_nil p hp := (List.mem_append.1 hp).elim (hps.ne_nil p) (hqs.ne_nil p)
  sublist p hp := by
    rcases List.mem_append.1 hp with hp | hp
    · exact (hps.sublist p hp).trans (List.sublist_append_left ms ns)
    · exact (hqs.sublist p hp).trans (List.sublist_append_right ms ns)
  covered n hn := by
    rcases List.mem_append.1 hn with hn | hn
    · obtain ⟨p, hp, hnp⟩ := hps.covered n hn
      exact ⟨p, List.mem_append_left qs hp, hnp⟩
    · obtain ⟨q, hq, hnq⟩ := hqs.covered n hn
      exact ⟨q, List.mem_append_right ps hq, hnq⟩

theorem mem_product_of_ne_nil (hp : ps ≠ []) (hq : qs ≠ []) {x : Pathway} :
    x ∈ product ps qs ↔ ∃ p ∈ ps, ∃ q ∈ qs, p ++ q = x := by
  simp [product_of_ne_nil hp hq]

/-- A node of one side is on a pathway of the product because the other side has a pathway to go
with it, or has none and passes the first side on. -/
theorem Spans.product (hps : Spans ps ms) (hqs : Spans qs ns) :
    Spans (product ps qs) (ms ++ ns) := by
  by_cases hp : ps = []
  · subst hp
    rw [nil_product, hps.eq_nil, List.nil_append]
    exact hqs
  by_cases hq : qs = []
  · subst hq
    rw [product_nil, hqs.eq_nil, List.append_nil]
    exact hps
  have hmem {x : Pathway} := mem_product_of_ne_nil hp hq (x := x)
  constructor
  · intro x hx
    obtain ⟨p, hp, q, -, rfl⟩ := hmem.1 hx
    exact List.append_ne_nil_of_left_ne_nil (hps.ne_nil p hp) q
  · intro x hx
    obtain ⟨p, hp, q, hq, rfl⟩ := hmem.1 hx
    exact (hps.sublist p hp).append (hqs.sublist q hq)
  · intro n hn
    rcases List.mem_append.1 hn with hn | hn
    · obtain ⟨p, hp, hnp⟩ := hps.covered n hn
      obtain ⟨q, hq⟩ := List.exists_mem_of_ne_nil qs hq
      exact ⟨p ++ q, hmem.2 ⟨p, hp, q, hq, rfl⟩, List.mem_append_left q hnp⟩
    · obtain ⟨q, hq, hnq⟩ := hqs.covered n hn
      obtain ⟨p, hp⟩ := List.exists_mem_of_ne_nil ps hp
      exact ⟨p ++ q, hmem.2 ⟨p, hp, q, hq, rfl⟩, List.mem_append_right p hnq⟩

theorem Spans.combine (c : Connective) (hps : Spans ps ms) (hqs : Spans qs ns) :
    Spans (combine c ps qs) (ms ++ ns) := by
  cases c with
  | all => exact hps.product hqs
  | any => exact hps.append hqs

end Pathway

open Pathway

namespace Requirement

/-- The pathways of a requirement span its leaves. -/
theorem spans_pathways (r : Requirement) : Spans r.pathways r.leaves := by
  induction r with
  | node n => constructor <;> simp
  | group c parts ih =>
    induction parts with
    | nil =>
      rw [pathways_group_nil]
      exact spans_nil
    | cons p parts ihparts =>
      rw [pathways_group_cons, leaves_group, List.flatMap_cons, ← leaves_group c]
      exact (ih p List.mem_cons_self).combine c
        (ihparts fun q hq => ih q (List.mem_cons_of_mem p hq))

/-! ## Groups taken apart -/

/-- A part of the group's own connective combines by itself first, which makes no difference. -/
theorem pathways_ungroup (c : Connective) (before inner after : List Requirement) :
    (group c (before ++ group c inner :: after)).pathways =
      (group c (before ++ inner ++ after)).pathways := by
  rw [pathways_group_append, pathways_group_cons, pathways_group_append, pathways_group_append,
    combine_assoc]

theorem Ungroups.pathways_eq {r r' : Requirement} (h : Ungroups r r') :
    r.pathways = r'.pathways := by
  induction h with
  | here c before inner after => exact pathways_ungroup c before inner after
  | part c before after _ ih =>
    rw [pathways_group_append, pathways_group_cons, ih, pathways_group_append, pathways_group_cons]

/-- **Pathways lose no node.** Each pathway of a requirement has a node and picks its nodes out of
the leaves in their order; the nodes on the pathways are the nodes of the requirement; and taking
apart a group of the connective of the group around it leaves the list of pathways as it is. -/
theorem pathways_cover_leaves (r : Requirement) :
    (∀ p ∈ pathwaysOf (some r), p ≠ [] ∧ p.Sublist r.leaves) ∧
    (∀ n, (∃ p ∈ pathwaysOf (some r), n ∈ p) ↔ n ∈ Node.ascending r.leaves) ∧
    ∀ r', Ungroups r r' → pathwaysOf (some r) = pathwaysOf (some r') := by
  have hspans := spans_pathways r
  refine ⟨fun p hp => ⟨hspans.ne_nil p hp, hspans.sublist p hp⟩, fun n => ?_,
    fun r' h => h.pathways_eq⟩
  rw [Node.mem_ascending]
  constructor
  · rintro ⟨p, hp, hn⟩
    exact (hspans.sublist p hp).subset hn
  · exact hspans.covered n

/-- A group within a group of its own connective, beside an empty group and around one of a single
part. -/
def stacked : Requirement :=
  group .all [group .any [], group .all [node 5, group .any [node 2, group .any [node 5]]]]

/-- The same with the inner group taken apart. -/
def unstacked : Requirement :=
  group .all [group .any [], node 5, group .any [node 2, group .any [node 5]]]

theorem pathways_cover_leaves_stacked : Ungroups stacked unstacked ∧
    pathwaysOf (some stacked) = [[5, 2], [5, 5]] ∧
    pathwaysOf (some stacked) = pathwaysOf (some unstacked) := by
  have hungroup : Ungroups stacked unstacked := Ungroups.here .all [group .any []]
    [node 5, group .any [node 2, group .any [node 5]]] []
  exact ⟨hungroup, rfl, (pathways_cover_leaves stacked).2.2 unstacked hungroup⟩

end Requirement

end Prereq
