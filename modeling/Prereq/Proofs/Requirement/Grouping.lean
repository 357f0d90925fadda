import Mathlib.Logic.Relation
import Prereq.Proofs.Requirement.Positions

/-!
# Grouping

A part that has its group's own connective is simplified by itself before its parts are put in its
place, so they meet each other earlier than the other parts of the group. Where redundancy is
transitive that makes no difference.

* `Requirement.survivors_append_cons` : a part that goes might as well not be there;
* `Requirement.survivors_within` : so a stretch of the parts may be gone through by itself first;
* `Requirement.operands_cons_group` : what a part of the group's own connective brings in;
* `Requirement.Ungroups` : somewhere in a requirement a part of its group's own connective gives way
  to its parts;
* `Requirement.simplify?_eq_of_regrouped` : requirements that differ in nothing but such groups
  become the same.
-/

namespace Prereq.Requirement

/-! ## Parts that go -/

section Survivors

variable {α : Type u} {redundant : α → α → Bool} {kept before later after parts : List α} {x y : α}

theorem Superseded.mono {kept' later' : List α} (h : Superseded redundant kept later x)
    (hkept : kept ⊆ kept') (hlater : later ⊆ later') : Superseded redundant kept' later' x := by
  rcases h with ⟨k, hk, hxk⟩ | ⟨y, hy, hxy⟩
  · exact .inl ⟨k, hkept hk, hxk⟩
  · exact .inr ⟨y, hlater hy, hxy⟩

/-- What goes for a later part would go for the same part if that came earlier. -/
theorem Superseded.pass (h : Superseded redundant kept (before ++ after) x) :
    Superseded redundant (kept ++ before) after x := by
  rcases h with ⟨k, hk, hxk⟩ | ⟨y, hy, hxy, hyx⟩
  · exact .inl ⟨k, List.mem_append_left before hk, hxk⟩
  · rcases List.mem_append.1 hy with hy | hy
    · exact .inl ⟨y, List.mem_append_right kept hy, hxy⟩
    · exact .inr ⟨y, hy, hxy, hyx⟩

theorem superseded_append_cons_iff : Superseded redundant (kept ++ y :: before) after x ↔
    redundant x y ∨ Superseded redundant (kept ++ before) after x := by
  simp only [Superseded, List.mem_append, List.mem_cons, or_left_comm (b := _ = y), or_and_right,
    exists_or, exists_eq_left, or_assoc]

variable (htrans : ∀ x y z, redundant x y → redundant y z → redundant x z)
include htrans

/-- What is redundant beside a part that goes does so for the same reason. -/
theorem Superseded.of_redundant (hxy : redundant x y) (hy : Superseded redundant kept later y) :
    Superseded redundant kept later x := by
  rcases hy with ⟨k, hk, hyk⟩ | ⟨z, hz, hyz, hzy⟩
  · exact .inl ⟨k, hk, htrans x y k hxy hyk⟩
  · exact .inr ⟨z, hz, htrans x y z hxy hyz, fun hzx => hzy (htrans z x y hzx hxy)⟩

/-- Of a part that goes itself no other part has need: what goes for it goes for what it goes for. -/
theorem Superseded.of_append_cons (hx : Superseded redundant (kept ++ y :: before) after x)
    (hy : Superseded redundant kept (before ++ x :: after) y) :
    Superseded redundant kept (before ++ after) y := by
  rcases hy with ⟨k, hk, hyk⟩ | ⟨z, hz, hyz, hzy⟩
  · exact .inl ⟨k, hk, hyk⟩
  · rcases List.mem_append.1 hz with hz | hz
    · exact .inr ⟨z, List.mem_append_left after hz, hyz, hzy⟩
    · rcases List.mem_cons.1 hz with rfl | hz
      · have hand : ∀ w, redundant z w → redundant y w ∧ ¬ redundant w y := fun w hzw =>
          ⟨htrans y z w hyz hzw, fun hwy => hzy (htrans z w y hzw hwy)⟩
        rcases (superseded_append_cons_iff.1 hx).resolve_left hzy with ⟨w, hw, hzw⟩ | ⟨w, hw, hzw, -⟩
        · rcases List.mem_append.1 hw with hw | hw
          · exact .inl ⟨w, hw, (hand w hzw).1⟩
          · exact .inr ⟨w, List.mem_append_left after hw, hand w hzw⟩
        · exact .inr ⟨w, List.mem_append_right before hw, hand w hzw⟩
      · exact .inr ⟨z, List.mem_append_right before hz, hyz, hzy⟩

/-- A part that goes might as well not be there. -/
theorem survivors_append_cons (hx : Superseded redundant (kept ++ before) after x) :
    survivors redundant kept (before ++ x :: after) =
      survivors redundant kept (before ++ after) := by
  induction before generalizing kept with
  | nil =>
    rw [List.append_nil] at hx
    rw [List.nil_append, List.nil_append, survivors_cons, if_pos hx]
  | cons y before ih =>
    have hsame : Superseded redundant kept (before ++ x :: after) y ↔
        Superseded redundant kept (before ++ after) y := by
      refine ⟨hx.of_append_cons htrans, fun hy => hy.mono (List.Subset.refl kept) ?_⟩
      exact ((List.sublist_cons_self x after).append_left before).subset
    rw [List.cons_append, List.cons_append, survivors_cons, survivors_cons,
      if_congr hsame rfl rfl]
    split
    next hy =>
      rcases superseded_append_cons_iff.1 hx with hxy | hx
      · exact ih (hy.of_redundant htrans hxy).pass
      · exact ih hx
    next =>
      rw [ih (hx.mono List.perm_middle.subset (List.Subset.refl after))]

/-- A stretch of the parts may be gone through by itself first. -/
theorem survivors_within (hkept : kept ⊆ before) :
    survivors redundant [] (before ++ survivors redundant kept parts ++ after) =
      survivors redundant [] (before ++ parts ++ after) := by
  induction parts generalizing before kept with
  | nil => rfl
  | cons x parts ih =>
    rw [survivors_cons]
    split
    next hx =>
      have hgone : Superseded redundant ([] ++ before) (parts ++ after) x :=
        hx.mono hkept (List.subset_append_left parts after)
      calc survivors redundant [] (before ++ survivors redundant kept parts ++ after)
          = survivors redundant [] (before ++ (parts ++ after)) := by
            rw [ih hkept, List.append_assoc]
        _ = survivors redundant [] (before ++ x :: (parts ++ after)) :=
            (survivors_append_cons htrans hgone).symm
        _ = survivors redundant [] (before ++ x :: parts ++ after) := by
            rw [List.append_assoc, List.cons_append]
    next =>
      have hkept' : x :: kept ⊆ before ++ [x] := List.cons_subset.2
        ⟨by simp, List.subset_append_of_subset_left [x] hkept⟩
      have hcons : ∀ rest, before ++ x :: rest ++ after = before ++ [x] ++ rest ++ after :=
        fun rest => by simp
      rw [hcons, ih hkept', hcons]

end Survivors

/-! ## Parts of the group's own connective -/

variable {a : Ancestors} {c : Connective} {p q r r' : Requirement}
  {before inner after parts : List Requirement}

theorem operands_append (a : Ancestors) (c : Connective) (before after : List Requirement) :
    operands a c (before ++ after) = operands a c before ++ operands a c after := by
  rw [operands, List.filterMap_append, splice, List.flatMap_append]
  rfl

/-- What is left of the group that some parts make is put in its place. -/
theorem splice_ofParts? (h : ∀ p ∈ parts, p.connective? ≠ some c) :
    splice c (ofParts? c parts).toList = parts := by
  match parts with
  | [] => rfl
  | [p] => exact splice_eq_self h
  | p :: q :: parts => simp [ofParts?, splice]

/-- A part of the group's own connective brings in the parts that have survived in it. -/
theorem operands_cons_group (a : Ancestors) (c : Connective) (inner after : List Requirement) :
    operands a c (.group c inner :: after) =
      survivors (c.redundant a) [] (operands a c inner) ++ operands a c after := by
  have hinner : operands a c [.group c inner] =
      survivors (c.redundant a) [] (operands a c inner) := by
    rw [operands, List.filterMap_eq_flatMap_toList, List.flatMap_singleton, simplify?_group_eq]
    exact splice_ofParts? fun p hp => (canonical_of_mem_operands' (mem_of_mem_survivors hp)).1
  rw [← List.singleton_append, operands_append, hinner]

/-- Such a part may as well give way to its parts before anything is simplified. -/
theorem simplify?_ungroup (trans : a.Transitive) :
    simplify? a (.group c (before ++ .group c inner :: after)) =
      simplify? a (.group c (before ++ inner ++ after)) := by
  have htrans : ∀ x y z, c.redundant a x y → c.redundant a y z → c.redundant a x z :=
    fun x y z => Connective.redundant_trans trans
  rw [simplify?_group_eq, simplify?_group_eq, operands_append, operands_cons_group, operands_append,
    operands_append, ← List.append_assoc, survivors_within htrans (List.nil_subset _)]

/-! ## Anywhere in a requirement -/

/-- Somewhere in a requirement, a part that has the connective of its group gives way to its own
parts, if it has any. -/
inductive Ungroups : Requirement → Requirement → Prop where
  | here (c : Connective) (before inner after : List Requirement) :
    Ungroups (.group c (before ++ .group c inner :: after)) (.group c (before ++ inner ++ after))
  | part {p q : Requirement} (c : Connective) (before after : List Requirement) (h : Ungroups p q) :
    Ungroups (.group c (before ++ p :: after)) (.group c (before ++ q :: after))

/-- A part matters by what it becomes. -/
theorem simplify?_group_congr (h : simplify? a p = simplify? a q) :
    simplify? a (.group c (before ++ p :: after)) =
      simplify? a (.group c (before ++ q :: after)) := by
  rw [simplify?_group, simplify?_group, List.filterMap_append, List.filterMap_append,
    List.filterMap_cons, List.filterMap_cons, h]

theorem Ungroups.simplify?_eq (trans : a.Transitive) (h : Ungroups r r') :
    simplify? a r = simplify? a r' := by
  induction h with
  | here => exact simplify?_ungroup trans
  | part _ _ _ _ ih => exact simplify?_group_congr ih

/-- **Grouping.** Where covering is transitive, two requirements become the same if they differ in
nothing but parts grouped under the connective of their group. -/
theorem simplify?_eq_of_regrouped (a : Ancestors) (trans : a.Transitive) (r r' : Requirement)
    (h : Relation.EqvGen Ungroups r r') : simplify? a r = simplify? a r' := by
  induction h with
  | rel r r' h => exact h.simplify?_eq trans
  | refl r => rfl
  | symm r r' _ ih => exact ih.symm
  | trans r s t _ _ ihrs ihst => exact ihrs.trans ihst

/-- Alternatives grouped from the left, with an empty group among them. -/
def leftward : Requirement := .group .all [.node 9,
  .group .any [.group .any [.node 3, .node 2], .group .any [], .node 1]]

/-- The same alternatives grouped from the right. -/
def rightward : Requirement := .group .all [.node 9,
  .group .any [.node 3, .group .any [.node 2, .node 1]]]

/-- Grouped from the left, node 3 has gone by the time node 1 is compared with node 2. -/
theorem simplify?_eq_of_regrouped_seesaw :
    seesaw.Transitive ∧ Relation.EqvGen Ungroups leftward rightward ∧
    simplify? seesaw leftward = simplify? seesaw rightward ∧
    simplify? seesaw leftward = some (.group .all [.node 9, .node 2]) := by
  have trans : seesaw.Transitive := by
    intro n m k
    simp only [covers_seesaw]
    grind
  have hfirst : Ungroups leftward (.group .all [.node 9,
      .group .any [.node 3, .node 2, .group .any [], .node 1]]) :=
    .part .all [.node 9] [] (.here .any [] [.node 3, .node 2] [.group .any [], .node 1])
  have hempty : Ungroups (.group .all [.node 9,
      .group .any [.node 3, .node 2, .group .any [], .node 1]])
      (.group .all [.node 9, .group .any [.node 3, .node 2, .node 1]]) :=
    .part .all [.node 9] [] (.here .any [.node 3, .node 2] [] [.node 1])
  have hright : Ungroups rightward
      (.group .all [.node 9, .group .any [.node 3, .node 2, .node 1]]) :=
    .part .all [.node 9] [] (.here .any [.node 3] [.node 2, .node 1] [])
  have hregrouped : Relation.EqvGen Ungroups leftward rightward :=
    .trans _ _ _ (.trans _ _ _ (.rel _ _ hfirst) (.rel _ _ hempty)) (.symm _ _ (.rel _ _ hright))
  exact ⟨trans, hregrouped, simplify?_eq_of_regrouped seesaw trans _ _ hregrouped, by decide⟩

/-- Where covering is not transitive, grouping matters. -/
example : simplify? (.ofList [(1, [2]), (2, [3]), (3, [1])])
      (.group .all [.group .all [.node 1, .node 2], .node 3]) ≠
    simplify? (.ofList [(1, [2]), (2, [3]), (3, [1])])
      (.group .all [.node 1, .node 2, .node 3]) := by decide

end Prereq.Requirement
