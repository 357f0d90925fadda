import Prereq.Proofs.Requirement.Shape

/-!
# Parts that name no node

An empty group names no node, and neither does a group of such groups. A part like that is a gap:
it asks for nothing where all parts are needed, and it is no alternative where one is enough.

* `Requirement.HoldsPastGaps` : what meets a requirement if gaps are passed over
  (`holdsPastGaps_node`, `holdsPastGaps_all`, `holdsPastGaps_any`);
* `Requirement.Filled.holdsPastGaps_iff` : where every group has a part there is nothing to pass
  over.
-/

namespace Prereq.Requirement

variable {V : Node → Prop} {p r : Requirement} {parts : List Requirement}

/-- The nodes of `V` meet a requirement, where parts that name no node are passed over. -/
inductive HoldsPastGaps (V : Node → Prop) : Requirement → Prop where
  | node {n : Node} (known : V n) : HoldsPastGaps V (.node n)
  | all {parts : List Requirement}
    (holds : ∀ p ∈ parts, p.leaves ≠ [] → HoldsPastGaps V p) : HoldsPastGaps V (.group .all parts)
  | any {parts : List Requirement} {p : Requirement} (mem : p ∈ parts) (noGap : p.leaves ≠ [])
    (holds : HoldsPastGaps V p) : HoldsPastGaps V (.group .any parts)

theorem holdsPastGaps_node {n : Node} : (Requirement.node n).HoldsPastGaps V ↔ V n := by
  constructor
  · intro h
    cases h with
    | node known => exact known
  · exact .node

theorem holdsPastGaps_all : (group .all parts).HoldsPastGaps V ↔
    ∀ p ∈ parts, p.leaves ≠ [] → p.HoldsPastGaps V := by
  constructor
  · intro h
    cases h with
    | all holds => exact holds
  · exact .all

theorem holdsPastGaps_any : (group .any parts).HoldsPastGaps V ↔
    ∃ p ∈ parts, p.leaves ≠ [] ∧ p.HoldsPastGaps V := by
  constructor
  · intro h
    cases h with
    | any mem noGap holds => exact ⟨_, mem, noGap, holds⟩
  · rintro ⟨p, hp, hgap, h⟩
    exact .any hp hgap h

/-- Where every group has a part, every part names a node. -/
theorem Filled.holdsPastGaps_iff (h : r.Filled) : r.HoldsPastGaps V ↔ r.Holds V := by
  induction r with
  | node n => exact holdsPastGaps_node
  | group c parts ih =>
    have hparts := (filled_group.1 h).2
    cases c with
    | all =>
      rw [holdsPastGaps_all, holds_all]
      apply forall₂_congr
      intro p hp
      rw [ih p hp (hparts p hp)]
      exact imp_iff_right (hparts p hp).leaves_ne_nil
    | any =>
      rw [holdsPastGaps_any, holds_any]
      apply exists_congr
      intro p
      apply and_congr_right
      intro hp
      rw [ih p hp (hparts p hp)]
      exact and_iff_right (hparts p hp).leaves_ne_nil

end Prereq.Requirement
