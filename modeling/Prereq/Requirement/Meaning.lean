import Prereq.Requirement.Basic

/-!
# What meets a requirement

* `Requirement.Holds V r` : the nodes of `V` meet `r`; a node asks to be in `V`, a group asks for
  all or for one of its parts (`holds_node`, `holds_all`, `holds_any`);
* `Requirement.HoldsIfAny V r` : the same for a requirement that may be missing, which everything
  meets.
-/

namespace Prereq.Requirement

/-- Whether knowing the nodes of `V` meets a requirement. -/
def Holds (V : Node → Prop) : Requirement → Prop :=
  fold V fun c parts =>
    match c with
    | .all => ∀ p ∈ parts, p
    | .any => ∃ p ∈ parts, p

/-- Whether knowing the nodes of `V` meets a requirement that may be missing. -/
def HoldsIfAny (V : Node → Prop) (r : Option Requirement) : Prop := ∀ x ∈ r, x.Holds V

variable {V : Node → Prop}

@[simp] theorem holds_node {n : Node} : (Requirement.node n).Holds V ↔ V n := Iff.rfl

@[simp] theorem holds_all {parts : List Requirement} :
    (group .all parts).Holds V ↔ ∀ p ∈ parts, p.Holds V := by
  rw [Holds, fold_group]
  exact List.forall_mem_map

@[simp] theorem holds_any {parts : List Requirement} :
    (group .any parts).Holds V ↔ ∃ p ∈ parts, p.Holds V := by
  rw [Holds, fold_group]
  constructor
  · rintro ⟨_, hmem, hx⟩
    obtain ⟨p, hp, rfl⟩ := List.mem_map.1 hmem
    exact ⟨p, hp, hx⟩
  · rintro ⟨p, hp, hx⟩
    exact ⟨_, List.mem_map_of_mem hp, hx⟩

end Prereq.Requirement
