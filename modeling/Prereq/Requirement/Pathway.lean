import Prereq.Requirement.Basic

/-!
# Pathways

A pathway is one way to meet a requirement: nodes that are enough together.

* `Pathway.product` : every pathway of one list with every pathway of another, where a list
  without pathways asks for nothing;
* `Requirement.pathways` : the pathways of a requirement, in order and with repetitions
  (`pathways_node`, `pathways_all`, `pathways_any`).
-/

namespace Prereq

/-- Nodes that meet a requirement together, in the order of the requirement. -/
abbrev Pathway := List Node

/-- Each pathway of the left list followed by each of the right one. An empty list stands for no
requirement at all and leaves the other list as it is. -/
def Pathway.product : List Pathway → List Pathway → List Pathway
  | [], right => right
  | left, [] => left
  | left, right => left.flatMap fun a => right.map (a ++ ·)

namespace Requirement

/-- The pathways of a group, from those of its parts. -/
def combinePathways (c : Connective) (parts : List (List Pathway)) : List Pathway :=
  match c with
  | .all => parts.foldl Pathway.product []
  | .any => parts.flatten

/-- The pathways of a requirement: its alternatives in order, nothing merged. -/
def pathways : Requirement → List Pathway := fold (fun n => [[n]]) combinePathways

/-- The pathways of a requirement that may be missing; without one there are none. -/
def pathwaysOf (r : Option Requirement) : List Pathway := (r.map pathways).getD []

@[simp] theorem pathways_node (n : Node) : (Requirement.node n).pathways = [[n]] := rfl

theorem pathways_group (c : Connective) (parts : List Requirement) :
    (group c parts).pathways = combinePathways c (parts.map pathways) := by
  simp [pathways]

theorem pathways_all (parts : List Requirement) :
    (group .all parts).pathways = (parts.map pathways).foldl Pathway.product [] :=
  pathways_group .all parts

theorem pathways_any (parts : List Requirement) :
    (group .any parts).pathways = parts.flatMap pathways := by
  rw [pathways_group, List.flatMap_def, combinePathways]

end Requirement

end Prereq
