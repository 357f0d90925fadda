import Prereq.Ancestors
import Prereq.Requirement.Reader
import Prereq.Requirement.Writer

/-!
# Simplification

A part of a group is redundant beside another part if the ancestors show that it asks for nothing
more. Groups are simplified from the leaves up.

* `Connective.redundant` : whether one part is redundant beside another;
* `Requirement.splice` : parts of the group's own connective give way to their parts;
* `Requirement.survivors` : the parts that stay, found in one pass from left to right;
* `Requirement.simplify?`, `Requirement.simplifyText` : the simplified requirement, and the text
  of the one that a text holds.
-/

namespace Prereq

/-- Whether part `x` of a group is redundant beside part `y`. Under AND, each node of `x` is
covered by one of `y`: meeting `y` entails meeting `x`. Under OR, each node of `y` is covered by
one of `x`: `y` is the lighter alternative. -/
def Connective.redundant (c : Connective) (a : Ancestors) (x y : Requirement) : Bool :=
  match c with
  | .all => x.leaves.all fun n => y.leaves.any fun m => a.covers m n
  | .any => y.leaves.all fun m => x.leaves.any fun n => a.covers n m

namespace Requirement

/-- Put the parts of each part that has connective `c` in its place. -/
def splice (c : Connective) (parts : List Requirement) : List Requirement :=
  parts.flatMap fun
    | .group d inner => if d = c then inner else [.group d inner]
    | .node n => [.node n]

/-- The parts that stay out of `parts`, where `kept` are the earlier ones that stay. A part goes
if it is redundant beside one kept before it, or beside a later one that is not redundant beside
it in turn; of two equivalent parts the earlier one stays. -/
def survivors {α : Type u} (redundant : α → α → Bool) (kept : List α) : (parts : List α) → List α
  | [] => []
  | x :: later =>
    if kept.any (redundant x ·) || later.any (fun y => redundant x y && !redundant y x) then
      survivors redundant kept later
    else x :: survivors redundant (x :: kept) later

/-- Simplify a group, given what its parts have become; parts without any node are gone. -/
def simplifyGroup (a : Ancestors) (c : Connective) (parts : List (Option Requirement)) :
    Option Requirement :=
  ofParts? c (survivors (c.redundant a) [] (splice c (parts.filterMap id)))

/-- Drop all parts that are redundant by the given ancestors; `none` if no node remains. -/
def simplify? (a : Ancestors) : Requirement → Option Requirement :=
  fold (fun n => some (.node n)) (simplifyGroup a)

/-- Simplify the requirement that a text holds; without one the text is empty. -/
def simplifyText (a : Ancestors) (s : String) : String := render ((read? s).bind (simplify? a))

@[simp] theorem simplify?_node (a : Ancestors) (n : Node) :
    simplify? a (.node n) = some (.node n) := rfl

theorem simplify?_group (a : Ancestors) (c : Connective) (parts : List Requirement) :
    simplify? a (.group c parts) =
      ofParts? c (survivors (c.redundant a) [] (splice c (parts.filterMap (simplify? a)))) := by
  simp [simplify?, simplifyGroup, List.filterMap_map]

end Requirement

end Prereq
