import Prereq.Mention
import Prereq.Requirement.Simplify
import Prereq.Text.Blank

/-!
# Editing requirement texts

These edits follow a node that is deleted or renumbered.

* `Requirement.prune?` : a requirement without one of its nodes;
* `removeNode` : a text with a node taken out and tidied up;
* `renameNode` : a text with one node put for another.
-/

namespace Prereq

/-- Take out a node. Groups that lose all parts go, and one that keeps a single part is replaced
by it. -/
def Requirement.prune? (n : Node) : Requirement → Option Requirement :=
  fold (fun m => if m = n then none else some (.node m)) fun c parts =>
    ofParts? c (parts.filterMap id)

/-- Take a node out of the requirement that a text holds, and simplify it without any ancestors,
which flattens it and drops repetitions. A text that holds no requirement stays, unless it is
blank. -/
def removeNode (n : Node) (s : String) : String :=
  if Text.isBlank s.toList then ""
  else
    match Requirement.read? s with
    | none => s
    | some r => Requirement.render ((r.prune? n).bind (Requirement.simplify? ∅))

/-- Put `new` for `old` in the requirement that a text holds, without simplifying it. In a text
that holds no requirement the mentions are replaced, unless it is blank. -/
def renameNode (old new : Node) (s : String) : String :=
  if Text.isBlank s.toList then ""
  else
    match Requirement.read? s with
    | none => replaceMentions old new s
    | some r => Requirement.render (some (r.mapNodes fun n => if n = old then new else n))

@[simp] theorem Requirement.prune?_node (n m : Node) :
    prune? n (.node m) = if m = n then none else some (.node m) := rfl

theorem Requirement.prune?_group (n : Node) (c : Connective) (parts : List Requirement) :
    prune? n (.group c parts) = ofParts? c (parts.filterMap (prune? n)) := by
  simp [prune?, List.filterMap_map]

end Prereq
