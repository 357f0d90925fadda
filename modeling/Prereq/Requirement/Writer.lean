import Prereq.Requirement.Basic

/-!
# Writing requirements

Parts stand between keywords, and parentheses stand only where they are needed: around a group
within a group of the other connective.

* `Requirement.charsIn` : a requirement written as a part of a group;
* `Requirement.chars` : a requirement written by itself (`chars_node`, `chars_group`);
* `Requirement.render` : the text of a requirement that may be missing.
-/

namespace Prereq.Requirement

/-- The parts of a group, written with its keyword between them. -/
def joinParts (c : Connective) (parts : List (List Char)) : List Char :=
  c.separator.intercalate parts

/-- A requirement written within a group of connective `context`, or by itself without one. A
group within a group of the other connective stands in parentheses. -/
def charsIn : Requirement → (context : Option Connective) → List Char :=
  fold (fun n _ => n.digits) fun c parts context =>
    let text := joinParts c (parts.map (· (some c)))
    if context.all (· = c) then text else '(' :: text ++ [')']

/-- A requirement written by itself. -/
def chars (r : Requirement) : List Char := r.charsIn none

/-- The text of a requirement; one that is missing has the empty text. -/
def render (r : Option Requirement) : String := String.ofList ((r.map chars).getD [])

@[simp] theorem charsIn_node (n : Node) (context : Option Connective) :
    (Requirement.node n).charsIn context = n.digits := rfl

theorem charsIn_group (c : Connective) (parts : List Requirement) (context : Option Connective) :
    (group c parts).charsIn context =
      if context.all (· = c) then joinParts c (parts.map (charsIn · (some c)))
      else '(' :: joinParts c (parts.map (charsIn · (some c))) ++ [')'] := by
  simp [charsIn, Function.comp_def]

@[simp] theorem chars_node (n : Node) : (Requirement.node n).chars = n.digits := rfl

theorem chars_group (c : Connective) (parts : List Requirement) :
    (group c parts).chars = joinParts c (parts.map (charsIn · (some c))) := by
  simp [chars, charsIn_group]

end Prereq.Requirement
