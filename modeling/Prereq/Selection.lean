import Prereq.Requirement.Pathway
import Prereq.Requirement.Reader

/-!
# The selected pathway

One pathway of a node is active and its edges are shown. A click on the edge from a prerequisite
moves on to another pathway that uses it.

* `Selection` : the pathways and the number of the active one;
* `Selection.ofPathways`, `Selection.ofText` : the selection at the start, of some pathways or of
  those of a requirement text;
* `Selection.active?`, `Selection.shows` : the active pathway, and whether it uses a node;
* `Selection.click` : the selection after a click on the edge from a node;
* `Selection.replace` : the selection after the pathways have changed.
-/

namespace Prereq

/-- The pathways of a node, one of which is active. -/
structure Selection where
  /-- The pathways to choose from. -/
  pathways : List Pathway
  /-- The number of the active one, counted from zero. -/
  active : Nat
  deriving DecidableEq, Repr

namespace Selection

/-- The first pathway is active at the start. -/
def ofPathways (ps : List Pathway) : Selection := ⟨ps, 0⟩

/-- The selection over the pathways of the requirement that a text holds. -/
def ofText (s : String) : Selection := ofPathways (Requirement.pathwaysOf (Requirement.read? s))

/-- The active pathway; without pathways there is none. -/
def active? (s : Selection) : Option Pathway := s.pathways[s.active]?

/-- Whether pathway number `i` uses a node. -/
def uses (s : Selection) (n : Node) (i : Nat) : Bool := (s.pathways[i]?).any (·.contains n)

/-- Whether the active pathway uses a node, so that the edge from it is shown. -/
def shows (s : Selection) (n : Node) : Bool := s.active?.any (·.contains n)

/-- The numbers of the pathways in the order in which a click on the edge from `n` tries them: if
the edge is shown, the others from the next one on and round again, else all from the first one
on. -/
def candidates (s : Selection) (n : Node) : List Nat :=
  let count := s.pathways.length
  if s.shows n then (List.range' 1 (count - 1)).map fun i => (s.active + i) % count
  else List.range count

/-- Click on the edge from `n`: the first candidate that uses `n` becomes active, and without one
nothing changes. -/
def click (s : Selection) (n : Node) : Selection :=
  ⟨s.pathways, ((s.candidates n).find? (s.uses n)).getD s.active⟩

/-- Replace the pathways; the number of the active one is lowered to the last pathway if it is out
of range. -/
def replace (s : Selection) (ps : List Pathway) : Selection :=
  ⟨ps, min s.active (ps.length - 1)⟩

end Selection

end Prereq
