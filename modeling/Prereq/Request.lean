import Prereq.Curriculum
import Prereq.Node.Ascending
import Prereq.Requirement.Simplify

/-!
# Simplification requests

* `Request` : a text to simplify in the context of concepts, one of which may be the edited node;
* `Response` : the simplified text and the nodes that it no longer mentions;
* `Request.answer` : the response to a request (`Request.answer_text`, `Request.redundant_answer`);
* `simplifyConcepts` : every concept simplified in the context of all others.
-/

namespace Prereq

/-- A text to simplify, with its context. -/
structure Request where
  /-- The requirement text. -/
  text : String
  /-- The node whose requirement it is; as context this node plays no part. -/
  current : Option Node
  /-- The concepts of the curriculum. -/
  context : List Concept
  deriving DecidableEq, Repr

/-- The outcome of a request. -/
structure Response where
  /-- The simplified text. -/
  text : String
  /-- The nodes mentioned before and not after, ascending. -/
  redundant : List Node
  deriving DecidableEq, Repr

/-- The curriculum that a request is answered by: its context without the edited node. -/
def Request.curriculum (r : Request) : Curriculum := .ofConcepts r.context r.current

/-- Simplify the text of a request by what the nodes of its context build on. -/
def Request.answer (r : Request) : Response :=
  let text := Requirement.simplifyText r.curriculum.ancestors r.text
  let remaining := mentions text
  ⟨text, Node.ascending ((mentions r.text).filter (· ∉ remaining))⟩

theorem Request.answer_text (r : Request) : r.answer.text =
    Requirement.render
      ((Requirement.read? r.text).bind (Requirement.simplify? r.curriculum.ancestors)) := rfl

theorem Request.redundant_answer (r : Request) : r.answer.redundant =
    Node.ascending ((mentions r.text).filter (· ∉ mentions r.answer.text)) := rfl

/-- Simplify every concept in the context of all others, in order. -/
def simplifyConcepts (concepts : List Concept) : List (Node × Response) :=
  concepts.map fun c => (c.node, Request.answer ⟨c.text, some c.node, concepts⟩)

end Prereq
