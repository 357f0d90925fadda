import Prereq.Request
import Prereq.Wire.Value

/-!
# Requests on the wire

* `Concept.encode`, `Concept.decode?` : concepts, with the fields `local_id` and `prerequisite`;
* `Request.encode`, `Request.decode?` : requests, with the fields `expression`, `current_node_id`
  and `context_nodes`;
* `Response.encode` : responses, with the fields `simplified_expression` and `redundant_ids`.
-/

namespace Prereq

open Wire (Value)

/-- The record of a concept. -/
def Concept.encode (c : Concept) : Value :=
  .record [("local_id", c.node.encode),
    ("prerequisite", Wire.encodeNullable .text c.requirement)]

/-- A concept needs its node; the requirement may be missing or null. -/
def Concept.decode? (v : Value) : Option Concept :=
  match Wire.fields? ["local_id", "prerequisite"] v with
  | some [node, requirement] => do
    let node ← Wire.required Node.decode? node
    let requirement ← Wire.optional none (Wire.nullable Wire.textOf) requirement
    return ⟨node, requirement⟩
  | _ => none

/-- The record of a request. -/
def Request.encode (r : Request) : Value :=
  .record [("expression", .text r.text),
    ("current_node_id", Wire.encodeNullable Node.encode r.current),
    ("context_nodes", .list (r.context.map Concept.encode))]

/-- A request needs its text; the edited node may be missing or null, and the context may be
missing. -/
def Request.decode? (v : Value) : Option Request :=
  match Wire.fields? ["expression", "current_node_id", "context_nodes"] v with
  | some [text, current, context] => do
    let text ← Wire.required Wire.textOf text
    let current ← Wire.optional none (Wire.nullable Node.decode?) current
    let context ← Wire.optional [] (Wire.listOf Concept.decode?) context
    return ⟨text, current, context⟩
  | _ => none

/-- The record of a response. -/
def Response.encode (r : Response) : Value :=
  .record [("simplified_expression", .text r.text),
    ("redundant_ids", .list (r.redundant.map Node.encode))]

end Prereq
