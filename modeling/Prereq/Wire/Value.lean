import Prereq.Node

/-!
# Wire values

Requests and requirements travel as values of a common data format.

* `Wire.Value` : the values;
* `Wire.fields?` : the fields of a structure, given by name or in order;
* `Wire.required`, `Wire.optional`, `Wire.nullable`, `Wire.listOf` : how one field or list is
  decoded;
* `Node.encode`, `Node.decode?` : nodes as integers (`Node.decode?_encode`).
-/

namespace Prereq

namespace Wire

/-- A value on the wire. -/
inductive Value where
  /-- No value. -/
  | null
  /-- A truth value. -/
  | bool (b : Bool)
  /-- An integer. -/
  | integer (i : Int)
  /-- A number that is no integer; nothing that is decoded here contains one. -/
  | fraction
  /-- A text. -/
  | text (s : String)
  /-- A list of values. -/
  | list (vs : List Value)
  /-- Named values; no two have the same name. -/
  | record (fields : List (String × Value))
  deriving Inhabited

/-- The fields of a structure, in the order of `names`, each `none` where it is missing. A record
may hold other fields as well; a list gives the first fields in order and may not be longer. -/
def fields? (names : List String) : Value → Option (List (Option Value))
  | .record fields => some (names.map fun name => fields.lookup name)
  | .list vs =>
    if vs.length ≤ names.length then some ((List.range names.length).map (vs[·]?)) else none
  | _ => none

variable {α : Type}

/-- A field that must be there. -/
def required (decode : Value → Option α) (field : Option Value) : Option α := field.bind decode

/-- A field that has a value of its own where it is missing. -/
def optional (default : α) (decode : Value → Option α) (field : Option Value) : Option α :=
  match field with
  | none => some default
  | some v => decode v

/-- A value that may be null. -/
def nullable (decode : Value → Option α) : Value → Option (Option α)
  | .null => some none
  | v => (decode v).map some

/-- A list of values of one kind. -/
def listOf (decode : Value → Option α) : Value → Option (List α)
  | .list vs => vs.mapM decode
  | _ => none

/-- A text. -/
def textOf : Value → Option String
  | .text s => some s
  | _ => none

/-- Encode a value that may be missing. -/
def encodeNullable (encode : α → Value) : Option α → Value
  | none => .null
  | some a => encode a

end Wire

/-! ## Nodes -/

/-- A node is an integer. -/
def Node.encode (n : Node) : Wire.Value := .integer n.toNat

/-- A node is an integer in range. -/
def Node.decode? : Wire.Value → Option Node
  | .integer (.ofNat n) => Node.ofNat? n
  | _ => none

@[simp] theorem Node.decode?_encode (n : Node) : Node.decode? n.encode = some n :=
  Node.ofNat?_toNat n

end Prereq
