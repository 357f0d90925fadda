import Prereq.Requirement.Basic
import Prereq.Wire.Value

/-!
# Requirements on the wire

A node is a record with the field `Id`, a group one with the field `Op` that lists the connective
and the parts. Each record holds its one field only.

* `Connective.encode`, `Connective.decode?` : connectives by name (`Connective.decode?_encode`);
* `Requirement.encode`, `Requirement.decode?` : requirements (`Requirement.decode?_encode`).
-/

namespace Prereq

open Wire (Value)

/-! ## Connectives -/

namespace Connective

/-- The name of a connective. -/
def name : Connective → String
  | .all => "And"
  | .any => "Or"

/-- The connective of a name. -/
def ofName? (s : String) : Option Connective :=
  if s = "And" then some .all else if s = "Or" then some .any else none

/-- A connective is its name. -/
def encode (c : Connective) : Value := .text c.name

/-- A connective is its name, or a record with that name as its only field, which is null. -/
def decode? : Value → Option Connective
  | .text s => ofName? s
  | .record [(s, .null)] => ofName? s
  | _ => none

@[simp] theorem decode?_encode (c : Connective) : decode? c.encode = some c := by
  cases c <;> rfl

end Connective

/-! ## Requirements -/

namespace Requirement

/-- The record of a requirement. -/
def encode : Requirement → Value :=
  fold (fun n => .record [("Id", n.encode)]) fun c parts =>
    .record [("Op", .list [c.encode, .list parts])]

mutual

/-- The requirement of a record. -/
def decode? : Value → Option Requirement
  | .record [(name, .list [c, .list parts])] =>
    if name = "Op" then do return .group (← Connective.decode? c) (← decodeAll? parts) else none
  | .record [(name, v)] => if name = "Id" then (Node.decode? v).map .node else none
  | _ => none

/-- The requirements of some records. -/
def decodeAll? : List Value → Option (List Requirement)
  | [] => some []
  | v :: vs => do return (← decode? v) :: (← decodeAll? vs)

end

@[simp] theorem encode_node (n : Node) : (Requirement.node n).encode = .record [("Id", n.encode)] :=
  rfl

@[simp] theorem encode_group (c : Connective) (parts : List Requirement) :
    (group c parts).encode = .record [("Op", .list [c.encode, .list (parts.map encode)])] := by
  simp [encode]

theorem decode?_encode (r : Requirement) : decode? r.encode = some r := by
  induction r with
  | node n =>
    rw [encode_node, Node.encode, decode?, if_pos rfl]
    · exact congrArg (Option.map Requirement.node) (Node.decode?_encode n)
    · exact nofun
  | group c parts ih =>
    have hparts : decodeAll? (parts.map encode) = some parts := by
      induction parts with
      | nil => rfl
      | cons p parts ihp =>
        rw [List.map_cons, decodeAll?, ih p List.mem_cons_self,
          ihp fun q hq => ih q (List.mem_cons_of_mem p hq)]
        rfl
    rw [encode_group, decode?, if_pos rfl, Connective.decode?_encode, hparts]
    rfl

end Requirement

end Prereq
