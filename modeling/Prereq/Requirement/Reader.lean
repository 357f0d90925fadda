import Prereq.Requirement.Basic
import Prereq.Token

/-!
# Reading requirements

OR separates alternatives, each of which joins its operands by AND; parentheses group, and
operands side by side need no AND. Nothing is an error: a connective where an operand is due is
passed over, and a group that is left open ends with the text.

* `Requirement.append`, `join` : the group of two requirements, extending a group on the left that
  already has the connective;
* `Reading.Level` : what has been read of one group so far;
* `Reading` : the levels that are open, with `Reading.step` for one token and `Reading.finish` for
  the end of the text;
* `Requirement.ofTokens?`, `Requirement.read?` : the requirement that some tokens or a text hold,
  if any.
-/

namespace Prereq

namespace Requirement

/-- Two requirements under one connective; a group of that connective on the left takes the other
one in as its last part. -/
def append (c : Connective) (l r : Requirement) : Requirement :=
  match l with
  | .group d parts => if d = c then .group c (parts ++ [r]) else .group c [l, r]
  | .node _ => .group c [l, r]

/-- Two requirements under one connective, either of which may be missing. -/
def join (c : Connective) : Option Requirement → Option Requirement → Option Requirement
  | none, r => r
  | some l, none => some l
  | some l, some r => some (l.append c r)

end Requirement

/-! ## Levels -/

/-- What has been read of a group, or of the text outside all groups. -/
structure Reading.Level where
  /-- The alternatives that have ended, under OR. -/
  before : Option Requirement
  /-- The operands of the alternative being read, under AND. -/
  current : Option Requirement
  /-- Whether an operand is due, so that a connective here is passed over. -/
  due : Bool
  deriving DecidableEq, Repr

namespace Reading.Level

/-- The level before anything of it is read. -/
def start : Level := ⟨none, none, true⟩

/-- Read an operand; a group without any node adds nothing, yet it is an operand. -/
def operand (l : Level) (r : Option Requirement) : Level :=
  ⟨l.before, Requirement.join .all l.current r, false⟩

/-- What the level holds if it ends here. -/
def value (l : Level) : Option Requirement := Requirement.join .any l.before l.current

/-- Read a connective: OR ends the alternative, unless an operand is due. -/
def connective (l : Level) : Connective → Level
  | .all => ⟨l.before, l.current, true⟩
  | .any => if l.due then l else ⟨l.value, none, true⟩

end Reading.Level

/-! ## Readings -/

/-- A text read up to some point: the level there, and the levels around it from the inside
out. -/
structure Reading where
  /-- The innermost level. -/
  inner : Reading.Level
  /-- The levels around it. -/
  outer : List Reading.Level
  deriving DecidableEq, Repr

namespace Reading

/-- The reading of no token. -/
def start : Reading := ⟨Level.start, []⟩

/-- Read one token. -/
def step (s : Reading) : Token → Reading
  | .opening => ⟨Level.start, s.inner :: s.outer⟩
  | .closing =>
    match s.outer with
    | [] => s
    | l :: outer => ⟨l.operand s.inner.value, outer⟩
  | .connective c => ⟨s.inner.connective c, s.outer⟩
  | .node n => ⟨s.inner.operand (some (.node n)), s.outer⟩

/-- Read several tokens. -/
def run (s : Reading) (ts : List Token) : Reading := ts.foldl step s

/-- What the text holds if it ends here: every open group ends, from the inside out. -/
def finish (s : Reading) : Option Requirement :=
  (s.outer.foldl (fun inner l => l.operand inner.value) s.inner).value

end Reading

namespace Requirement

/-- The requirement that a sequence of tokens holds; `none` if it names no node. -/
def ofTokens? (ts : List Token) : Option Requirement := (Reading.start.run ts).finish

/-- The requirement that a text holds; `none` if it names no node. -/
def read? (s : String) : Option Requirement := ofTokens? (Token.ofText s.toList)

end Requirement

end Prereq
