import Prereq.Connective
import Prereq.Node

/-!
# Tokens of a requirement text

The text is typed by hand, so every text has tokens: what is no token is passed over.

* `Token` : a parenthesis, a connective or a node;
* `Token.scan` : the tokens of a text. Keywords are read in either case and also inside words, a
  comma is read as AND, and a run of ASCII digits is a node if its value fits;
* `Token.limitNesting` : the tokens without unmatched closing parentheses and without the pairs
  that are nested more than `nestingLimit` deep;
* `Token.ofText` : both steps.
-/

namespace Prereq

/-- A token of a requirement text. -/
inductive Token where
  /-- An opening parenthesis. -/
  | opening
  /-- A closing parenthesis. -/
  | closing
  /-- A keyword, or a comma. -/
  | connective (c : Connective)
  /-- A number that names a node. -/
  | node (n : Node)
  deriving DecidableEq, Repr

namespace Token

/-! ## Scanning -/

/-- Whether a text begins with the keyword of `c`, in capitals or not. -/
def startsKeyword (c : Connective) (s : List Char) : Bool :=
  (s.take c.letters.length).map Char.toUpper == c.letters

/-- The token, other than a node, that begins at the start of a text. -/
def symbol? (s : List Char) : Option Token :=
  match s with
  | '(' :: _ => some .opening
  | ')' :: _ => some .closing
  | ',' :: _ => some (.connective .all)
  | _ =>
    if startsKeyword .all s then some (.connective .all)
    else if startsKeyword .any s then some (.connective .any)
    else none

/-- The tokens that begin in a text; `afterDigit` is whether a digit stands before the text, in
which case the text's first digits continue an earlier run. No token begins inside a keyword, so
the letters of one need not be skipped. -/
def scanFrom : (afterDigit : Bool) → List Char → List Token
  | _, [] => []
  | afterDigit, c :: rest =>
    if c.isDigit then
      if afterDigit then scanFrom true rest
      else ((Node.read? (c :: rest.takeWhile Char.isDigit)).map node).toList ++ scanFrom true rest
    else (symbol? (c :: rest)).toList ++ scanFrom false rest

/-- The tokens of a text, in order. -/
def scan (s : List Char) : List Token := scanFrom false s

/-! ## Nesting -/

/-- Parentheses count down to this depth. -/
def nestingLimit : Nat := 128

/-- Drop the parentheses that do not count, `depth` groups being open at the start: a pair at
depth `nestingLimit` or more, and a closing one that closes nothing. -/
def limitNestingFrom : (depth : Nat) → List Token → List Token
  | _, [] => []
  | depth, .opening :: rest =>
    if depth < nestingLimit then .opening :: limitNestingFrom (depth + 1) rest
    else limitNestingFrom (depth + 1) rest
  | 0, .closing :: rest => limitNestingFrom 0 rest
  | depth + 1, .closing :: rest =>
    if depth < nestingLimit then .closing :: limitNestingFrom depth rest
    else limitNestingFrom depth rest
  | depth, .connective c :: rest => .connective c :: limitNestingFrom depth rest
  | depth, .node n :: rest => .node n :: limitNestingFrom depth rest

/-- Drop unmatched closing parentheses and the pairs nested too deep. -/
def limitNesting (ts : List Token) : List Token := limitNestingFrom 0 ts

/-- The tokens of a text that count. -/
def ofText (s : List Char) : List Token := limitNesting (scan s)

end Token

end Prereq
