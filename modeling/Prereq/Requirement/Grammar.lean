import Prereq.Requirement.Pathway
import Prereq.Text.Blank

/-!
# The grammar of requirement texts

    disjunction = conjunction { "OR" conjunction }
    conjunction = operand { [ "AND" | "," ] operand }
    operand     = "(" disjunction ")" | number

* `Grammar.Disjunction`, `Grammar.Conjunction`, `Grammar.Operand` : the derivations of the three
  rules, each with its `lexemes` and its `pathways`;
* `Grammar.Lexeme` : the terminal symbols, with `Grammar.Lexeme.Spells` for the ways to write one;
* `Grammar.Rendering` : the texts of some lexemes. White space may stand anywhere between them and
  has to stand between two numbers.

The pathways of a derivation are given rule by rule and say nothing of how a text is read.
-/

namespace Prereq.Grammar

/-! ## Derivations -/

/-- What joins two operands of a conjunction. -/
inductive Juncture where
  /-- The keyword AND. -/
  | keyword
  /-- A comma. -/
  | comma
  /-- Nothing; the operands stand side by side. -/
  | nothing
  deriving DecidableEq, Repr

mutual

/-- One or more conjunctions with OR between them. -/
inductive Disjunction where
  /-- The last conjunction. -/
  | last (k : Conjunction)
  /-- A conjunction and, after OR, the others. -/
  | more (k : Conjunction) (rest : Disjunction)

/-- One or more operands with a juncture between them. -/
inductive Conjunction where
  /-- The last operand. -/
  | last (o : Operand)
  /-- An operand and, after a juncture, the others. -/
  | more (o : Operand) (j : Juncture) (rest : Conjunction)

/-- A number or a group in parentheses. -/
inductive Operand where
  /-- The number of a node. -/
  | number (n : Node)
  /-- A disjunction in parentheses. -/
  | group (d : Disjunction)

end

/-! ## Pathways of a derivation -/

mutual

/-- The pathways of the conjunctions, one list after the other. -/
def Disjunction.pathways : Disjunction → List Pathway
  | .last k => k.pathways
  | .more k rest => k.pathways ++ rest.pathways

/-- Every choice of a pathway for each operand, in the order of the choices from left to right. -/
def Conjunction.pathways : Conjunction → List Pathway
  | .last o => o.pathways
  | .more o _ rest => o.pathways.flatMap fun p => rest.pathways.map fun q => p ++ q

/-- A number is a pathway by itself. -/
def Operand.pathways : Operand → List Pathway
  | .number n => [[n]]
  | .group d => d.pathways

end

/-! ## Texts of a derivation -/

/-- A terminal symbol. -/
inductive Lexeme where
  /-- An opening parenthesis. -/
  | opening
  /-- A closing parenthesis. -/
  | closing
  /-- The keyword of a connective. -/
  | keyword (c : Connective)
  /-- A comma. -/
  | comma
  /-- The number of a node. -/
  | number (n : Node)
  deriving DecidableEq, Repr

/-- What a juncture consists of. -/
def Juncture.lexemes : Juncture → List Lexeme
  | .keyword => [.keyword .all]
  | .comma => [.comma]
  | .nothing => []

mutual

/-- The terminal symbols of a disjunction. -/
def Disjunction.lexemes : Disjunction → List Lexeme
  | .last k => k.lexemes
  | .more k rest => k.lexemes ++ .keyword .any :: rest.lexemes

/-- The terminal symbols of a conjunction. -/
def Conjunction.lexemes : Conjunction → List Lexeme
  | .last o => o.lexemes
  | .more o j rest => o.lexemes ++ (j.lexemes ++ rest.lexemes)

/-- The terminal symbols of an operand. -/
def Operand.lexemes : Operand → List Lexeme
  | .number n => [.number n]
  | .group d => .opening :: d.lexemes ++ [.closing]

end

/-- The ways to write a lexeme: keywords in capitals or not, and numbers in decimal digits, leading
zeros allowed. -/
def Lexeme.Spells : Lexeme → List Char → Prop
  | .opening, w => w = ['(']
  | .closing, w => w = [')']
  | .keyword c, w => w.map Char.toUpper = c.letters
  | .comma, w => w = [',']
  | .number n, w => w ≠ [] ∧ (∀ y ∈ w, y.isDigit) ∧ Nat.ofDigitChars 10 w 0 = n.toNat

/-- Whether a lexeme is a number, which would run on into a digit after it. -/
def Lexeme.isNumber : Lexeme → Bool
  | .number _ => true
  | _ => false

/-- The texts of some lexemes, with white space around them. -/
inductive Rendering : List Lexeme → List Char → Prop where
  | nil {blanks : List Char} (blank : Text.isBlank blanks) : Rendering [] blanks
  | cons {x : Lexeme} {xs : List Lexeme} {blanks word rest : List Char}
    (blank : Text.isBlank blanks) (spells : x.Spells word)
    (apart : x.isNumber → ∀ y ∈ rest.head?, y.isDigit = false) (rendering : Rendering xs rest) :
    Rendering (x :: xs) (blanks ++ (word ++ rest))

end Prereq.Grammar
