/-!
# Connectives

* `Connective` : how the parts of a group combine, all of them or any one of them;
* `Connective.letters` : the keyword of a connective;
* `Connective.separator` : what is written between two parts.
-/

namespace Prereq

/-- How the parts of a group combine. -/
inductive Connective where
  /-- Every part is needed. -/
  | all
  /-- One part is enough. -/
  | any
  deriving DecidableEq, Repr

namespace Connective

/-- The letters of the keyword, in capitals. -/
def letters : Connective → List Char
  | .all => ['A', 'N', 'D']
  | .any => ['O', 'R']

/-- The keyword as text. -/
def keyword (c : Connective) : String := String.ofList c.letters

/-- The keyword between two blanks, as it is written between two parts. -/
def separator (c : Connective) : List Char := ' ' :: c.letters ++ [' ']

end Connective

end Prereq
