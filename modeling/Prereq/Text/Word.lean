import Prereq.Text.Run
import Prereq.Text.WordTable

/-!
# Words

* `isWordChar` : the characters that words are made of, letters and digits of any script among
  them;
* `words`, `mapWords` : the words of a text, and the text with each word replaced.

A word is a maximal run, so `a12` is one word and holds no numeral of its own.
-/

namespace Prereq.Text

/-- The word characters: ASCII letters, digits and the underscore, and beyond ASCII the code
points of `wordRanges`. -/
def isWordChar (c : Char) : Bool :=
  c.isAlphanum || c == '_' ||
    (decide (128 ≤ c.toNat) && wordRanges.any fun r => r.1 ≤ c.toNat && c.toNat ≤ r.2)

/-- The words of a text, in order. -/
def words (s : List Char) : List (List Char) := runs isWordChar s

/-- Replace every word of a text. -/
def mapWords (f : List Char → List Char) (s : List Char) : List Char := mapRuns isWordChar f s

theorem isWordChar_of_isDigit {c : Char} (h : c.isDigit = true) : isWordChar c = true := by
  simp [isWordChar, Char.isAlphanum, h]

end Prereq.Text
