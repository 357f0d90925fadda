/-!
# Maximal runs

A run is a stretch of neighbouring characters of one class that no neighbour on either side
extends.

* `runs p s` : the maximal runs of characters of class `p` in `s`, in order;
* `mapRuns p f s` : `s` with each of these runs `w` replaced by `f w`;
* `runsFrom`, `mapRunsFrom` : the same for a text that is preceded by a character of the class
  (`true`) or not (`false`).
-/

namespace Prereq.Text

/-- The runs that start in a text; `inside` is whether the character before the text is of the
class, in which case the text's first characters continue an earlier run. -/
def runsFrom (p : Char → Bool) : (inside : Bool) → List Char → List (List Char)
  | _, [] => []
  | inside, c :: rest =>
    if p c then
      if inside then runsFrom p true rest
      else (c :: rest.takeWhile p) :: runsFrom p true rest
    else runsFrom p false rest

/-- The maximal runs of characters of class `p`, in order. -/
def runs (p : Char → Bool) (s : List Char) : List (List Char) := runsFrom p false s

/-- Replace the runs that start in a text, keeping what lies between them; characters that
continue a run from before the text were replaced with that run. -/
def mapRunsFrom (p : Char → Bool) (f : List Char → List Char) :
    (inside : Bool) → List Char → List Char
  | _, [] => []
  | inside, c :: rest =>
    if p c then
      if inside then mapRunsFrom p f true rest
      else f (c :: rest.takeWhile p) ++ mapRunsFrom p f true rest
    else c :: mapRunsFrom p f false rest

/-- Replace every maximal run of class `p`. -/
def mapRuns (p : Char → Bool) (f : List Char → List Char) (s : List Char) : List Char :=
  mapRunsFrom p f false s

end Prereq.Text
