import Mathlib.Data.List.TakeWhile
import Prereq.Text.Word

/-!
# Stretches between word boundaries

A search for stretches of some class `p` of word characters, digits say, that begin and end at a
word boundary looks at each place of a text in turn, takes as many characters as it can, and gives
characters back until it stands at a boundary. What it finds are the words all of whose characters
are of that class.

* `isBoundary` : whether a word begins or ends between two neighbours;
* `stretch?` : the longest stretch at the start of a text that ends at a boundary
  (`stretch?_eq`: the word there, or nothing);
* `delimited` : the stretches that the search finds (`delimited_eq`).
-/

namespace Prereq.Text

/-- Whether a word begins or ends between two neighbouring characters; there is none before the
first and none after the last. -/
def isBoundary (before after : Option Char) : Bool := before.any isWordChar != after.any isWordChar

/-- The longest stretch of characters of class `p` at the start of a text, of one character at
least, that ends at a word boundary, with what follows it. -/
def stretch? (p : Char → Bool) : List Char → Option (List Char × List Char)
  | [] => none
  | c :: rest =>
    if p c then
      match stretch? p rest with
      | some (w, after) => some (c :: w, after)
      | none => if isBoundary (some c) rest.head? then some ([c], rest) else none
    else none

theorem length_of_stretch? {p : Char → Bool} {s w after : List Char}
    (h : stretch? p s = some (w, after)) : after.length < s.length := by
  induction s generalizing w with
  | nil => cases h
  | cons c s ih =>
    rw [stretch?] at h
    split at h
    · split at h
      next w' after' hw =>
        cases h
        exact Nat.lt_succ_of_lt (ih hw)
      next =>
        split at h
        · cases h
          exact Nat.lt_succ_self _
        · cases h
    · cases h

/-- The stretches of class `p` between word boundaries, one search after the other, in a text
that stands after `before`. -/
def delimitedFrom (p : Char → Bool) (before : Option Char) : List Char → List (List Char)
  | [] => []
  | c :: rest =>
    if isBoundary before (some c) then
      match _h : stretch? p (c :: rest) with
      | some (w, after) => w :: delimitedFrom p w.getLast? after
      | none => delimitedFrom p (some c) rest
    else delimitedFrom p (some c) rest
termination_by s => s.length
decreasing_by
  · exact length_of_stretch? _h
  · exact Nat.lt_succ_self _
  · exact Nat.lt_succ_self _

/-- The stretches of class `p` that begin and end at a word boundary, in order. -/
def delimited (p : Char → Bool) (s : List Char) : List (List Char) := delimitedFrom p none s

/-! ## One stretch -/

/-- After a word character, a word ends where the text that follows begins with none. -/
theorem isBoundary_head? {c : Char} (hc : isWordChar c) (s : List Char) :
    isBoundary (some c) s.head? ↔ s.takeWhile isWordChar = [] := by
  cases s with
  | nil => simp [isBoundary, hc]
  | cons d s => by_cases hd : isWordChar d <;> simp [isBoundary, hc, hd]

section

variable {p : Char → Bool} (hp : ∀ c, p c → isWordChar c)

include hp

/-- A stretch at the start of a text that ends at a boundary is the word there: after fewer of its
characters the word goes on. -/
theorem stretch?_eq (s : List Char) :
    stretch? p s =
      if s.takeWhile isWordChar ≠ [] ∧ (s.takeWhile isWordChar).all p then
        some (s.takeWhile isWordChar, s.dropWhile isWordChar)
      else none := by
  induction s with
  | nil => rfl
  | cons c s ih =>
    rw [stretch?, ih]
    by_cases hc : p c
    · have hword := hp c hc
      rw [if_pos hc, List.takeWhile_cons_of_pos hword, List.dropWhile_cons_of_pos hword,
        List.all_cons, hc, Bool.true_and]
      by_cases hend : s.takeWhile isWordChar = []
      · have hrest : s.dropWhile isWordChar = s := by
          have hsplit := List.takeWhile_append_dropWhile (p := isWordChar) (l := s)
          rwa [hend] at hsplit
        simp [hend, hrest, (isBoundary_head? hword s).2 hend]
      · have hinside : ¬ isBoundary (some c) s.head? := mt (isBoundary_head? hword s).1 hend
        by_cases hall : (s.takeWhile isWordChar).all p
        · simp only [ne_eq, hend, hall, not_false_eq_true, and_self, if_true, List.cons_ne_nil]
        · simp only [hall, hinside, and_false, if_false, Bool.false_eq_true]
    · rw [if_neg hc, if_neg]
      rintro ⟨hne, hall⟩
      by_cases hword : isWordChar c
      · rw [List.takeWhile_cons_of_pos hword, List.all_cons, Bool.and_eq_true] at hall
        exact hc hall.1
      · exact hne (List.takeWhile_cons_of_neg hword)

theorem eq_of_stretch?_eq_some {s w after : List Char} (h : stretch? p s = some (w, after)) :
    w = s.takeWhile isWordChar ∧ after = s.dropWhile isWordChar ∧
      s.takeWhile isWordChar ≠ [] ∧ (s.takeWhile isWordChar).all p := by
  rw [stretch?_eq hp] at h
  split at h
  next hfirst =>
    obtain ⟨rfl, rfl⟩ := Prod.mk.inj (Option.some.inj h)
    exact ⟨rfl, rfl, hfirst⟩
  next => cases h

end

/-! ## All stretches -/

/-- What is left of a run from before a text is passed over. -/
theorem runsFrom_true_dropWhile (p : Char → Bool) (s : List Char) :
    runsFrom p true s = runsFrom p true (s.dropWhile p) := by
  induction s with
  | nil => rfl
  | cons c s ih =>
    by_cases hc : p c
    · rw [runsFrom, if_pos hc, if_pos rfl, List.dropWhile_cons_of_pos hc, ih]
    · rw [List.dropWhile_cons_of_neg hc]

/-- A run starts where a character of the class follows one that is not. -/
theorem runsFrom_false_cons {p : Char → Bool} {c : Char} (hc : p c) (s : List Char) :
    runsFrom p false (c :: s) = (c :: s).takeWhile p :: runsFrom p true s := by
  rw [runsFrom, if_pos hc, if_neg Bool.false_ne_true, List.takeWhile_cons_of_pos hc]

theorem any_getLast?_of_all {p : Char → Bool} {s : List Char} (hne : s ≠ [])
    (hs : ∀ c ∈ s, p c) : s.getLast?.any p := by
  rw [List.getLast?_eq_some_getLast hne]
  exact hs _ (List.getLast_mem hne)

theorem any_getLast?_takeWhile {p : Char → Bool} {s : List Char} (h : s.takeWhile p ≠ []) :
    (s.takeWhile p).getLast?.any p :=
  any_getLast?_of_all h fun _ => List.mem_takeWhile_imp

section

variable {p : Char → Bool} (hp : ∀ c, p c → isWordChar c)

include hp

/-- The search finds the words that are all of class `p`. -/
theorem delimitedFrom_eq (before : Option Char) (s : List Char) :
    delimitedFrom p before s =
      (runsFrom isWordChar (before.any isWordChar) s).filter (·.all p) := by
  induction before, s using delimitedFrom.induct p with
  | case1 before => simp [delimitedFrom, runsFrom]
  | case2 before c s hstart w after hw ih =>
    -- A word of the class starts at `c`.
    rw [delimitedFrom, if_pos hstart]
    split
    next w' after' hw' =>
      obtain ⟨rfl, rfl⟩ := Prod.mk.inj (Option.some.inj (hw.symm.trans hw'))
      obtain ⟨rfl, rfl, hne, hall⟩ := eq_of_stretch?_eq_some hp hw
      have hc : isWordChar c := by
        by_contra hc
        exact hne (List.takeWhile_cons_of_neg hc)
      rw [isBoundary, Option.any_some, hc, Bool.bne_true, Bool.not_eq_true'] at hstart
      rw [ih, any_getLast?_takeWhile hne, hstart, runsFrom_false_cons hc,
        List.filter_cons_of_pos (p := (List.all · p)) hall, List.dropWhile_cons_of_pos hc,
        ← runsFrom_true_dropWhile]
    next hnone => cases hw.symm.trans hnone
  | case3 before c s hstart hw ih =>
    -- A word with other characters starts at `c`, or one has ended before `c`.
    rw [delimitedFrom, if_pos hstart]
    split
    next w' after' hw' => cases hw.symm.trans hw'
    next =>
      rw [ih, Option.any_some]
      by_cases hc : isWordChar c
      · have hall : ¬ ((c :: s).takeWhile isWordChar).all p := by
          intro hall
          have hne : (c :: s).takeWhile isWordChar ≠ [] := by
            rw [List.takeWhile_cons_of_pos hc]
            exact List.cons_ne_nil _ _
          rw [stretch?_eq hp, if_pos ⟨hne, hall⟩] at hw
          cases hw
        rw [isBoundary, Option.any_some, hc, Bool.bne_true, Bool.not_eq_true'] at hstart
        rw [hc, hstart, runsFrom_false_cons hc,
          List.filter_cons_of_neg (p := (List.all · p)) hall]
      · rw [runsFrom, if_neg hc, Bool.eq_false_iff.2 hc]
  | case4 before c s hinside ih =>
    -- `c` and its neighbour are of one word, or neither is of any.
    have hsame : before.any isWordChar = isWordChar c := by simpa [isBoundary] using hinside
    rw [delimitedFrom, if_neg hinside, ih, runsFrom, hsame, Option.any_some]
    by_cases hc : isWordChar c
    · rw [if_pos hc, if_pos hc, hc]
    · rw [if_neg hc, Bool.eq_false_iff.2 hc]

theorem delimited_eq (s : List Char) : delimited p s = (words s).filter (·.all p) :=
  delimitedFrom_eq hp none s

end

end Prereq.Text
