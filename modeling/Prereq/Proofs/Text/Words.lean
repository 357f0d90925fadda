import Prereq.Mention
import Prereq.Text.Blank

/-!
# Words piece by piece

* `Text.isBlankChar_iff`, `Text.isDigit_iff` : character classes by code point;
* `Text.not_isWordChar_of_isBlankChar` : white space stands in no word;
* `Text.words_append_break` : a character that stands in no word separates the words before it
  from those after it;
* `mentionsIn` : the nodes that some characters mention, with their words.
-/

namespace Prereq

namespace Text

variable {x : Char} {s rest : List Char}

/-! ## Character classes -/

theorem isBlankChar_iff : isBlankChar x ↔ (9 ≤ x.toNat ∧ x.toNat ≤ 13) ∨ x.toNat = 0x20 ∨
    x.toNat = 0x85 ∨ x.toNat = 0xA0 ∨ x.toNat = 0x1680 ∨ (0x2000 ≤ x.toNat ∧ x.toNat ≤ 0x200A) ∨
    x.toNat = 0x2028 ∨ x.toNat = 0x2029 ∨ x.toNat = 0x202F ∨ x.toNat = 0x205F ∨
    x.toNat = 0x3000 := by
  simp [isBlankChar, or_assoc]

theorem isDigit_iff : x.isDigit ↔ 48 ≤ x.toNat ∧ x.toNat ≤ 57 := by
  simp only [Char.isDigit, Bool.and_eq_true, decide_eq_true_eq, ge_iff_le, UInt32.le_iff_toNat_le]
  exact Iff.rfl

theorem isAlpha_bounds (h : x.isAlpha) : 65 ≤ x.toNat ∧ x.toNat ≤ 122 := by
  have hcases : (65 ≤ x.toNat ∧ x.toNat ≤ 90) ∨ (97 ≤ x.toNat ∧ x.toNat ≤ 122) := by
    refine (Bool.or_eq_true_iff.1 h).imp (fun hupper => ?_) fun hlower => ?_
    · obtain ⟨hge, hle⟩ : 'A'.val ≤ x.val ∧ x.val ≤ 'Z'.val := of_decide_eq_true hupper
      exact ⟨UInt32.le_iff_toNat_le.1 hge, UInt32.le_iff_toNat_le.1 hle⟩
    · obtain ⟨hge, hle⟩ := Bool.and_eq_true_iff.1 hlower
      have hge : 'a'.val ≤ x.val := of_decide_eq_true hge
      exact ⟨UInt32.le_iff_toNat_le.1 hge, UInt32.le_iff_toNat_le.1 (of_decide_eq_true hle)⟩
  omega

theorem isWordChar_of_isAlpha (h : x.isAlpha) : isWordChar x := by
  simp [isWordChar, Char.isAlphanum, h]

/-- The white space beyond ASCII is in no range of word characters. -/
theorem wordRanges_any_blank : ∀ n ∈ [0x85, 0xA0, 0x1680, 0x2000, 0x2001, 0x2002, 0x2003, 0x2004,
    0x2005, 0x2006, 0x2007, 0x2008, 0x2009, 0x200A, 0x2028, 0x2029, 0x202F, 0x205F, 0x3000],
    (wordRanges.any fun r => r.1 ≤ n && n ≤ r.2) = false := by
  decide +kernel

theorem not_isWordChar_of_isBlankChar (h : isBlankChar x) : isWordChar x = false := by
  rw [isBlankChar_iff] at h
  have halnum : x.isAlphanum = false := by
    rw [Bool.eq_false_iff]
    intro hx
    rcases Bool.or_eq_true_iff.1 hx with hx | hx
    · have := isAlpha_bounds hx
      omega
    · rw [isDigit_iff] at hx
      omega
  have hline : (x == '_') = false := by
    rw [beq_eq_false_iff_ne]
    rintro rfl
    revert h
    decide
  unfold isWordChar
  rw [halnum, hline, Bool.false_or, Bool.false_or]
  by_cases hlow : x.toNat < 128
  · rw [decide_eq_false (by omega), Bool.false_and]
  · have hmem : x.toNat ∈ [0x85, 0xA0, 0x1680, 0x2000, 0x2001, 0x2002, 0x2003, 0x2004, 0x2005,
        0x2006, 0x2007, 0x2008, 0x2009, 0x200A, 0x2028, 0x2029, 0x202F, 0x205F, 0x3000] := by
      simp only [List.mem_cons, List.not_mem_nil, or_false]
      omega
    rw [wordRanges_any_blank _ hmem, Bool.and_false]

/-! ## Runs -/

theorem takeWhile_append_break {p : Char → Bool} (hx : p x = false) :
    (s ++ x :: rest).takeWhile p = s.takeWhile p := by
  induction s with
  | nil => simp [hx]
  | cons y s ih => by_cases hy : p y <;> simp [hy, ih]

theorem runsFrom_append_break {p : Char → Bool} (inside : Bool) (hx : p x = false) :
    runsFrom p inside (s ++ x :: rest) = runsFrom p inside s ++ runs p rest := by
  induction s generalizing inside with
  | nil => simp [runsFrom, hx, runs]
  | cons y s ih =>
    rw [List.cons_append, runsFrom, runsFrom, takeWhile_append_break hx, ih, ih]
    split
    · split
      · rfl
      · rw [List.cons_append]
    · rfl

theorem words_append_break (hx : isWordChar x = false) :
    words (s ++ x :: rest) = words s ++ words rest := runsFrom_append_break false hx

theorem words_cons_break (hx : isWordChar x = false) : words (x :: s) = words s :=
  words_append_break (s := []) hx

theorem runsFrom_true_of_all {p : Char → Bool} (hs : ∀ y ∈ s, p y) : runsFrom p true s = [] := by
  induction s with
  | nil => rfl
  | cons y s ih =>
    rw [runsFrom, if_pos (hs y List.mem_cons_self), if_pos rfl,
      ih fun z hz => hs z (List.mem_cons_of_mem y hz)]

/-- A stretch of word characters is one word. -/
theorem words_of_all (hne : s ≠ []) (hs : ∀ y ∈ s, isWordChar y) : words s = [s] := by
  cases s with
  | nil => exact absurd rfl hne
  | cons y s =>
    have htail : ∀ z ∈ s, isWordChar z := fun z hz => hs z (List.mem_cons_of_mem y hz)
    have hrun : s.takeWhile isWordChar = s := by
      rw [← List.append_nil s, List.takeWhile_append_of_pos htail, List.takeWhile_nil]
    rw [words, runs, runsFrom, if_pos (hs y List.mem_cons_self), if_neg Bool.false_ne_true, hrun,
      runsFrom_true_of_all htail]

end Text

/-! ## Mentions -/

/-- The nodes that some characters mention. -/
def mentionsIn (s : List Char) : List Node := (Text.words s).filterMap Node.read?

variable {x : Char} {s rest : List Char}

theorem mentionsIn_append_break (hx : Text.isWordChar x = false) :
    mentionsIn (s ++ x :: rest) = mentionsIn s ++ mentionsIn rest := by
  rw [mentionsIn, Text.words_append_break hx, List.filterMap_append, mentionsIn, mentionsIn]

theorem mentionsIn_cons_break (hx : Text.isWordChar x = false) :
    mentionsIn (x :: s) = mentionsIn s := by
  rw [mentionsIn, Text.words_cons_break hx, mentionsIn]

theorem mentionsIn_blanks {w : List Char} (hw : Text.isBlank w) :
    mentionsIn (w ++ s) = mentionsIn s := by
  induction w with
  | nil => rfl
  | cons y w ih =>
    rw [Text.isBlank, List.all_cons, Bool.and_eq_true] at hw
    rw [List.cons_append, mentionsIn_cons_break (Text.not_isWordChar_of_isBlankChar hw.1), ih hw.2]

theorem Node.isDigit_of_read? {d : List Char} {n : Node} (h : Node.read? d = some n) :
    d ≠ [] ∧ ∀ y ∈ d, y.isDigit := by
  unfold Node.read? at h
  split at h
  next hd => exact ⟨hd.1, List.all_eq_true.1 hd.2⟩
  next => cases h

theorem Node.read?_eq_none {d : List Char} (h : ¬ d.all Char.isDigit) : Node.read? d = none := by
  unfold Node.read?
  apply if_neg
  exact fun hd => h hd.2

theorem mentionsIn_numeral {d : List Char} {n : Node} (h : Node.read? d = some n) :
    mentionsIn d = [n] := by
  obtain ⟨hne, hd⟩ := Node.isDigit_of_read? h
  rw [mentionsIn, Text.words_of_all hne fun y hy => Text.isWordChar_of_isDigit (hd y hy)]
  exact List.filterMap_cons_some h

/-- A word that holds a letter mentions nothing. -/
theorem mentionsIn_word {w : List Char} (hw : ∀ y ∈ w, Text.isWordChar y) {y : Char} (hy : y ∈ w)
    (hletter : y.isDigit = false) : mentionsIn w = [] := by
  have hnone : Node.read? w = none := Node.read?_eq_none fun hall => by
    rw [List.all_eq_true.1 hall y hy] at hletter
    cases hletter
  rw [mentionsIn, Text.words_of_all (List.ne_nil_of_mem hy) hw]
  exact List.filterMap_cons_none hnone

end Prereq
