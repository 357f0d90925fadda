import Prereq.Proofs.Text.Boundaries
import Prereq.Proofs.Text.Words

/-!
# Replacing a word by a search

A search for a word looks at each place of a text in turn, asks whether the word stands there between
two word boundaries, and goes on behind it if it does. Where it is replaced by another one, all
words of the text that are equal to it are replaced.

* `StandsAt` : whether a word stands at some place between two boundaries (`standsAt_iff`: the word
  that begins there is this one);
* `replaceWord` : the search and replacement (`replaceWord_eq`);
* `mem_words_of_standsAt` : what the search finds is a word of the text.
-/

namespace Prereq.Text

variable {w v s : List Char} {before : Option Char}

/-- Whether `w` stands at the start of a text that follows `before`, between two word boundaries. -/
def StandsAt (w : List Char) (before : Option Char) (s : List Char) : Prop :=
  isBoundary before s.head? ∧ w <+: s ∧ isBoundary w.getLast? (s.drop w.length).head?

instance (w : List Char) (before : Option Char) (s : List Char) : Decidable (StandsAt w before s) :=
  inferInstanceAs (Decidable (_ ∧ _ ∧ _))

/-- Put `v` for each `w` between word boundaries, one search after the other, in a text that stands
after `before`. -/
def replaceWordFrom (w v : List Char) (before : Option Char) : List Char → List Char
  | [] => []
  | c :: rest =>
    if StandsAt w before (c :: rest) then
      v ++ replaceWordFrom w v w.getLast? (rest.drop (w.length - 1))
    else c :: replaceWordFrom w v (some c) rest
termination_by s => s.length
decreasing_by
  · rw [List.length_drop, List.length_cons]
    omega
  · exact Nat.lt_succ_self _

/-- Put `v` for each `w` that stands between word boundaries; `w` may not be empty. -/
def replaceWord (w v s : List Char) : List Char := replaceWordFrom w v none s

/-! ## One place -/

section

variable (hne : w ≠ []) (hw : ∀ c ∈ w, isWordChar c)

include hne hw

theorem standsAt_append_iff {t : List Char} :
    StandsAt w before (w ++ t) ↔ ¬ before.any isWordChar ∧ t.takeWhile isWordChar = [] := by
  have hfirst : (w ++ t).head?.any isWordChar := by
    rw [List.head?_append, List.head?_eq_some_head hne, Option.some_or, Option.any_some]
    exact hw _ (List.head_mem hne)
  have hstart : isBoundary before (w ++ t).head? ↔ ¬ before.any isWordChar := by
    rw [isBoundary, hfirst, Bool.bne_true, Bool.not_eq_true', Bool.not_eq_true]
  have hend : isBoundary w.getLast? t.head? ↔ t.takeWhile isWordChar = [] := by
    rw [List.getLast?_eq_some_getLast hne]
    exact isBoundary_head? (hw _ (List.getLast_mem hne)) t
  rw [StandsAt, List.drop_left, hstart, hend]
  exact and_congr_right fun _ => and_iff_right (List.prefix_append w t)

/-- The place is one where a word begins, and this word is `w`. -/
theorem standsAt_iff :
    StandsAt w before s ↔ ¬ before.any isWordChar ∧ s.takeWhile isWordChar = w := by
  constructor
  · intro h
    obtain ⟨t, rfl⟩ := h.2.1
    obtain ⟨hbefore, hend⟩ := (standsAt_append_iff hne hw).1 h
    exact ⟨hbefore, by rw [List.takeWhile_append_of_pos hw, hend, List.append_nil]⟩
  · rintro ⟨hbefore, hword⟩
    have hsplit : w ++ s.dropWhile isWordChar = s := by
      rw [← hword, List.takeWhile_append_dropWhile]
    have hend : (s.dropWhile isWordChar).takeWhile isWordChar = [] := by
      rw [← hsplit, List.takeWhile_append_of_pos hw] at hword
      exact List.append_right_eq_self.1 hword
    rw [← hsplit]
    exact (standsAt_append_iff hne hw).2 ⟨hbefore, hend⟩

/-- Where the word stands, it is a word of the whole text. -/
theorem mem_words_of_standsAt {t : List Char} (h : StandsAt w s.getLast? t) :
    w ∈ words (s ++ t) := by
  obtain ⟨hbefore, hword⟩ := (standsAt_iff hne hw).1 h
  have hmem : w ∈ words t := by
    cases t with
    | nil => exact absurd hword.symm hne
    | cons c rest =>
      have hc : isWordChar c := by
        by_contra hc
        rw [List.takeWhile_cons_of_neg hc] at hword
        exact hne hword.symm
      rw [words, runs, runsFrom_false_cons hc, hword]
      exact List.mem_cons_self
  rcases List.eq_nil_or_concat s with rfl | ⟨init, x, rfl⟩
  · exact hmem
  · rw [List.concat_eq_append] at hbefore ⊢
    rw [List.getLast?_concat, Option.any_some, Bool.not_eq_true] at hbefore
    rw [List.append_assoc, List.singleton_append, words_append_break hbefore]
    exact List.mem_append_right _ hmem

end

/-! ## All places -/

/-- What continues a run from before the text was replaced with that run. -/
theorem mapRunsFrom_true_append {p : Char → Bool} (f : List Char → List Char)
    (hs : ∀ c ∈ s, p c) (t : List Char) :
    mapRunsFrom p f true (s ++ t) = mapRunsFrom p f true t := by
  induction s with
  | nil => rfl
  | cons c s ih =>
    obtain ⟨hc, hs⟩ := List.forall_mem_cons.1 hs
    rw [List.cons_append, mapRunsFrom, if_pos hc, if_pos rfl, ih hs]

/-- A run that starts here is replaced. -/
theorem mapRunsFrom_false_append {p : Char → Bool} (f : List Char → List Char) (hne : s ≠ [])
    (hs : ∀ c ∈ s, p c) {t : List Char} (ht : t.takeWhile p = []) :
    mapRunsFrom p f false (s ++ t) = f s ++ mapRunsFrom p f true t := by
  obtain ⟨c, s, rfl⟩ := List.exists_cons_of_ne_nil hne
  obtain ⟨hc, hs⟩ := List.forall_mem_cons.1 hs
  have hrun : c :: (s ++ t).takeWhile p = c :: s := by
    rw [List.takeWhile_append_of_pos hs, ht, List.append_nil]
  rw [List.cons_append, mapRunsFrom, if_pos hc, if_neg Bool.false_ne_true, hrun,
    mapRunsFrom_true_append f hs]

section

variable (hne : w ≠ []) (hw : ∀ c ∈ w, isWordChar c)

include hne hw

/-- The search keeps what continues a word from before the text, and replaces the words that start
in the text if they are `w`. -/
theorem replaceWordFrom_eq (v : List Char) (before : Option Char) (s : List Char) :
    replaceWordFrom w v before s =
      (if before.any isWordChar then s.takeWhile isWordChar else []) ++
        mapRunsFrom isWordChar (fun x => if x = w then v else x) (before.any isWordChar) s := by
  induction before, s using replaceWordFrom.induct w with
  | case1 before => cases h : before.any isWordChar <;> simp [replaceWordFrom, mapRunsFrom]
  | case2 before c rest hstands ih =>
    -- The word `w` starts at `c`, and the search goes on behind it, where no word continues.
    obtain ⟨t, ht⟩ := hstands.2.1
    have hdrop : rest.drop (w.length - 1) = t := by
      obtain ⟨d, w', rfl⟩ := List.exists_cons_of_ne_nil hne
      rw [List.cons_append] at ht
      obtain ⟨rfl, rfl⟩ := List.cons.inj ht
      exact List.drop_left
    obtain ⟨hbefore, hend⟩ := (standsAt_append_iff hne hw).1 (ht ▸ hstands)
    rw [replaceWordFrom, if_pos hstands, ih, hdrop, any_getLast?_of_all hne hw, if_pos rfl, hend,
      List.nil_append, if_neg hbefore, List.nil_append, Bool.eq_false_iff.2 hbefore, ← ht,
      mapRunsFrom_false_append _ hne hw hend, if_pos rfl]
  | case3 before c rest hstands ih =>
    -- `c` continues a word or is of none, or another word starts at `c`.
    rw [replaceWordFrom, if_neg hstands, ih, Option.any_some, mapRunsFrom]
    by_cases hc : isWordChar c
    · cases hbefore : before.any isWordChar with
      | true => simp only [hc, if_true, List.takeWhile_cons_of_pos, List.cons_append]
      | false =>
        have hother : c :: rest.takeWhile isWordChar ≠ w := by
          intro hword
          refine hstands ((standsAt_iff hne hw).2 ⟨by simp [hbefore], ?_⟩)
          rw [List.takeWhile_cons_of_pos hc, hword]
        simp only [hc, hother, if_true, if_false, Bool.false_eq_true, List.nil_append,
          List.cons_append]
    · simp only [hc, if_false, Bool.false_eq_true, List.nil_append, List.takeWhile_cons_of_neg,
        ite_self, not_false_eq_true]

/-- The search replaces the words that are `w`. -/
theorem replaceWord_eq (v s : List Char) :
    replaceWord w v s = mapWords (fun x => if x = w then v else x) s :=
  replaceWordFrom_eq hne hw v none s

end

end Prereq.Text
