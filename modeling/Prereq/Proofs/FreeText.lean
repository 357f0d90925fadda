import Prereq.Proofs.Mentions
import Prereq.Proofs.Text.Replacement

/-!
# Texts that hold no requirement

Free text stays what it is when a node is deleted or renumbered. Nodes are read from digits, also
from those inside words, so a text from which none is read has no numeral for a word, and a search
for one finds nothing.

* `replaceMentions_eq_replaceWord` : mentions are replaced by a search for the numeral;
* `not_standsAt_of_read?_eq_none` : in free text the search for a numeral fails at each place;
* `edits_of_read?_eq_none` : edits leave free text alone.
-/

namespace Prereq

open Requirement (read?)

variable {s : String}

theorem Node.isWordChar_of_mem_digits {n : Node} : ∀ c ∈ n.digits, Text.isWordChar c :=
  fun _ hc => Text.isWordChar_of_isDigit (Node.isDigit_of_mem_digits hc)

theorem replaceMentions_eq_replaceWord (old new : Node) (s : String) :
    replaceMentions old new s =
      String.ofList (Text.replaceWord old.digits new.digits s.toList) := by
  rw [replaceMentions, Text.replaceWord_eq old.digits_ne_nil Node.isWordChar_of_mem_digits]

/-- A node whose numeral stands between word boundaries is mentioned. -/
theorem mem_mentions_of_standsAt {n : Node} {before after : List Char}
    (hs : s.toList = before ++ after) (h : Text.StandsAt n.digits before.getLast? after) :
    n ∈ mentions s := by
  have hword : n.digits ∈ Text.words s.toList := by
    rw [hs]
    exact Text.mem_words_of_standsAt n.digits_ne_nil Node.isWordChar_of_mem_digits h
  exact List.mem_filterMap.2 ⟨_, hword, Node.read?_digits n⟩

theorem not_standsAt_of_read?_eq_none (h : read? s = none) (n : Node) {before after : List Char}
    (hs : s.toList = before ++ after) : ¬ Text.StandsAt n.digits before.getLast? after := by
  intro hstands
  have hmem := mem_mentions_of_standsAt hs hstands
  rw [mentions_eq_nil_of_read? h] at hmem
  exact List.not_mem_nil hmem

/-- Edits leave free text alone. Where a node is renumbered, its numeral is searched for between
word boundaries, and the search fails at each place of the text. -/
theorem edits_of_read?_eq_none (s : String) (hblank : ¬ Text.isBlank s.toList)
    (h : read? s = none) :
    (∀ n, removeNode n s = s) ∧
    ∀ old new, renameNode old new s = s ∧
      renameNode old new s =
        String.ofList (Text.replaceWord old.digits new.digits s.toList) ∧
      ∀ before after, s.toList = before ++ after →
        ¬ Text.StandsAt old.digits before.getLast? after := by
  refine ⟨fun n => ?_, fun old new => ⟨?_, ?_, fun before after hs => ?_⟩⟩
  · rw [removeNode_of_read?_eq_none h, if_neg hblank]
  · rw [renameNode_of_read?_eq_none h, if_neg hblank]
  · rw [← replaceMentions_eq_replaceWord, renameNode, if_neg hblank, h]
  · exact not_standsAt_of_read?_eq_none h old hs

/-- Letters, a digit of another script, and a number that is too large. -/
theorem edits_of_read?_eq_none_mixed :
    let s := "band or\u0663 (00018446744073709551616) x_"
    (removeNode 3 s = s ∧ renameNode 3 4 s = s) ∧
    ¬ Text.StandsAt (Node.digits 18446744073709551615)
      "band or\u0663 (000".toList.getLast? "18446744073709551616) x_".toList := by
  intro s
  have hblank : ¬ Text.isBlank s.toList := by decide +kernel
  have hread : read? s = none := by decide +kernel
  obtain ⟨hremove, hrename⟩ := edits_of_read?_eq_none s hblank hread
  exact ⟨⟨hremove 3, (hrename 3 4).1⟩, (hrename 18446744073709551615 0).2.2 _ _ (by decide +kernel)⟩

end Prereq
