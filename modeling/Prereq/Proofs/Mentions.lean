import Mathlib.Data.List.TakeWhile
import Prereq.Proofs.Requirement.Numbers
import Prereq.Proofs.Requirement.RoundTrip
import Prereq.Proofs.Text.Boundaries
import Prereq.Proofs.Token.Spellings
import Prereq.Requirement.Edit

/-!
# Nodes that are mentioned and nodes that are read

A text mentions a node by a whole word, and a node is read from digits that may be glued to letters.
So whatever is mentioned is read, and in the text of a requirement the two are the same.

* `Text.filter_runsFrom_sublist` : the runs of a class that fit into a smaller class are runs of
  that one;
* `mentions_sublist_leavesOf` : what a text mentions is read from it, in the same order;
* `mentions_consistent` : the two as searches of a text, and how what they find compares;
* `Requirement.mentions_render`, `Requirement.leavesOf_read?_render` : the text of a requirement
  mentions its leaves, and they are read from it, however deep its parentheses nest;
* `replaceMentions_eq_self` : replacing a node changes no text that does not mention it;
* `removeNode_of_read?`, `renameNode_of_read?`, `removeNode_of_read?_eq_none`,
  `renameNode_of_read?_eq_none` : the edits of a text, by the requirement that it holds.
-/

namespace Prereq

/-! ## Runs -/

namespace Text

variable {p q : Char → Bool} {s : List Char}

theorem takeWhile_eq_of_all (hpq : ∀ c, p c → q c) (h : (s.takeWhile q).all p) :
    s.takeWhile p = s.takeWhile q := by
  have hboth : p = fun c => decide (p c ∧ q c) := by
    funext c
    rw [Bool.eq_iff_iff, decide_eq_true_iff]
    exact ⟨fun hp => ⟨hp, hpq c hp⟩, And.left⟩
  calc s.takeWhile p
      = s.takeWhile fun c => decide (p c ∧ q c) := congrArg (List.takeWhile · s) hboth
    _ = (s.takeWhile q).takeWhile p := (List.takeWhile_takeWhile p q s).symm
    _ = s.takeWhile q := List.takeWhile_eq_self_iff.2 (List.all_eq_true.1 h)

/-- The runs of a class that fit into a smaller class are runs of that one. A run of the smaller
class may lie inside one of the greater, but not the other way round. -/
theorem filter_runsFrom_sublist (hpq : ∀ c, p c → q c) {inside inside' : Bool}
    (hinside : inside' → inside) (s : List Char) :
    ((runsFrom q inside s).filter (·.all p)).Sublist (runsFrom p inside' s) := by
  induction s generalizing inside inside' with
  | nil => exact List.Sublist.slnil
  | cons c s ih =>
    by_cases hq : q c
    · by_cases hp : p c
      · have hrest : ((runsFrom q true s).filter (·.all p)).Sublist (runsFrom p true s) :=
          ih fun _ => rfl
        rw [runsFrom, runsFrom, if_pos hq, if_pos hp]
        cases inside with
        | true =>
          cases inside' with
          | true => exact hrest
          | false => exact hrest.cons _
        | false =>
          obtain rfl : inside' = false := by simpa using hinside
          rw [if_neg Bool.false_ne_true, if_neg Bool.false_ne_true, List.filter_cons]
          split
          next hall =>
            rw [List.all_cons, Bool.and_eq_true] at hall
            rw [takeWhile_eq_of_all hpq hall.2]
            exact hrest.cons_cons _
          next => exact hrest.cons _
      · -- The run of the greater class that holds `c` does not fit.
        have hrest : ((runsFrom q true s).filter (·.all p)).Sublist (runsFrom p false s) :=
          ih fun h => absurd h Bool.false_ne_true
        rw [runsFrom, runsFrom, if_pos hq, if_neg hp]
        cases inside with
        | true => exact hrest
        | false =>
          rw [if_neg Bool.false_ne_true, List.filter_cons_of_neg]
          · exact hrest
          · simp [hp]
    · rw [runsFrom, runsFrom, if_neg hq, if_neg fun hp => hq (hpq c hp)]
      exact ih fun h => absurd h Bool.false_ne_true

/-- Replacing runs by themselves changes nothing: what is left of a run from before the text was
replaced with that run. -/
theorem mapRunsFrom_eq_self {f : List Char → List Char} {inside : Bool}
    (h : ∀ w ∈ runsFrom p inside s, f w = w) :
    mapRunsFrom p f inside s = if inside then s.dropWhile p else s := by
  induction s generalizing inside with
  | nil => cases inside <;> rfl
  | cons c s ih =>
    rw [runsFrom] at h
    by_cases hp : p c
    · rw [mapRunsFrom, if_pos hp]
      rw [if_pos hp] at h
      cases inside with
      | true =>
        rw [if_pos rfl, if_pos rfl, ih h, if_pos rfl, List.dropWhile_cons_of_pos hp]
      | false =>
        obtain ⟨hrun, hrest⟩ := List.forall_mem_cons.1 h
        rw [if_neg Bool.false_ne_true, if_neg Bool.false_ne_true, hrun, ih hrest, if_pos rfl,
          List.cons_append, List.takeWhile_append_dropWhile]
    · rw [mapRunsFrom, if_neg hp, ih (by rwa [if_neg hp] at h), if_neg Bool.false_ne_true]
      cases inside with
      | true => rw [if_pos rfl, List.dropWhile_cons_of_neg hp]
      | false => rw [if_neg Bool.false_ne_true]

end Text

/-! ## What is mentioned is read -/

/-- Of the words that mention a node, all characters are digits. -/
theorem mentionsIn_eq_filter {p : Char → Bool} (hdigit : ∀ c, c.isDigit → p c) (s : List Char) :
    mentionsIn s = ((Text.words s).filter (·.all p)).filterMap Node.read? := by
  rw [List.filterMap_filter, mentionsIn]
  apply List.filterMap_congr
  intro w _
  split
  next => rfl
  next hw =>
    apply Node.read?_eq_none
    intro hall
    exact hw (List.all_eq_true.2 fun c hc => hdigit c (List.all_eq_true.1 hall c hc))

/-- A text mentions what a search for digits between word boundaries finds, whatever other digits
are taken for such. -/
theorem mentions_eq_delimited {p : Char → Bool} (hdigit : ∀ c, c.isDigit → p c)
    (hword : ∀ c, p c → Text.isWordChar c) (s : String) :
    mentions s = (Text.delimited p s.toList).filterMap Node.read? := by
  rw [Text.delimited_eq hword]
  exact mentionsIn_eq_filter hdigit s.toList

/-- Words that are numerals are runs of digits. -/
theorem mentionsIn_sublist (s : List Char) :
    (mentionsIn s).Sublist (Token.nodes (Token.scan s)) := by
  have hruns : ((Text.words s).filter (·.all Char.isDigit)).Sublist
      (Text.runsFrom Char.isDigit false s) :=
    Text.filter_runsFrom_sublist (fun _ => Text.isWordChar_of_isDigit) id s
  rw [mentionsIn_eq_filter fun _ => id, Token.scan, Token.nodes_scanFrom]
  exact hruns.filterMap Node.read?

theorem mentions_sublist_leavesOf (s : String) :
    (mentions s).Sublist (Requirement.leavesOf (Requirement.read? s)) := by
  rw [Requirement.leavesOf_read?]
  exact mentionsIn_sublist s.toList

theorem mem_leavesOf_of_mem_mentions {s : String} {n : Node} (h : n ∈ mentions s) :
    n ∈ Requirement.leavesOf (Requirement.read? s) :=
  (mentions_sublist_leavesOf s).subset h

/-! ## The text of a requirement -/

namespace Requirement

/-- Whatever is read from the text of a requirement has its leaves, also where parentheses nest too
deep to count. -/
theorem leavesOf_read?_render (r : Option Requirement) :
    leavesOf (read? (render r)) = leavesOf r := by
  cases r with
  | none => rfl
  | some r =>
    rw [leavesOf_read?, scan_render]
    exact nodes_tokensIn r none

theorem mentionsIn_joinParts (c : Connective) (texts : List (List Char)) :
    mentionsIn (joinParts c texts) = texts.flatMap mentionsIn := by
  have hblank : Text.isWordChar ' ' = false := rfl
  have hkeyword : mentionsIn c.letters = [] := by cases c <;> rfl
  induction texts with
  | nil => rfl
  | cons x texts ih =>
    cases texts with
    | nil => simp [joinParts, List.intercalate]
    | cons y texts =>
      rw [joinParts_cons_cons, mentionsIn_append_break hblank, mentionsIn_append_break hblank,
        hkeyword, ih, List.nil_append]
      rfl

theorem mentionsIn_charsIn (r : Requirement) (context : Option Connective) :
    mentionsIn (r.charsIn context) = r.leaves := by
  induction r generalizing context with
  | node n => exact mentionsIn_numeral (Node.read?_digits n)
  | group c parts ih =>
    have hparts : mentionsIn (joinParts c (parts.map (charsIn · (some c)))) =
        (group c parts).leaves := by
      rw [mentionsIn_joinParts, List.flatMap_map, leaves_group]
      exact List.flatMap_congr fun p hp => ih p hp (some c)
    rw [charsIn_group]
    split
    · exact hparts
    · have hopening : Text.isWordChar '(' = false := rfl
      have hclosing : Text.isWordChar ')' = false := rfl
      rw [List.cons_append, mentionsIn_cons_break hopening, mentionsIn_append_break hclosing,
        hparts]
      exact List.append_nil _

/-- The text of a requirement mentions its leaves: no numeral in it is glued to a letter. -/
theorem mentions_render (r : Option Requirement) : mentions (render r) = leavesOf r := by
  cases r with
  | none => rfl
  | some r =>
    show mentionsIn (render (some r)).toList = r.leaves
    rw [toList_render]
    exact mentionsIn_charsIn r none

end Requirement

/-- Two searches read the nodes of a text, one for digits between word boundaries and one for
tokens. The first finds a part of what the second finds, in the same order; in the text of a
requirement both find its leaves. -/
theorem mentions_consistent {p : Char → Bool} (hdigit : ∀ c, c.isDigit → p c)
    (hword : ∀ c, p c → Text.isWordChar c) :
    (∀ s : String,
      mentions s = (Text.delimited p s.toList).filterMap Node.read? ∧
      Requirement.leavesOf (Requirement.read? s) =
        (Token.spellings s.toList).filterMap Node.read? ∧
      (mentions s).Sublist (Requirement.leavesOf (Requirement.read? s))) ∧
    ∀ r : Requirement,
      mentions (Requirement.render (some r)) = r.leaves ∧
      Requirement.leavesOf (Requirement.read? (Requirement.render (some r))) = r.leaves := by
  refine ⟨fun s => ⟨mentions_eq_delimited hdigit hword s, ?_, mentions_sublist_leavesOf s⟩,
    fun r => ⟨Requirement.mentions_render (some r), Requirement.leavesOf_read?_render (some r)⟩⟩
  rw [Requirement.leavesOf_read?, Token.filterMap_read?_spellings]

/-- Glued letters, digits of another script, leading zeros and a number that is too large. -/
theorem mentions_consistent_arabic :
    let s := "12 and\u0663, a3or 007 18446744073709551616 \u06634 12"
    mentions s = [12, 7, 12] ∧
    Requirement.leavesOf (Requirement.read? s) = [12, 3, 7, 4, 12] ∧
    (mentions s).Sublist (Requirement.leavesOf (Requirement.read? s)) := by
  have hword : ∀ c, (c.isDigit || c == '\u0663') = true → Text.isWordChar c := by
    intro c hc
    rcases Bool.or_eq_true_iff.1 hc with hc | hc
    · exact Text.isWordChar_of_isDigit hc
    · rw [beq_iff_eq] at hc
      subst hc
      decide +kernel
  refine ⟨by decide +kernel, by decide +kernel, ?_⟩
  exact ((mentions_consistent (fun c hc => by rw [hc]; rfl) hword).1 _).2.2

/-! ## Replacing mentions -/

theorem replaceMentions_eq_self {old : Node} {s : String} (h : old ∉ mentions s) (new : Node) :
    replaceMentions old new s = s := by
  have hwords : ∀ w ∈ Text.words s.toList,
      (if w = old.digits then new.digits else w) = w := by
    intro w hw
    apply if_neg
    rintro rfl
    exact h (List.mem_filterMap.2 ⟨_, hw, Node.read?_digits old⟩)
  rw [replaceMentions, Text.mapWords, Text.mapRuns, Text.mapRunsFrom_eq_self hwords,
    if_neg Bool.false_ne_true, String.ofList_toList]

/-- A text that holds no requirement mentions nothing. -/
theorem mentions_eq_nil_of_read? {s : String} (h : Requirement.read? s = none) :
    mentions s = [] := by
  have hsub := mentions_sublist_leavesOf s
  rw [h] at hsub
  exact List.sublist_nil.1 hsub

/-! ## Edited texts -/

section Edits

open Requirement (read? render prune? simplify?)

variable {s : String} {r : Requirement}

theorem read?_of_isBlank (h : Text.isBlank s.toList) : read? s = none := by
  have hscan := Token.scan_blanks (s := []) h
  rw [List.append_nil] at hscan
  rw [read?, Token.ofText, hscan]
  rfl

theorem not_isBlank_of_read? (h : read? s = some r) : ¬ Text.isBlank s.toList := fun hblank => by
  rw [read?_of_isBlank hblank] at h
  cases h

theorem removeNode_of_read? (h : read? s = some r) (n : Node) :
    removeNode n s = render ((prune? n r).bind (simplify? ∅)) := by
  rw [removeNode, if_neg (not_isBlank_of_read? h), h]

theorem renameNode_of_read? (h : read? s = some r) (old new : Node) :
    renameNode old new s = render (some (r.mapNodes fun n => if n = old then new else n)) := by
  rw [renameNode, if_neg (not_isBlank_of_read? h), h]

/-- What holds no requirement becomes empty if it is blank, and stays if not. -/
theorem removeNode_of_read?_eq_none (h : read? s = none) (n : Node) :
    removeNode n s = if Text.isBlank s.toList then "" else s := by
  rw [removeNode, h]

theorem renameNode_of_read?_eq_none (h : read? s = none) (old new : Node) :
    renameNode old new s = if Text.isBlank s.toList then "" else s := by
  have hold : old ∉ mentions s := by
    rw [mentions_eq_nil_of_read? h]
    exact List.not_mem_nil
  rw [renameNode, h, replaceMentions_eq_self hold]

/-- In either case no requirement is read afterwards. -/
theorem read?_ite_isBlank (h : read? s = none) :
    read? (if Text.isBlank s.toList then "" else s) = none := by
  split
  · rfl
  · exact h

end Edits

end Prereq
