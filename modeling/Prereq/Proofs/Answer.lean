import Prereq.Proofs.Mentions
import Prereq.Proofs.Requirement.Leaves
import Prereq.Request

/-!
# What an answer says of the nodes of its request

A node that is read from the text of a request is left in the answer, or reported as redundant, or
neither: the report leaves out the nodes that only stand in the text glued to letters.

* `Request.leavesOf_answer_sublist` : the nodes that are left were in the text, in the same order;
* `Request.mem_redundant_answer` : the nodes that are reported are those mentioned before and not
  left;
* `Request.answer_accounts` : what the report and the answer together account for, and when that is
  everything.
-/

namespace Prereq.Request

open Requirement

variable {r : Request} {n : Node}

/-- The text of an answer mentions just what is read from it. -/
theorem mentions_answer (r : Request) : mentions r.answer.text = leavesOf (read? r.answer.text) := by
  rw [answer_text, mentions_render, leavesOf_read?_render]

/-- What is left was there, in the same order. -/
theorem leavesOf_answer_sublist (r : Request) :
    (leavesOf (read? r.answer.text)).Sublist (leavesOf (read? r.text)) := by
  rw [answer_text, leavesOf_read?_render]
  exact leavesOf_bind_simplify?_sublist _ _

theorem mem_redundant_answer : n ∈ r.answer.redundant ↔
    n ∈ mentions r.text ∧ n ∉ leavesOf (read? r.answer.text) := by
  rw [redundant_answer, Node.mem_ascending, List.mem_filter, decide_eq_true_iff, mentions_answer]

/-- **An answer accounts for the nodes that are mentioned.** The nodes that it reports are ascending.
They are the nodes read from the text that the text also mentions and that are not left. Together
with the nodes left they are the nodes read from the text, except those that are neither mentioned
nor left; so they are all of them just if each node read is mentioned or left. -/
theorem answer_accounts (r : Request) :
    r.answer.redundant.Pairwise (· < ·) ∧
    (∀ n, n ∈ r.answer.redundant ↔ n ∈ leavesOf (read? r.text) ∧ n ∈ mentions r.text ∧
      n ∉ leavesOf (read? r.answer.text)) ∧
    (∀ n, n ∈ r.answer.redundant ∨ n ∈ leavesOf (read? r.answer.text) ↔
      n ∈ leavesOf (read? r.text) ∧
        (n ∈ mentions r.text ∨ n ∈ leavesOf (read? r.answer.text))) ∧
    ((∀ n, n ∈ r.answer.redundant ↔
        n ∈ leavesOf (read? r.text) ∧ n ∉ leavesOf (read? r.answer.text)) ↔
      ∀ n ∈ leavesOf (read? r.text), n ∈ mentions r.text ∨ n ∈ leavesOf (read? r.answer.text)) := by
  have hmention : ∀ n ∈ mentions r.text, n ∈ leavesOf (read? r.text) := fun n hn =>
    mem_leavesOf_of_mem_mentions hn
  have hleft : ∀ n ∈ leavesOf (read? r.answer.text), n ∈ leavesOf (read? r.text) := fun n hn =>
    (leavesOf_answer_sublist r).subset hn
  refine ⟨Node.pairwise_ascending _, fun n => ?_, fun n => ?_, ?_⟩
  · rw [mem_redundant_answer]
    exact ⟨fun h => ⟨hmention n h.1, h⟩, And.right⟩
  · rw [mem_redundant_answer]
    constructor
    · rintro (⟨h, -⟩ | h)
      · exact ⟨hmention n h, .inl h⟩
      · exact ⟨hleft n h, .inr h⟩
    · rintro ⟨-, h⟩
      by_cases hn : n ∈ leavesOf (read? r.answer.text)
      · exact .inr hn
      · exact .inl ⟨h.resolve_right hn, hn⟩
  · simp only [mem_redundant_answer]
    constructor
    · intro h n hn
      by_cases hn' : n ∈ leavesOf (read? r.answer.text)
      · exact .inr hn'
      · exact .inl ((h n).2 ⟨hn, hn'⟩).1
    · intro h n
      constructor
      · exact fun hn => ⟨hmention n hn.1, hn.2⟩
      · exact fun hn => ⟨(h n hn.1).resolve_right hn.2, hn.2⟩

/-- Two alternatives. The second one names node 2 glued to a letter, and is redundant. -/
def glued : Request := ⟨"1 OR 1 AND a2", none, []⟩

/-- Node 2 is dropped, and not reported. -/
theorem answer_glued_unaccounted : glued.answer = ⟨"1", []⟩ ∧
    ¬ ∀ n, n ∈ glued.answer.redundant ↔
      n ∈ leavesOf (read? glued.text) ∧ n ∉ leavesOf (read? glued.answer.text) := by
  have hanswer : glued.answer = ⟨"1", []⟩ := by decide +kernel
  have hread : leavesOf (read? glued.text) = [1, 1, 2] := by decide +kernel
  have hleft : leavesOf (read? "1") = [1] := by decide +kernel
  refine ⟨hanswer, fun h => ?_⟩
  have h2 := (h 2).2
  rw [hanswer, hread, hleft] at h2
  exact List.not_mem_nil (h2 (by decide))

end Prereq.Request
