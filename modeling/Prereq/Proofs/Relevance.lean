import Prereq.Proofs.Answer
import Prereq.Proofs.Curriculum
import Prereq.Proofs.Requirement.Renumbering

/-!
# What an answer depends on

The table of ancestors is made for a whole context at once, circles and all, and in an order of its
own. Of all that, an answer depends on the prerequisites of few nodes only.

* `Request.Relevant` : the nodes that are read from the text of a request, and what they build on;
* `Request.concept?` : the concept that counts for a node, its last one, unless the node is edited
  (`Request.concept?_perm`, `Request.concept?_drop`);
* `Request.covers_of_agree` : contexts that agree on the relevant nodes make the nodes read from the
  text cover the same;
* `Request.answer_of_agree` : then the answers are equal, if no circle is within reach.
-/

namespace Prereq.Request

open Requirement

variable {r r' : Request} {n m k : Node}

/-- A node that is read from the text, or that such a node builds on. -/
def Relevant (r : Request) (k : Node) : Prop :=
  ∃ n ∈ leavesOf (read? r.text), n = k ∨ r.curriculum.BuildsOn n k

/-- The concept that counts for a node: the last one of the context, and none for the edited node. -/
def concept? (r : Request) (n : Node) : Option Concept :=
  if r.current = some n then none else r.context.reverse.find? (·.node = n)

/-- Nothing outside a closed set with the nodes of the text is relevant. -/
theorem Relevant.of_closed {V : Node → Prop} (hV : r.curriculum.Closed V)
    (h : ∀ n ∈ leavesOf (read? r.text), V n) (hk : r.Relevant k) : V k := by
  obtain ⟨n, hn, rfl | hk⟩ := hk
  · exact h n hn
  · exact (Curriculum.closed_links.2 hV).of_reaches (Curriculum.reaches_links.2 hk) (h n hn)

theorem prerequisites_curriculum (r : Request) (n : Node) :
    r.curriculum.prerequisites n = ((r.concept? n).map fun c => mentions c.text).getD [] := by
  unfold curriculum concept?
  rw [Curriculum.prerequisites_last]
  split <;> rfl

/-! ## The concept that counts -/

theorem concept?_eq_some_iff (distinct : (r.context.map Concept.node).Nodup) {c : Concept} :
    r.concept? n = some c ↔ r.current ≠ some n ∧ c ∈ r.context ∧ c.node = n := by
  unfold concept?
  split
  next homitted => simp [homitted]
  next hne => rw [Curriculum.find?_reverse_eq_some_iff distinct, and_iff_right hne]

/-- The order of distinct concepts plays no part. -/
theorem concept?_perm (current : r.current = r'.current)
    (distinct : (r.context.map Concept.node).Nodup) (h : r.context.Perm r'.context) :
    r.concept? n = r'.concept? n := by
  have distinct' : (r'.context.map Concept.node).Nodup := (h.map Concept.node).nodup_iff.1 distinct
  refine Option.ext fun c => ?_
  rw [concept?_eq_some_iff distinct, concept?_eq_some_iff distinct', current, h.mem_iff]

/-- A concept that is not the last one of its node plays no part, nor does one of the edited node. -/
theorem concept?_drop {before after : List Concept} {c : Concept} (current : r.current = r'.current)
    (h : r.context = before ++ c :: after) (h' : r'.context = before ++ after)
    (hc : c.node = n → r.current = some n ∨ n ∈ after.map Concept.node) :
    r.concept? n = r'.concept? n := by
  unfold concept?
  rw [← current]
  split
  next => rfl
  next hne =>
    rw [h, h', List.reverse_append, List.reverse_cons, List.reverse_append, List.find?_append,
      List.find?_append, List.find?_append]
    by_cases hnode : c.node = n
    · obtain ⟨d, hd, hdn⟩ := List.mem_map.1 ((hc hnode).resolve_left hne)
      have hlater : (after.reverse.find? (·.node = n)).isSome := by
        rw [List.find?_isSome]
        exact ⟨d, List.mem_reverse.2 hd, by simpa using hdn⟩
      rw [Option.or_of_isSome hlater, Option.or_of_isSome hlater]
    · simp [hnode]

/-! ## Answers -/

/-- The nodes read from the text cover the same nodes. -/
theorem covers_of_agree (clear : ∀ n ∈ leavesOf (read? r.text), r.curriculum.Clear n)
    (agree : ∀ k, r.Relevant k →
      ∀ m, m ∈ r.curriculum.prerequisites k ↔ m ∈ r'.curriculum.prerequisites k)
    (hn : n ∈ leavesOf (read? r.text)) (m : Node) :
    r'.curriculum.ancestors.covers n m = r.curriculum.ancestors.covers n m :=
  Curriculum.covers_congr (clear n hn) (fun k hk m => (agree k ⟨n, hn, hk⟩ m).symm) m

/-- The simplified texts are equal if the nodes read from the text cover each other in the same
way. -/
theorem text_answer_congr (text : r.text = r'.text)
    (h : ∀ n ∈ leavesOf (read? r.text), ∀ m,
      r'.curriculum.ancestors.covers n m = r.curriculum.ancestors.covers n m) :
    r.answer.text = r'.answer.text := by
  have hsame := bind_simplify?_congr (read? r.text) fun n hn m _ => h n hn m
  rw [answer_text, answer_text, ← text, hsame]

/-- What is reported as redundant is settled by the texts. -/
theorem answer_congr (text : r.text = r'.text) (simplified : r.answer.text = r'.answer.text) :
    r.answer = r'.answer := by
  have hredundant : r.answer.redundant = r'.answer.redundant := by
    rw [redundant_answer, redundant_answer, text, simplified]
  calc r.answer = ⟨r.answer.text, r.answer.redundant⟩ := rfl
    _ = r'.answer := by rw [simplified, hredundant]

/-- Contexts that agree on the relevant nodes give one answer. -/
theorem answer_of_prerequisites (text : r.text = r'.text)
    (clear : ∀ n ∈ leavesOf (read? r.text), r.curriculum.Clear n)
    (agree : ∀ k, r.Relevant k →
      ∀ m, m ∈ r.curriculum.prerequisites k ↔ m ∈ r'.curriculum.prerequisites k) :
    r.answer = r'.answer :=
  answer_congr text (text_answer_congr text fun _ hn m => covers_of_agree clear agree hn m)

theorem answer_of_concepts (text : r.text = r'.text)
    (clear : ∀ n ∈ leavesOf (read? r.text), r.curriculum.Clear n)
    (same : ∀ k, r.Relevant k → r.concept? k = r'.concept? k) : r.answer = r'.answer := by
  refine answer_of_prerequisites text clear fun k hk m => ?_
  rw [prerequisites_curriculum, prerequisites_curriculum, same k hk]

/-- **What an answer depends on.** Two requests with one text have one answer if no circle can be
reached from the nodes that are read from it, and if these nodes and all that they build on have the
same prerequisites in both contexts. In particular it is enough that the same concept counts for each
of them. So distinct concepts may stand in any order, and a concept may be left out if it is of the
edited node, if a later one of its node replaces it, or if the text does not lead to its node: not
even circles play a part there. -/
theorem answer_of_agree (r r' : Request) (text : r.text = r'.text)
    (clear : ∀ n ∈ leavesOf (read? r.text), r.curriculum.Clear n) :
    ((∀ k, r.Relevant k →
        ∀ m, m ∈ r.curriculum.prerequisites k ↔ m ∈ r'.curriculum.prerequisites k) →
      r.answer = r'.answer) ∧
    ((∀ k, r.Relevant k → r.concept? k = r'.concept? k) → r.answer = r'.answer) ∧
    (r.current = r'.current → (r.context.map Concept.node).Nodup →
      r.context.Perm r'.context → r.answer = r'.answer) ∧
    (∀ before c after, r.current = r'.current →
      r.context = before ++ c :: after → r'.context = before ++ after →
      r.current = some c.node ∨ c.node ∈ after.map Concept.node ∨ ¬ r.Relevant c.node →
      r.answer = r'.answer) := by
  refine ⟨answer_of_prerequisites text clear, answer_of_concepts text clear, ?_, ?_⟩
  · intro current distinct hperm
    exact answer_of_concepts text clear fun k _ => concept?_perm current distinct hperm
  · intro before c after current hcontext hcontext' hidle
    refine answer_of_concepts text clear fun k hk => ?_
    refine concept?_drop current hcontext hcontext' ?_
    rintro rfl
    rcases hidle with h | h | h
    · exact .inl h
    · exact .inr h
    · exact absurd hk h

/-- Node 7 is edited. Its own concept, and the circle of nodes 8 and 9, are beside the point. -/
def secluded : Request :=
  ⟨"3 AND 1 AND 7", some 7,
    [⟨7, some "1"⟩, ⟨2, some "1"⟩, ⟨3, some "2"⟩, ⟨8, some "9"⟩, ⟨9, some "8"⟩]⟩

/-- The same text in another context: its first concept of node 3 is replaced by a later one, and the
edited node builds on node 3. -/
def resettled : Request :=
  ⟨"3 AND 1 AND 7", some 7,
    [⟨3, some "8"⟩, ⟨8, some "8"⟩, ⟨7, some "3"⟩, ⟨3, some "2 OR 02"⟩, ⟨2, some "1"⟩, ⟨1, none⟩]⟩

theorem answer_of_agree_secluded : secluded.text = resettled.text ∧
    (∀ n ∈ leavesOf (read? secluded.text), secluded.curriculum.Clear n) ∧
    (∀ k, secluded.Relevant k →
      ∀ m, m ∈ secluded.curriculum.prerequisites k ↔ m ∈ resettled.curriculum.prerequisites k) ∧
    secluded.answer = resettled.answer := by
  have text : secluded.text = resettled.text := rfl
  have hread : leavesOf (read? secluded.text) = [3, 1, 7] := by decide +kernel
  have hprereq : [1, 2, 3, 7].map secluded.curriculum.prerequisites = [[], [1], [2], []] := by
    decide +kernel
  have hprereq' : [1, 2, 3, 7].map resettled.curriculum.prerequisites = [[], [1], [2, 2], []] := by
    decide +kernel
  simp only [List.map_cons, List.map_nil, List.cons.injEq, and_true] at hprereq hprereq'
  obtain ⟨h1, h2, h3, h7⟩ := hprereq
  obtain ⟨h1', h2', h3', h7'⟩ := hprereq'
  have clear1 : secluded.curriculum.Clear 1 := Curriculum.clear_iff_prerequisites.2 (by simp [h1])
  have clear2 : secluded.curriculum.Clear 2 :=
    Curriculum.clear_iff_prerequisites.2 (by simpa [h2] using clear1)
  have clear3 : secluded.curriculum.Clear 3 :=
    Curriculum.clear_iff_prerequisites.2 (by simpa [h3] using clear2)
  have clear7 : secluded.curriculum.Clear 7 := Curriculum.clear_iff_prerequisites.2 (by simp [h7])
  have clear : ∀ n ∈ leavesOf (read? secluded.text), secluded.curriculum.Clear n := by
    rw [hread]
    simpa using ⟨clear3, clear1, clear7⟩
  have hclosed : secluded.curriculum.Closed (· ∈ [1, 2, 3, 7]) := by
    unfold Curriculum.Closed
    simp [h1, h2, h3, h7]
  have agree : ∀ k, secluded.Relevant k →
      ∀ m, m ∈ secluded.curriculum.prerequisites k ↔ m ∈ resettled.curriculum.prerequisites k := by
    intro k hk m
    have hk : k ∈ [1, 2, 3, 7] := hk.of_closed hclosed (by simp [hread])
    simp only [List.mem_cons, List.not_mem_nil, or_false] at hk
    rcases hk with rfl | rfl | rfl | rfl
    · rw [h1, h1']
    · rw [h2, h2']
    · rw [h3, h3']
      simp
    · rw [h7, h7']
  exact ⟨text, clear, agree, (answer_of_agree secluded resettled text clear).1 agree⟩

end Prereq.Request
