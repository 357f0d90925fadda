import Prereq.Proofs.Requirement.Mixed
import Prereq.Proofs.Requirement.Pathways
import Prereq.Proofs.Requirement.RoundTrip
import Prereq.Request

/-!
# When an answer is faithful

* `Request.Faithful` : the text of a request and the text that answers it ask for the same of every
  closed set of nodes;
* `Request.faithful_iff_entails` : without circles, that is so just if the pathways of the one text
  cover pathways of the other and back;
* `Request.faithful_of_alternatives` : it is so if no alternative lies below an AND;
* `Request.exists_not_faithful` : in every other shape some nodes make an answer that is not.

The main result puts these together, and the smallest answer that is not faithful comes last.
-/

namespace Prereq

open Requirement

variable {r : Request}

/-- A closed set of nodes meets what is asked for just if it meets the answer. -/
def Request.Faithful (r : Request) : Prop :=
  ∀ V, r.curriculum.Closed V → (HoldsIfAny V (read? r.text) ↔ HoldsIfAny V (read? r.answer.text))

theorem filled_of_mem_read? {s : String} : ∀ x ∈ read? s, x.Filled :=
  fun _ h => (gathered_of_read? h).filled

/-! ## Pathways -/

/-- The pathways of the two texts say whether an answer is faithful. -/
theorem Request.faithful_iff_entails (acyclic : r.curriculum.Acyclic) :
    r.Faithful ↔
      r.curriculum.ancestors.Entails (waysOf (read? r.text)) (waysOf (read? r.answer.text)) ∧
      r.curriculum.ancestors.Entails (waysOf (read? r.answer.text)) (waysOf (read? r.text)) := by
  rw [Curriculum.entails_iff acyclic, Curriculum.entails_iff acyclic]
  simp only [Faithful, holdsIfAny_iff_waysOf filled_of_mem_read?]
  exact ⟨fun h => ⟨fun V hV => (h V hV).1, fun V hV => (h V hV).2⟩,
    fun h V hV => ⟨h.1 V hV, h.2 V hV⟩⟩

/-! ## Shapes -/

theorem Request.faithful_of_alternatives (h : ∀ x ∈ read? r.text, x.Alternatives) :
    r.Faithful := by
  intro V hV
  rw [r.answer_text]
  cases hx : read? r.text with
  | none => exact Iff.rfl
  | some x =>
    have hfilled := filled_of_mem_read? x hx
    obtain ⟨t, ht⟩ := exists_simplify? (a := r.curriculum.ancestors) hfilled
    have halt := alternatives_of_simplify? (h x hx) ht
    rw [Option.bind_some, ht, (canonical_of_simplify? ht).read?_render_alternatives halt]
    simp only [HoldsIfAny, Option.mem_def, Option.some.injEq, forall_eq']
    exact (simplify?_sound hV.respected hfilled (h x hx) ht).symm

/-- A request without context. -/
def Request.alone (s : String) : Request := ⟨s, none, []⟩

theorem prerequisites_alone (s : String) (n : Node) :
    (Request.alone s).curriculum.prerequisites n = [] := by
  refine Curriculum.prerequisites_of_not_mem fun h => ?_
  have hmem := (Curriculum.mem_nodes_ofConcepts.1 h).2
  cases hmem

theorem closed_alone (s : String) (V : Node → Prop) : (Request.alone s).curriculum.Closed V := by
  intro n _ m hm
  rw [prerequisites_alone] at hm
  cases hm

theorem Request.acyclic_alone (s : String) : (Request.alone s).curriculum.Acyclic :=
  Curriculum.acyclic_ofConcepts (fun _ => 0) nofun

theorem covers_alone {s : String} {m n : Node} :
    (Request.alone s).curriculum.ancestors.covers m n ↔ m = n := by
  rw [Ancestors.covers_iff, or_iff_left_iff_imp]
  intro h
  obtain ⟨k, hk, -⟩ := Links.reaches_iff_next.1 (Links.reaches_of_isAncestor h)
  rw [Curriculum.next_links, prerequisites_alone] at hk
  cases hk

/-- Where an alternative lies below an AND, other nodes can be put into the text so that without
any context the answer is not faithful. -/
theorem Request.exists_not_faithful {s : String} {x : Requirement} (hx : read? s = some x)
    (hmixed : ¬ x.Alternatives) :
    ∃ s', (read? s').map outline = (read? s).map outline ∧ ¬ (Request.alone s').Faithful := by
  have hmn : ¬ (Request.alone s).curriculum.ancestors.covers 1 2 := fun h =>
    absurd (covers_alone.1 h) (by decide)
  have hnm : ¬ (Request.alone s).curriculum.ancestors.covers 2 1 := fun h =>
    absurd (covers_alone.1 h) (by decide)
  obtain ⟨y, hout, ⟨t, ht, hfork⟩, hfails⟩ := exists_fork hmn hnm (gathered_of_read? hx) hmixed
  have houtline : (read? s).map outline = some y.outline := by
    rw [hx, hout]
    rfl
  obtain ⟨s', hs'⟩ := exists_read? houtline
  refine ⟨s', by rw [hs', houtline]; rfl, fun hfaithful => hfails ?_⟩
  have hcurriculum : (Request.alone s').curriculum = (Request.alone s).curriculum := rfl
  have htext : (Request.alone s').text = s' := rfl
  have hiff := hfaithful _ (closed_alone s' (· = 2))
  rw [Request.answer_text, htext, hs', Option.bind_some, hcurriculum, ht,
    (canonical_of_simplify? ht).read?_render_alternatives hfork.alternatives] at hiff
  simp only [HoldsIfAny, Option.mem_def, Option.some.injEq, forall_eq'] at hiff
  exact hiff.2 hfork.holds

/-- **When an answer is faithful.** Without circles the pathways of the two texts decide it. It
holds of all requests of a shape, whatever their nodes and their context, just if no alternative
lies below an AND in that shape. -/
theorem Request.faithful_exactly (r : Request) (acyclic : r.curriculum.Acyclic) :
    (r.Faithful ↔
      r.curriculum.ancestors.Entails (waysOf (read? r.text)) (waysOf (read? r.answer.text)) ∧
      r.curriculum.ancestors.Entails (waysOf (read? r.answer.text)) (waysOf (read? r.text))) ∧
    ((∀ x ∈ read? r.text, x.Alternatives) ↔
      ∀ r' : Request, r'.curriculum.Acyclic →
        (read? r'.text).map outline = (read? r.text).map outline → r'.Faithful) := by
  refine ⟨faithful_iff_entails acyclic, ?_, ?_⟩
  · intro h r' _ hout
    refine faithful_of_alternatives fun x hx => ?_
    rw [hx] at hout
    obtain ⟨y, hy, hyx⟩ := Option.map_eq_some_iff.1 hout.symm
    rw [← alternatives_outline, ← hyx, alternatives_outline]
    exact h y hy
  · intro h x hx
    by_contra hmixed
    obtain ⟨s', hout, hfails⟩ := exists_not_faithful hx hmixed
    exact hfails (h _ (acyclic_alone s') hout)

/-- A request whose context makes node 1 an ancestor of node 2. -/
def sample : Request := ⟨"1 AND 2 OR 3", none, [⟨2, some "1"⟩]⟩

theorem Request.faithful_exactly_sample : sample.curriculum.Acyclic ∧
    (∀ x ∈ read? sample.text, x.Alternatives) ∧ sample.Faithful ∧
    sample.curriculum.ancestors.Entails (waysOf (read? sample.text))
      (waysOf (read? sample.answer.text)) ∧
    sample.curriculum.ancestors.Entails (waysOf (read? sample.answer.text))
      (waysOf (read? sample.text)) := by
  have acyclic : sample.curriculum.Acyclic := by
    refine Curriculum.acyclic_ofConcepts UInt64.toNat fun c hc m hm => ?_
    obtain rfl := List.mem_singleton.1 hc
    have hmentions : mentions "1" = [1] := by decide
    have hm' : m ∈ mentions "1" := hm
    rw [hmentions, List.mem_singleton] at hm'
    rw [hm']
    decide
  have hread : read? sample.text =
      some (.group .any [.group .all [.node 1, .node 2], .node 3]) := by
    decide +kernel
  have hshape : ∀ x ∈ read? sample.text, x.Alternatives := by
    rw [hread]
    simp [alternatives_any, alternatives_all, alternatives_node, joint_node]
  obtain ⟨hways, hshapes⟩ := Request.faithful_exactly sample acyclic
  have hfaithful : sample.Faithful := hshapes.1 hshape sample acyclic rfl
  exact ⟨acyclic, hshape, hfaithful, hways.1 hfaithful⟩

/-! ## An answer that is not faithful -/

/-- Node 2, and besides node 2 or 3. -/
def absorbing : Requirement := .group .all [.node 2, .group .any [.node 2, .node 3]]

/-- The alternatives of `absorbing` by themselves. -/
def alternative : Requirement := .group .any [.node 2, .node 3]

theorem read?_absorbing :
    read? "2 AND (2 OR 3)" = some absorbing ∧ read? "2 OR 3" = some alternative := by
  have htext : render (some absorbing) = "2 AND (2 OR 3)" := by decide
  have htext' : render (some alternative) = "2 OR 3" := by decide
  have hcanonical : absorbing.Canonical := by
    simp [absorbing, canonical_group, canonical_node, connective?]
  have hcanonical' : alternative.Canonical := by
    simp [alternative, canonical_group, canonical_node, connective?]
  rw [← htext, ← htext']
  exact ⟨read?_render_of_tokens hcanonical (by decide),
    read?_render_of_tokens hcanonical' (by decide)⟩

/-- Node 3 by itself meets the answer and not the request. -/
theorem Request.not_faithful_absorbing :
    (Request.alone "2 AND (2 OR 3)").curriculum.Acyclic ∧
    (Request.alone "2 AND (2 OR 3)").answer.text = "2 OR 3" ∧
    ¬ (Request.alone "2 AND (2 OR 3)").Faithful := by
  have hcovers : ∀ m n : Node,
      (Request.alone "2 AND (2 OR 3)").curriculum.ancestors.covers m n = decide (m = n) :=
    fun m n => Bool.eq_iff_iff.2 (covers_alone.trans decide_eq_true_iff.symm)
  have hsimp : simplify? (Request.alone "2 AND (2 OR 3)").curriculum.ancestors absorbing =
      some alternative := by
    simp [absorbing, alternative, simplify?_group, splice, survivors, Connective.redundant, hcovers,
      ofParts?]
  have htext : (Request.alone "2 AND (2 OR 3)").text = "2 AND (2 OR 3)" := rfl
  have hanswer : (Request.alone "2 AND (2 OR 3)").answer.text = "2 OR 3" := by
    rw [Request.answer_text, htext, read?_absorbing.1, Option.bind_some, hsimp]
    decide
  refine ⟨Request.acyclic_alone _, hanswer, fun hfaithful => ?_⟩
  have hiff := hfaithful _ (closed_alone _ (· = 3))
  rw [hanswer, htext, read?_absorbing.1, read?_absorbing.2] at hiff
  simp [HoldsIfAny, absorbing, alternative] at hiff

end Prereq
