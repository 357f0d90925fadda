import Prereq.Proofs.Conjunction
import Prereq.Proofs.Curriculum
import Prereq.Proofs.Links.Reduction
import Prereq.Request

/-!
# Simplifying all concepts at once

Where every text lists nodes and there is no circle, simplifying all concepts at once, each in the
context of the others, leaves out links that the others make up for.

* `Curriculum.covers_omitted` : the prerequisites of a node cover the same nodes, whether the node
  plays a part as context or not;
* `Curriculum.Listed`, `Curriculum.Listed.answer_text` : what becomes of one of the texts;
* `reduceConcepts` : the concepts with their simplified texts;
* `Curriculum.Listed.reduces`, `Curriculum.Listed.reduced` : their links make up for those left out,
  and they are such concepts again.

So the simplified concepts record the same ancestors, list no node that another one covers, and
stay as they are when they are simplified again.
-/

namespace Prereq

namespace Curriculum

variable {concepts : List Concept} {n m : Node}

/-! ## Leaving a node out of its own context -/

theorem prerequisites_omitted (concepts : List Concept) (h : n ≠ m) :
    (ofConcepts concepts (some n)).prerequisites m = (ofConcepts concepts none).prerequisites m := by
  have hne : some n ≠ some m := fun e => h (Option.some.inj e)
  rw [prerequisites_last, if_neg hne, prerequisites_last, if_neg (Option.some_ne_none m).symm]

/-- Without circles no walk from a prerequisite of `n` comes back to `n`, so that the entry of `n`
plays no part for what its prerequisites cover. -/
theorem covers_omitted (acyclic : (ofConcepts concepts none).Acyclic)
    (hm : m ∈ (ofConcepts concepts none).prerequisites n) (k : Node) :
    (ofConcepts concepts (some n)).ancestors.covers m k =
      (ofConcepts concepts none).ancestors.covers m k := by
  have hnm : (ofConcepts concepts none).BuildsOn n m := .single hm
  have hclear : (ofConcepts concepts none).Clear m := fun x _ => acyclic x
  refine covers_congr hclear (fun x hx y => ?_) k
  have hne : n ≠ x := by
    rintro rfl
    rcases hx with rfl | hx
    · exact acyclic _ hnm
    · exact acyclic _ (hnm.trans hx)
  rw [prerequisites_omitted concepts hne]

/-! ## Concepts whose texts list nodes -/

/-- Distinct concepts without circles, each of whose texts lists nodes. -/
structure Listed (concepts : List Concept) : Prop where
  distinct : (concepts.map Concept.node).Nodup
  lists : ∀ c ∈ concepts, ∃ ns, Text.Lists c.text ns
  acyclic : (ofConcepts concepts none).Acyclic

theorem Listed.lists_mentions (h : Listed concepts) {c : Concept} (hc : c ∈ concepts) :
    Text.Lists c.text (mentions c.text) := by
  obtain ⟨ns, hns⟩ := h.lists c hc
  rwa [hns.mentions_eq]

/-- The nodes that stay in the text of a concept, by the ancestors of the whole curriculum. -/
def staying (concepts : List Concept) (c : Concept) : List Node :=
  (ofConcepts concepts none).ancestors.staying (mentions c.text)

theorem Listed.answer_text (h : Listed concepts) {c : Concept} (hc : c ∈ concepts) :
    (Request.answer ⟨c.text, some c.node, concepts⟩).text =
      Requirement.render (Requirement.jointly (staying concepts c)) := by
  have hprereq : (ofConcepts concepts none).prerequisites c.node = mentions c.text :=
    prerequisites_of_mem h.distinct hc
  have hstaying : (ofConcepts concepts (some c.node)).ancestors.staying (mentions c.text) =
      staying concepts c := by
    refine Requirement.survivors_congr fun x hx y hy => ?_
    rw [List.nil_append] at hy
    exact covers_omitted h.acyclic (hprereq ▸ hy) x
  rw [← hstaying]
  exact (h.lists_mentions hc).simplifyText_eq _

end Curriculum

/-! ## The simplified concepts -/

/-- The concepts with the texts that simplification gives them, all at once. -/
def reduceConcepts (concepts : List Concept) : List Concept :=
  (simplifyConcepts concepts).map fun e => ⟨e.1, some e.2.text⟩

section

open Curriculum

variable {concepts : List Concept} {n m : Node}

theorem reduceConcepts_eq (concepts : List Concept) : reduceConcepts concepts =
    concepts.map fun c => ⟨c.node, some (Request.answer ⟨c.text, some c.node, concepts⟩).text⟩ := by
  rw [reduceConcepts, simplifyConcepts, List.map_map]
  rfl

theorem map_node_reduceConcepts (concepts : List Concept) :
    (reduceConcepts concepts).map Concept.node = concepts.map Concept.node := by
  rw [reduceConcepts_eq, List.map_map]
  rfl

theorem Curriculum.Listed.text_reduced (h : Listed concepts) {c : Concept}
    (hc : c ∈ reduceConcepts concepts) : ∃ d ∈ concepts, c.node = d.node ∧
      c.text = Requirement.render (Requirement.jointly (staying concepts d)) := by
  rw [reduceConcepts_eq] at hc
  obtain ⟨d, hd, rfl⟩ := List.mem_map.1 hc
  exact ⟨d, hd, rfl, h.answer_text hd⟩

theorem Curriculum.Listed.prerequisites_reduced (h : Listed concepts) (n : Node) :
    (ofConcepts (reduceConcepts concepts) none).prerequisites n =
      (ofConcepts concepts none).ancestors.staying ((ofConcepts concepts none).prerequisites n) := by
  have distinct : ((reduceConcepts concepts).map Concept.node).Nodup := by
    rw [map_node_reduceConcepts]
    exact h.distinct
  by_cases hn : n ∈ concepts.map Concept.node
  · have hn' := hn
    rw [← map_node_reduceConcepts] at hn'
    obtain ⟨c', hc', rfl⟩ := List.mem_map.1 hn'
    obtain ⟨c, hc, hnode, htext⟩ := h.text_reduced hc'
    rw [prerequisites_of_mem distinct hc', htext,
      (lists_render_jointly _).mentions_eq, hnode, prerequisites_of_mem h.distinct hc]
    rfl
  · rw [prerequisites_of_not_mem fun h => hn (mem_nodes_ofConcepts.1 h).2,
      prerequisites_of_not_mem fun h => hn (map_node_reduceConcepts concepts ▸
        (mem_nodes_ofConcepts.1 h).2)]
    rfl

/-- What is left out of a list is covered by something that stays, directly or not. -/
theorem exists_staying_reaches {l : Links} {ns : List Node} :
    ∀ m ∈ ns, ∃ k ∈ l.ancestors.staying ns, k = m ∨ l.Reaches k m := by
  refine Requirement.forall_of_survivors (fun x _ y _ hxy => ?_) fun x hx => ⟨x, hx, .inl rfl⟩
  rintro ⟨k, hk, hky⟩
  refine ⟨k, hk, ?_⟩
  rcases Ancestors.covers_iff.1 hxy with rfl | hyx
  · exact hky
  · have hreach := Links.reaches_of_isAncestor hyx
    rcases hky with rfl | hky
    · exact .inr hreach
    · exact .inr (hky.trans hreach)

theorem Curriculum.Listed.reduces (h : Listed concepts) :
    (ofConcepts (reduceConcepts concepts) none).links.Reduces (ofConcepts concepts none).links := by
  refine ⟨fun n m hm => ?_, fun n m hm => ?_⟩
  · rw [next_links, h.prerequisites_reduced] at hm
    rw [next_links]
    exact Requirement.mem_of_mem_survivors hm
  · rw [next_links] at hm
    rw [next_links, h.prerequisites_reduced]
    exact exists_staying_reaches m hm

theorem Curriculum.Listed.reduced (h : Listed concepts) : Listed (reduceConcepts concepts) where
  distinct := by
    rw [map_node_reduceConcepts]
    exact h.distinct
  lists c hc := by
    obtain ⟨d, -, -, htext⟩ := h.text_reduced hc
    rw [htext]
    exact ⟨_, lists_render_jointly _⟩
  acyclic := acyclic_links.1 (h.reduces.acyclic (acyclic_links.2 h.acyclic))

theorem Curriculum.Listed.isAncestor_reduced (h : Listed concepts) (n m : Node) :
    (ofConcepts (reduceConcepts concepts) none).ancestors.isAncestor m n =
      (ofConcepts concepts none).ancestors.isAncestor m n :=
  Bool.eq_iff_iff.2 (h.reduces.isAncestor_iff (acyclic_links.2 h.acyclic))

theorem Curriculum.Listed.covers_reduced (h : Listed concepts) (n m : Node) :
    (ofConcepts (reduceConcepts concepts) none).ancestors.covers n m =
      (ofConcepts concepts none).ancestors.covers n m := by
  rw [Ancestors.covers, Ancestors.covers, h.isAncestor_reduced]

theorem Curriculum.Listed.knows_reduced (h : Listed concepts) (n : Node) :
    (ofConcepts (reduceConcepts concepts) none).ancestors.knows n =
      (ofConcepts concepts none).ancestors.knows n := by
  refine Bool.eq_iff_iff.2 (h.reduces.knows_iff (acyclic_links.2 h.acyclic) fun k => ?_)
  show k ∈ (ofConcepts (reduceConcepts concepts) none).nodes ↔ k ∈ (ofConcepts concepts none).nodes
  rw [mem_nodes_ofConcepts, mem_nodes_ofConcepts, map_node_reduceConcepts]

/-- A request whose text stays as it is finds nothing redundant. -/
theorem Request.answer_of_text_eq {r : Request} (h : r.answer.text = r.text) :
    r.answer = ⟨r.text, []⟩ := by
  have hnone : (mentions r.text).filter (· ∉ mentions r.answer.text) = [] := by
    rw [h, List.filter_eq_nil_iff]
    simp
  have hredundant : r.answer.redundant = Node.ascending [] := congrArg Node.ascending hnone
  rw [← h]
  exact congrArg (Response.mk r.answer.text) hredundant

theorem staying_staying (a : Ancestors) (ns : List Node) :
    a.staying (a.staying ns) = a.staying ns :=
  Requirement.survivors_eq_self (fun _ _ _ hk => absurd hk List.not_mem_nil)
    (Requirement.survivors_pairwise _ [] ns)

/-- A simplified concept stays as it is. -/
theorem Curriculum.Listed.answer_reduced (h : Listed concepts) {c : Concept}
    (hc : c ∈ reduceConcepts concepts) :
    Request.answer ⟨c.text, some c.node, reduceConcepts concepts⟩ = ⟨c.text, []⟩ := by
  obtain ⟨d, hd, -, htext⟩ := h.text_reduced hc
  have hmentions : mentions c.text = staying concepts d := by
    rw [htext]
    exact (lists_render_jointly _).mentions_eq
  have hstaying : staying (reduceConcepts concepts) c = staying concepts d := by
    rw [staying, hmentions]
    have hcovers : (ofConcepts (reduceConcepts concepts) none).ancestors.covers =
        (ofConcepts concepts none).ancestors.covers := by
      funext x y
      exact h.covers_reduced x y
    unfold Ancestors.staying
    rw [hcovers]
    exact staying_staying _ _
  refine Request.answer_of_text_eq ?_
  rw [h.reduced.answer_text hc, hstaying, ← htext]

/-- **Simplifying all concepts is a reduction.** Let every text of an acyclic curriculum list nodes
and give all concepts their simplified texts at once. Then every node is recorded with the
ancestors it had, no prerequisite of a node is or covers another one, and simplifying all concepts
again changes nothing and finds nothing redundant. -/
theorem reduceConcepts_reduction (concepts : List Concept)
    (distinct : (concepts.map Concept.node).Nodup)
    (lists : ∀ c ∈ concepts, ∃ ns, Text.Lists c.text ns)
    (acyclic : (ofConcepts concepts none).Acyclic) :
    (∀ n, (ofConcepts (reduceConcepts concepts) none).ancestors.knows n =
        (ofConcepts concepts none).ancestors.knows n ∧
      ∀ m, (ofConcepts (reduceConcepts concepts) none).ancestors.isAncestor m n =
        (ofConcepts concepts none).ancestors.isAncestor m n) ∧
    (∀ n, ((ofConcepts (reduceConcepts concepts) none).prerequisites n).Pairwise fun x y =>
      ¬ (ofConcepts (reduceConcepts concepts) none).ancestors.covers x y ∧
        ¬ (ofConcepts (reduceConcepts concepts) none).ancestors.covers y x) ∧
    simplifyConcepts (reduceConcepts concepts) =
      (simplifyConcepts concepts).map fun e => (e.1, ⟨e.2.text, []⟩) := by
  have h : Listed concepts := ⟨distinct, lists, acyclic⟩
  refine ⟨fun n => ⟨h.knows_reduced n, fun m => h.isAncestor_reduced n m⟩, fun n => ?_, ?_⟩
  · rw [h.prerequisites_reduced]
    refine (Requirement.survivors_pairwise _ _ _).imp fun {x y} hxy => ?_
    rw [h.covers_reduced, h.covers_reduced]
    exact hxy.symm
  · have hanswers : simplifyConcepts (reduceConcepts concepts) =
        (reduceConcepts concepts).map fun c => (c.node, ⟨c.text, []⟩) :=
      List.map_congr_left fun c hc => by rw [h.answer_reduced hc]
    rw [hanswers, reduceConcepts, List.map_map]
    rfl

end

/-- Node 3 lists node 1 although it gets there by node 2. -/
def shortcut : List Concept := [⟨1, none⟩, ⟨2, some "1"⟩, ⟨3, some "1 AND 2"⟩]

theorem reduceConcepts_reduction_shortcut :
    (shortcut.map Concept.node).Nodup ∧ (∀ c ∈ shortcut, ∃ ns, Text.Lists c.text ns) ∧
    (Curriculum.ofConcepts shortcut none).Acyclic ∧
    simplifyConcepts (reduceConcepts shortcut) =
      (simplifyConcepts shortcut).map fun e => (e.1, ⟨e.2.text, []⟩) := by
  have distinct : (shortcut.map Concept.node).Nodup := by decide
  have texts : ∀ c ∈ shortcut, ∃ ns, Text.Lists c.text ns ∧ ∀ m ∈ ns, m < c.node := by
    have h1 : Requirement.render (Requirement.jointly [1]) = "1" := by decide
    have h2 : Requirement.render (Requirement.jointly [1, 2]) = "1 AND 2" := by decide
    simp only [shortcut, List.forall_mem_cons]
    refine ⟨⟨[], lists_render_jointly [], nofun⟩, ⟨[1], ?_, by simp⟩, ⟨[1, 2], ?_, by simp⟩, nofun⟩
    · exact h1 ▸ lists_render_jointly [1]
    · exact h2 ▸ lists_render_jointly [1, 2]
  have lists : ∀ c ∈ shortcut, ∃ ns, Text.Lists c.text ns := fun c hc =>
    (texts c hc).imp fun _ h => h.1
  have acyclic : (Curriculum.ofConcepts shortcut none).Acyclic := by
    refine Curriculum.acyclic_ofConcepts UInt64.toNat fun c hc m hm => ?_
    obtain ⟨ns, hlists, hlt⟩ := texts c hc
    exact hlt m (hlists.mentions_eq ▸ hm)
  exact ⟨distinct, lists, acyclic, (reduceConcepts_reduction shortcut distinct lists acyclic).2.2⟩

end Prereq
