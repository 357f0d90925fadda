import Prereq.Proofs.Curriculum
import Prereq.Proofs.Requirement.Gaps
import Prereq.Requirement.Pathway

/-!
# What pathways say

* `Pathway.Met` : some nodes complete one of the pathways; where there is none, nothing is asked
  for (`Pathway.met_product`, `Pathway.met_foldl_product`);
* `Requirement.met_pathways` : nodes that complete a pathway are the nodes that meet the
  requirement, parts that name no node being passed over;
* `Ancestors.Entails` : every pathway of one list covers some pathway of another;
* `Curriculum.entails_iff` : without circles that is what closed sets can tell.
-/

namespace Prereq

variable {V : Node → Prop}

/-! ## Lists of pathways -/

namespace Pathway

/-- The nodes of `V` complete one of the pathways, if there are any. -/
def Met (V : Node → Prop) (ps : List Pathway) : Prop := ps = [] ∨ ∃ p ∈ ps, ∀ n ∈ p, V n

theorem product_cons_cons (p q : Pathway) (ps qs : List Pathway) :
    product (p :: ps) (q :: qs) = (p :: ps).flatMap fun a => (q :: qs).map (a ++ ·) := rfl

theorem met_of_ne_nil {ps : List Pathway} (h : ps ≠ []) :
    Met V ps ↔ ∃ p ∈ ps, ∀ n ∈ p, V n := or_iff_right h

theorem product_eq_nil_iff {ps qs : List Pathway} : product ps qs = [] ↔ ps = [] ∧ qs = [] := by
  cases ps with
  | nil => simp [product]
  | cons p ps => cases qs <;> simp [product]

theorem met_product {ps qs : List Pathway} : Met V (product ps qs) ↔ Met V ps ∧ Met V qs := by
  have hnil : Met V [] := .inl rfl
  cases ps with
  | nil => exact ⟨fun h => ⟨hnil, h⟩, fun h => h.2⟩
  | cons p ps =>
    cases qs with
    | nil => exact ⟨fun h => ⟨h, hnil⟩, fun h => h.1⟩
    | cons q qs =>
      have hne : product (p :: ps) (q :: qs) ≠ [] := fun h =>
        List.cons_ne_nil p ps (product_eq_nil_iff.1 h).1
      rw [met_of_ne_nil hne, met_of_ne_nil (List.cons_ne_nil p ps),
        met_of_ne_nil (List.cons_ne_nil q qs), product_cons_cons]
      refine ⟨fun h => ?_, fun h => ?_⟩
      · obtain ⟨ab, hab, hV⟩ := h
        obtain ⟨a, ha, hab⟩ := List.mem_flatMap.1 hab
        obtain ⟨b, hb, rfl⟩ := List.mem_map.1 hab
        obtain ⟨hVa, hVb⟩ := List.forall_mem_append.1 hV
        exact ⟨⟨a, ha, hVa⟩, b, hb, hVb⟩
      · obtain ⟨⟨a, ha, hVa⟩, b, hb, hVb⟩ := h
        refine ⟨a ++ b, ?_, List.forall_mem_append.2 ⟨hVa, hVb⟩⟩
        exact List.mem_flatMap.2 ⟨a, ha, List.mem_map_of_mem hb⟩

theorem met_foldl_product {pss : List (List Pathway)} {ps : List Pathway} :
    Met V (pss.foldl product ps) ↔ Met V ps ∧ ∀ qs ∈ pss, Met V qs := by
  induction pss generalizing ps with
  | nil => simp
  | cons qs pss ih => rw [List.foldl_cons, ih, met_product, List.forall_mem_cons, and_assoc]

theorem foldl_product_eq_nil_iff {pss : List (List Pathway)} {ps : List Pathway} :
    pss.foldl product ps = [] ↔ ps = [] ∧ ∀ qs ∈ pss, qs = [] := by
  induction pss generalizing ps with
  | nil => simp
  | cons qs pss ih =>
    rw [List.foldl_cons, ih, product_eq_nil_iff, List.forall_mem_cons, and_assoc]

end Pathway

/-! ## Pathways of a requirement -/

namespace Requirement

variable {r : Requirement}

theorem pathways_eq_nil_iff : r.pathways = [] ↔ r.leaves = [] := by
  induction r with
  | node n => simp
  | group c parts ih =>
    rw [leaves_group, List.flatMap_eq_nil_iff]
    cases c with
    | all =>
      rw [pathways_all, Pathway.foldl_product_eq_nil_iff, List.forall_mem_map]
      simpa using forall₂_congr ih
    | any =>
      rw [pathways_any, List.flatMap_eq_nil_iff]
      exact forall₂_congr ih

/-- Whoever completes a pathway meets the requirement, gaps passed over. A requirement that is a gap
itself has no pathway, and asks for nothing. -/
theorem met_pathways : Pathway.Met V r.pathways ↔ (r.leaves ≠ [] → r.HoldsPastGaps V) := by
  induction r with
  | node n => simp [Pathway.Met, holdsPastGaps_node]
  | group c parts ih =>
    by_cases hgap : (group c parts).leaves = []
    · exact iff_of_true (.inl (pathways_eq_nil_iff.2 hgap)) fun h => absurd hgap h
    rw [imp_iff_right hgap]
    cases c with
    | all =>
      have hnil : Pathway.Met V [] := .inl rfl
      rw [pathways_all, Pathway.met_foldl_product, and_iff_right hnil, List.forall_mem_map,
        holdsPastGaps_all]
      exact forall₂_congr ih
    | any =>
      have hne : (group .any parts).pathways ≠ [] := fun e => hgap (pathways_eq_nil_iff.1 e)
      rw [Pathway.met_of_ne_nil hne, pathways_any, holdsPastGaps_any]
      constructor
      · rintro ⟨w, hw, hV⟩
        obtain ⟨p, hp, hw⟩ := List.mem_flatMap.1 hw
        have hp' : p.leaves ≠ [] := fun e => List.ne_nil_of_mem hw (pathways_eq_nil_iff.2 e)
        exact ⟨p, hp, hp', (ih p hp).1 (.inr ⟨w, hw, hV⟩) hp'⟩
      · rintro ⟨p, hp, hp', hV⟩
        have hmet : Pathway.Met V p.pathways := (ih p hp).2 fun _ => hV
        have hne : p.pathways ≠ [] := fun e => hp' (pathways_eq_nil_iff.1 e)
        obtain ⟨w, hw, hwV⟩ := (Pathway.met_of_ne_nil hne).1 hmet
        exact ⟨w, List.mem_flatMap.2 ⟨p, hp, hw⟩, hwV⟩

theorem Filled.met_pathways (h : r.Filled) : Pathway.Met V r.pathways ↔ r.Holds V := by
  rw [Requirement.met_pathways, h.holdsPastGaps_iff]
  exact imp_iff_right h.leaves_ne_nil

/-- **The pathways are the requirement.** If a requirement names a node, some nodes complete one of
its pathways just if they meet it, gaps passed over; and it has no pathway just if it names no
node. -/
theorem exists_pathway_iff_holdsPastGaps (r : Requirement) :
    (r.leaves ≠ [] → ∀ V : Node → Prop,
      (∃ p ∈ pathwaysOf (some r), ∀ n ∈ p, V n) ↔ r.HoldsPastGaps V) ∧
    (pathwaysOf (some r) = [] ↔ r.leaves = []) := by
  refine ⟨fun hr V => ?_, pathways_eq_nil_iff⟩
  have hne : r.pathways ≠ [] := fun e => hr (pathways_eq_nil_iff.1 e)
  calc (∃ p ∈ r.pathways, ∀ n ∈ p, V n)
      ↔ Pathway.Met V r.pathways := (Pathway.met_of_ne_nil hne).symm
    _ ↔ (r.leaves ≠ [] → r.HoldsPastGaps V) := met_pathways
    _ ↔ r.HoldsPastGaps V := imp_iff_right hr

/-- Node 1 and one of two alternatives, the first of which is a gap, and besides a gap. -/
def gappy : Requirement :=
  .group .all [.group .any [], .node 1, .group .any [.group .all [.group .any []], .node 2]]

/-- The gap among the alternatives does not meet them, so that node 1 alone is not enough. -/
theorem exists_pathway_iff_holdsPastGaps_gappy : gappy.leaves ≠ [] ∧
    ((∃ p ∈ pathwaysOf (some gappy), ∀ n ∈ p, n = 1) ↔ gappy.HoldsPastGaps (· = 1)) ∧
    ¬ gappy.HoldsPastGaps (· = 1) := by
  have names : gappy.leaves ≠ [] := by decide
  have hiff := (exists_pathway_iff_holdsPastGaps gappy).1 names (· = 1)
  have hpathways : pathwaysOf (some gappy) = [[1, 2]] := by decide
  refine ⟨names, hiff, ?_⟩
  rw [← hiff, hpathways]
  simp

/-- The ways to meet a requirement that may be missing; nothing is needed without one. -/
def waysOf (r : Option Requirement) : List Pathway := r.elim [[]] pathways

theorem holdsIfAny_iff_waysOf {r : Option Requirement} (h : ∀ x ∈ r, x.Filled) :
    HoldsIfAny V r ↔ ∃ p ∈ waysOf r, ∀ n ∈ p, V n := by
  cases r with
  | none =>
    refine ⟨fun _ => ⟨[], List.mem_singleton_self [], nofun⟩, fun _ => nofun⟩
  | some x =>
    have hx : x.Filled := h x rfl
    have hne : x.pathways ≠ [] := fun e => hx.leaves_ne_nil (pathways_eq_nil_iff.1 e)
    have hholds : HoldsIfAny V (some x) ↔ x.Holds V := by simp [HoldsIfAny]
    rw [hholds, ← hx.met_pathways, Pathway.met_of_ne_nil hne]
    exact Iff.rfl

end Requirement

/-! ## Pathways by ancestors -/

/-- Whoever completes a pathway of `ps` has completed one of `qs`, by the given ancestors. -/
def Ancestors.Entails (a : Ancestors) (ps qs : List Pathway) : Prop :=
  ∀ p ∈ ps, ∃ q ∈ qs, ∀ n ∈ q, ∃ m ∈ p, a.covers m n

/-- Among the closed sets that hold a pathway there is a least one: the nodes that the pathway
reaches, which are those that it covers. -/
theorem Curriculum.entails_iff {c : Curriculum} (acyclic : c.Acyclic) {ps qs : List Pathway} :
    c.ancestors.Entails ps qs ↔
      ∀ V, c.Closed V → (∃ p ∈ ps, ∀ n ∈ p, V n) → ∃ q ∈ qs, ∀ n ∈ q, V n := by
  constructor
  · rintro h V hV ⟨p, hp, hpV⟩
    obtain ⟨q, hq, hcovers⟩ := h p hp
    refine ⟨q, hq, fun n hn => ?_⟩
    obtain ⟨m, hm, hmn⟩ := hcovers n hn
    exact hV.respected m n hmn (hpV m hm)
  · intro h p hp
    have hclosed := closed_links.1 (c.links.closed_reached p)
    obtain ⟨q, hq, hreached⟩ := h _ hclosed ⟨p, hp, fun n hn => ⟨n, hn, .inl rfl⟩⟩
    refine ⟨q, hq, fun n hn => ?_⟩
    obtain ⟨m, hm, hmn⟩ := hreached n hn
    refine ⟨m, hm, Ancestors.covers_iff.2 (hmn.imp_right fun h => ?_)⟩
    exact (Links.isAncestor_iff_reaches ((acyclic_links.2 acyclic).clear m)).2 h

end Prereq
