import Prereq.Proofs.Mentions
import Prereq.Proofs.Requirement.Positions
import Prereq.Proofs.Requirement.RoundTrip

/-!
# Simplification without ancestors

Taking a node out of a text ends with a simplification for which nothing is recorded. What it drops
then is settled by the leaves of the operands alone.

* `Ancestors.transitive_empty`, `Connective.Absorbed`, `Connective.redundant_empty_iff` : without
  ancestors, redundancy compares sets of leaves, and is transitive;
* `Requirement.kept_without_ancestors` : what is dropped is absorbed by an operand that stays, and
  it is always a duplicate just if no operand is absorbed by a different one;
* `Requirement.drops_more_than_duplicates` : a node is absorbed by a group of alternatives that
  mentions it.
-/

namespace Prereq

theorem Ancestors.transitive_empty : (∅ : Ancestors).Transitive := by
  intro n m k hnm hmk
  rw [covers_empty] at hnm hmk ⊢
  exact hnm.trans hmk

/-- Under AND, the leaves of `x` are among those of `y`, and under OR the other way round. -/
def Connective.Absorbed (c : Connective) (x y : Requirement) : Prop :=
  match c with
  | .all => x.leaves ⊆ y.leaves
  | .any => y.leaves ⊆ x.leaves

theorem Connective.redundant_empty_iff {c : Connective} {x y : Requirement} :
    c.redundant ∅ x y ↔ c.Absorbed x y := by
  cases c with
  | all =>
    simp only [redundant_all_iff, Ancestors.covers_empty, exists_eq_right]
    rfl
  | any =>
    simp only [redundant_any_iff, Ancestors.covers_empty, exists_eq_right]
    rfl

namespace Requirement

/-- **Without ancestors.** What simplification drops from a group is absorbed by an operand that
stays. So only duplicates go just if no operand is absorbed by a different one. -/
theorem kept_without_ancestors (c : Connective) (parts : List Requirement) :
    let ops := operands ∅ c parts
    let kept := keptPositions (c.redundant ∅) ops
    simplify? ∅ (group c parts) = ofParts? c (kept.map (ops[·])) ∧
    (∀ i, i ∉ kept → ∃ j ∈ kept, c.Absorbed ops[i] ops[j]) ∧
    ((∀ i, i ∉ kept → ∃ j ∈ kept, ops[j] = ops[i]) ↔
      ∀ i j : Fin ops.length, c.Absorbed ops[i] ops[j] → ops[i] = ops[j]) := by
  intro ops kept
  have htrans : ∀ x y z, c.redundant ∅ x y → c.redundant ∅ y z → c.redundant ∅ x z :=
    fun x y z => Connective.redundant_trans Ancestors.transitive_empty
  have habsorbing : ∀ i, i ∉ kept → ∃ j ∈ kept, c.Absorbed ops[i] ops[j] := by
    intro i hi
    obtain ⟨j, hj, hij⟩ := exists_kept_of_not_mem htrans hi
    exact ⟨j, hj, Connective.redundant_empty_iff.1 hij⟩
  refine ⟨?_, habsorbing, fun honly i j hij => ?_, fun hexact i hi => ?_⟩
  · rw [simplify?_group_eq, survivors_eq_map]
  · refine eq_of_redundant_of_copies (fun k => ?_) (Connective.redundant_empty_iff.2 hij)
    by_cases hk : k ∈ kept
    · exact ⟨k, hk, rfl⟩
    · exact honly k hk
  · obtain ⟨j, hj, hij⟩ := habsorbing i hi
    exact ⟨j, hj, (hexact i j hij).symm⟩

/-- Node 1, and besides node 1 or 2. -/
def loosening : Requirement := .group .all [.node 1, .group .any [.node 1, .node 2]]

theorem read?_loosening : read? "1 AND (1 OR 2)" = some loosening := by
  have htext : render (some loosening) = "1 AND (1 OR 2)" := by decide
  have hcanonical : loosening.Canonical := by
    simp [loosening, canonical_group, canonical_node, connective?]
  rw [← htext]
  exact read?_render_of_tokens hcanonical (by decide)

/-- Node 1 goes, although no other operand equals it, so that node 2 alone will do. -/
theorem drops_more_than_duplicates :
    (¬ ∀ (c : Connective) parts,
      let ops := operands ∅ c parts
      let kept := keptPositions (c.redundant ∅) ops
      ∀ i, i ∉ kept → ∃ j ∈ kept, ops[j] = ops[i]) ∧
    removeNode 9 "1 AND (1 OR 2)" = "1 OR 2" := by
  refine ⟨fun h => ?_, ?_⟩
  · obtain ⟨j, hj, heq⟩ :=
      h .all [.node 1, .group .any [.node 1, .node 2]] ⟨0, by decide⟩ (by decide)
    revert j
    decide
  · rw [removeNode_of_read? read?_loosening]
    decide

end Requirement

end Prereq
