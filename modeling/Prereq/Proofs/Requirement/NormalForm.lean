import Mathlib.Tactic.ByContra
import Prereq.Proofs.Requirement.Shape
import Prereq.Proofs.Requirement.Survivors

/-!
# What simplification leaves

* `Requirement.mem_splice`, `Requirement.holds_splice` : putting the parts of a part in its place;
* `Requirement.operands` : the parts of a group that the pass of `survivors` goes through;
* `Requirement.canonical_of_simplify?` : a simplified requirement is canonical;
* `Requirement.simplify?_eq_none_iff` : nothing remains only of a requirement without nodes.
-/

namespace Prereq.Connective

variable {a : Ancestors} {x y : Requirement}

theorem redundant_all_iff :
    Connective.all.redundant a x y ↔ ∀ n ∈ x.leaves, ∃ m ∈ y.leaves, a.covers m n := by
  simp [redundant]

theorem redundant_any_iff :
    Connective.any.redundant a x y ↔ ∀ m ∈ y.leaves, ∃ n ∈ x.leaves, a.covers n m := by
  simp [redundant]

end Prereq.Connective

namespace Prereq.Requirement

variable {V : Node → Prop} {a : Ancestors} {c : Connective} {p q r t : Requirement}
  {parts : List Requirement}

/-! ## Splicing -/

theorem mem_splice : q ∈ splice c parts ↔ ∃ p ∈ parts,
    (p.connective? ≠ some c ∧ q = p) ∨ ∃ inner, p = group c inner ∧ q ∈ inner := by
  rw [splice, List.mem_flatMap]
  refine exists_congr fun p => and_congr_right fun _ => ?_
  cases p with
  | node n => simp [connective?]
  | group d inner =>
    by_cases hd : d = c
    · subst hd
      simp [connective?]
    · simp [connective?, hd]

theorem splice_cons_of_ne (h : p.connective? ≠ some c) :
    splice c (p :: parts) = p :: splice c parts := by
  cases p with
  | node n => rfl
  | group d inner =>
    have hd : d ≠ c := fun e => h (e ▸ rfl)
    simp [splice, hd]

theorem splice_eq_self (h : ∀ p ∈ parts, p.connective? ≠ some c) : splice c parts = parts := by
  induction parts with
  | nil => rfl
  | cons p parts ih =>
    obtain ⟨hp, hparts⟩ := List.forall_mem_cons.1 h
    rw [splice_cons_of_ne hp, ih hparts]

/-- Splicing does not change what a group asks for. -/
theorem holds_splice : (group c (splice c parts)).Holds V ↔ (group c parts).Holds V := by
  cases c with
  | all =>
    rw [holds_all, holds_all]
    constructor
    · intro h p hp
      by_cases hc : p.connective? = some .all
      · obtain ⟨inner, rfl⟩ := exists_eq_group hc
        exact holds_all.2 fun q hq => h q (mem_splice.2 ⟨_, hp, .inr ⟨inner, rfl, hq⟩⟩)
      · exact h p (mem_splice.2 ⟨p, hp, .inl ⟨hc, rfl⟩⟩)
    · intro h q hq
      obtain ⟨p, hp, ⟨-, rfl⟩ | ⟨inner, rfl, hq⟩⟩ := mem_splice.1 hq
      · exact h q hp
      · exact holds_all.1 (h _ hp) q hq
  | any =>
    rw [holds_any, holds_any]
    refine ⟨fun h => ?_, fun h => ?_⟩
    · obtain ⟨q, hq, hV⟩ := h
      obtain ⟨p, hp, ⟨-, rfl⟩ | ⟨inner, rfl, hq⟩⟩ := mem_splice.1 hq
      · exact ⟨q, hp, hV⟩
      · exact ⟨_, hp, holds_any.2 ⟨q, hq, hV⟩⟩
    · obtain ⟨p, hp, hV⟩ := h
      by_cases hc : p.connective? = some .any
      · obtain ⟨inner, rfl⟩ := exists_eq_group hc
        obtain ⟨q, hq, hV⟩ := holds_any.1 hV
        exact ⟨q, mem_splice.2 ⟨_, hp, .inr ⟨inner, rfl, hq⟩⟩, hV⟩
      · exact ⟨p, mem_splice.2 ⟨p, hp, .inl ⟨hc, rfl⟩⟩, hV⟩

/-! ## One group -/

theorem ofParts?_eq_none_iff : ofParts? c parts = none ↔ parts = [] := by
  match parts with
  | [] => simp [ofParts?]
  | [p] => simp [ofParts?]
  | p :: q :: parts => simp [ofParts?]

/-- One part stands for itself, and several form a group. -/
theorem ofParts?_eq_some_iff :
    ofParts? c parts = some t ↔ parts = [t] ∨ 2 ≤ parts.length ∧ t = group c parts := by
  match parts with
  | [] => simp [ofParts?]
  | [p] => simp [ofParts?]
  | p :: q :: parts => simp [ofParts?, eq_comm]

theorem holds_of_ofParts? (h : ofParts? c parts = some t) :
    t.Holds V ↔ (group c parts).Holds V := by
  rcases ofParts?_eq_some_iff.1 h with rfl | ⟨-, rfl⟩
  · cases c <;> simp
  · exact Iff.rfl

/-- The parts of a group after each has been simplified and spliced in. -/
def operands (a : Ancestors) (c : Connective) (parts : List Requirement) : List Requirement :=
  splice c (parts.filterMap (simplify? a))

theorem simplify?_group_eq (a : Ancestors) (c : Connective) (parts : List Requirement) :
    simplify? a (group c parts) =
      ofParts? c (survivors (c.redundant a) [] (operands a c parts)) :=
  simplify?_group a c parts

/-- Where the operands of a group come from. -/
theorem mem_operands : q ∈ operands a c parts ↔ ∃ p ∈ parts, ∃ t, simplify? a p = some t ∧
    ((t.connective? ≠ some c ∧ q = t) ∨ ∃ inner, t = group c inner ∧ q ∈ inner) := by
  rw [operands, mem_splice]
  refine ⟨fun h => ?_, fun h => ?_⟩
  · obtain ⟨t, ht, hq⟩ := h
    obtain ⟨p, hp, hpt⟩ := List.mem_filterMap.1 ht
    exact ⟨p, hp, t, hpt, hq⟩
  · obtain ⟨p, hp, t, hpt, hq⟩ := h
    exact ⟨t, List.mem_filterMap.2 ⟨p, hp, hpt⟩, hq⟩

/-! ## The whole requirement -/

theorem canonical_of_ofParts? (h : ofParts? c parts = some t)
    (hparts : ∀ p ∈ parts, p.connective? ≠ some c ∧ p.Canonical) : t.Canonical := by
  rcases ofParts?_eq_some_iff.1 h with rfl | ⟨hlen, rfl⟩
  · exact (hparts t (List.mem_singleton_self t)).2
  · exact canonical_group.2 ⟨hlen, hparts⟩

theorem canonical_of_mem_operands (h : ∀ p ∈ parts, ∀ t, simplify? a p = some t → t.Canonical)
    (hq : q ∈ operands a c parts) : q.connective? ≠ some c ∧ q.Canonical := by
  obtain ⟨p, hp, t, hpt, ⟨hc, rfl⟩ | ⟨inner, rfl, hq⟩⟩ := mem_operands.1 hq
  · exact ⟨hc, h p hp q hpt⟩
  · exact (canonical_group.1 (h p hp _ hpt)).2 q hq

theorem canonical_of_simplify? (h : simplify? a r = some t) : t.Canonical := by
  induction r generalizing t with
  | node n =>
    rw [simplify?_node, Option.some.injEq] at h
    exact h ▸ canonical_node n
  | group c parts ih =>
    rw [simplify?_group_eq] at h
    exact canonical_of_ofParts? h fun q hq =>
      canonical_of_mem_operands ih (mem_of_mem_survivors hq)

theorem canonical_of_mem_operands' (hq : q ∈ operands a c parts) :
    q.connective? ≠ some c ∧ q.Canonical :=
  canonical_of_mem_operands (fun _ _ _ => canonical_of_simplify?) hq

theorem operands_eq_nil_iff :
    operands a c parts = [] ↔ ∀ p ∈ parts, simplify? a p = none := by
  rw [List.eq_nil_iff_forall_not_mem]
  constructor
  · intro h p hp
    by_contra hsome
    obtain ⟨t, ht⟩ := Option.ne_none_iff_exists'.1 hsome
    by_cases hc : t.connective? = some c
    · obtain ⟨inner, rfl⟩ := exists_eq_group hc
      have hlen := (canonical_group.1 (canonical_of_simplify? ht)).1
      obtain ⟨q, hq⟩ := List.exists_mem_of_length_pos (Nat.lt_of_lt_of_le Nat.zero_lt_two hlen)
      exact h q (mem_operands.2 ⟨p, hp, _, ht, .inr ⟨inner, rfl, hq⟩⟩)
    · exact h t (mem_operands.2 ⟨p, hp, t, ht, .inl ⟨hc, rfl⟩⟩)
  · intro h q hq
    obtain ⟨p, hp, t, ht, -⟩ := mem_operands.1 hq
    rw [h p hp] at ht
    cases ht

theorem simplify?_eq_none_iff : simplify? a r = none ↔ r.leaves = [] := by
  induction r with
  | node n => simp
  | group c parts ih =>
    rw [simplify?_group_eq, ofParts?_eq_none_iff, survivors_eq_nil_iff, operands_eq_nil_iff,
      leaves_group, List.flatMap_eq_nil_iff]
    exact forall₂_congr ih

end Prereq.Requirement
