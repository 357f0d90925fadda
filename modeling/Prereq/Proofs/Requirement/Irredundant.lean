import Prereq.Proofs.Requirement.NormalForm

/-!
# Irredundant requirements

* `Requirement.Irredundant` : canonical, and in no group a part is redundant beside another one;
* `Requirement.irredundant_iff` : the same said of every group and any two of its parts;
* `Requirement.irredundant_of_simplify?` : simplification leaves an irredundant requirement;
* `Requirement.Irredundant.simplify?_eq` : an irredundant requirement stays as it is;
* `Requirement.simplify?_idempotent` : what is simplified once is simplified for good;
* `Requirement.exists_simplify?_eq_iff` : what simplification can leave, it is irredundant and
  nothing else;
* `Requirement.Canonical.irredundant` : a canonical one is irredundant if no node covers another.

Nothing is asked of the table of ancestors. Parts that stay are compared with one another when they
stay, whether redundancy is transitive or not.
-/

namespace Prereq.Requirement

variable {a : Ancestors} {c : Connective} {p q r t : Requirement} {parts : List Requirement}

/-- Neither of two parts of a group is redundant beside the other. -/
def Apart (a : Ancestors) (c : Connective) (p q : Requirement) : Prop :=
  ¬ c.redundant a p q ∧ ¬ c.redundant a q p

/-- Every group is canonical and its parts are not redundant beside each other. -/
structure Irredundant (a : Ancestors) (r : Requirement) : Prop where
  canonical : r.Canonical
  apart : ∀ c parts, Within (.group c parts) r → parts.Pairwise (Apart a c)

theorem irredundant_node (a : Ancestors) (n : Node) : (Requirement.node n).Irredundant a :=
  ⟨canonical_node n, nofun⟩

theorem irredundant_group : (group c parts).Irredundant a ↔
    2 ≤ parts.length ∧ parts.Pairwise (Apart a c) ∧
      ∀ p ∈ parts, p.connective? ≠ some c ∧ p.Irredundant a := by
  constructor
  · rintro ⟨hcanonical, hapart⟩
    obtain ⟨hlen, hparts⟩ := canonical_group.1 hcanonical
    refine ⟨hlen, hapart c parts (.refl _), fun p hp => ⟨(hparts p hp).1, (hparts p hp).2, ?_⟩⟩
    exact fun d qs hw => hapart d qs (.part hp hw)
  · rintro ⟨hlen, hapart, hparts⟩
    refine ⟨canonical_group.2 ⟨hlen, fun p hp => ⟨(hparts p hp).1, (hparts p hp).2.canonical⟩⟩, ?_⟩
    intro d qs hw
    rcases within_group_iff.1 hw with heq | ⟨p, hp, hw⟩
    · cases heq
      exact hapart
    · exact (hparts p hp).2.apart d qs hw

theorem pairwise_apart_iff : parts.Pairwise (Apart a c) ↔
    ∀ i j : Fin parts.length, i ≠ j → ¬ c.redundant a parts[i] parts[j] := by
  rw [List.pairwise_iff_get]
  constructor
  · intro h i j hij
    rcases Nat.lt_or_gt_of_ne (Fin.val_ne_of_ne hij) with hlt | hlt
    · exact (h i j hlt).1
    · exact (h j i hlt).2
  · intro h i j hlt
    exact ⟨h i j (Fin.ne_of_lt hlt), h j i (Fin.ne_of_gt hlt)⟩

theorem irredundant_iff : r.Irredundant a ↔ ∀ c parts, Within (.group c parts) r →
    2 ≤ parts.length ∧ (∀ p ∈ parts, p.connective? ≠ some c) ∧
    ∀ i j : Fin parts.length, i ≠ j → ¬ c.redundant a parts[i] parts[j] := by
  simp only [← pairwise_apart_iff]
  constructor
  · intro h c parts hw
    obtain ⟨hlen, hparts⟩ := h.canonical c parts hw
    exact ⟨hlen, hparts, h.apart c parts hw⟩
  · intro h
    exact ⟨fun c parts hw => ⟨(h c parts hw).1, (h c parts hw).2.1⟩,
      fun c parts hw => (h c parts hw).2.2⟩

/-! ## What simplification leaves is irredundant -/

theorem irredundant_of_mem_operands
    (h : ∀ p ∈ parts, ∀ t, simplify? a p = some t → t.Irredundant a)
    (hq : q ∈ operands a c parts) : q.Irredundant a := by
  obtain ⟨p, hp, t, hpt, ⟨-, rfl⟩ | ⟨inner, rfl, hq⟩⟩ := mem_operands.1 hq
  · exact h p hp q hpt
  · exact ((irredundant_group.1 (h p hp _ hpt)).2.2 q hq).2

theorem irredundant_of_simplify? (h : simplify? a r = some t) : t.Irredundant a := by
  induction r generalizing t with
  | node n =>
    rw [simplify?_node, Option.some.injEq] at h
    exact h ▸ irredundant_node a n
  | group c parts ih =>
    have hstay : ∀ q ∈ survivors (c.redundant a) [] (operands a c parts),
        q.connective? ≠ some c ∧ q.Irredundant a := fun q hq =>
      ⟨(canonical_of_mem_operands' (mem_of_mem_survivors hq)).1,
        irredundant_of_mem_operands ih (mem_of_mem_survivors hq)⟩
    rw [simplify?_group_eq] at h
    rcases ofParts?_eq_some_iff.1 h with hone | ⟨hlen, rfl⟩
    · exact (hstay t (hone ▸ List.mem_singleton_self t)).2
    · exact irredundant_group.2 ⟨hlen, survivors_pairwise (c.redundant a) [] _, hstay⟩

/-! ## Irredundant requirements stay -/

theorem Irredundant.simplify?_eq (h : t.Irredundant a) : simplify? a t = some t := by
  induction t with
  | node n => rfl
  | group c parts ih =>
    obtain ⟨hlen, hapart, hparts⟩ := irredundant_group.1 h
    have hoperands : operands a c parts = parts := by
      have hsame : parts.filterMap (simplify? a) = parts.filterMap some :=
        List.filterMap_congr fun p hp => ih p hp (hparts p hp).2
      rw [operands, hsame, List.filterMap_some, splice_eq_self fun p hp => (hparts p hp).1]
    have hstay : survivors (c.redundant a) [] parts = parts :=
      survivors_eq_self (fun _ _ _ hk => absurd hk List.not_mem_nil) hapart
    rw [simplify?_group_eq, hoperands, hstay]
    exact ofParts?_eq_some_iff.2 (.inr ⟨hlen, rfl⟩)

/-- **Simplifying twice.** Whatever a table of ancestors records, a simplified requirement stays as
it is. -/
theorem simplify?_idempotent (a : Ancestors) (r t : Requirement) (h : simplify? a r = some t) :
    simplify? a t = some t := by
  have hirredundant : t.Irredundant a := irredundant_of_simplify? h
  exact hirredundant.simplify?_eq

/-- Each of three nodes has only the next one recorded as its ancestor. -/
def merryGoRound : Ancestors := .ofList [(1, [2]), (2, [3]), (3, [1])]

/-- A group with an empty part, parts that are groups of one, and alternatives. -/
def ragbag : Requirement := .group .all [.group .all [], .group .any [.node 1], .node 2,
  .group .all [.node 3], .group .any [.node 4, .group .any [.node 4, .node 5]]]

/-- Node 1 goes for node 3, and node 3 for node 2, which does not cover node 1. -/
theorem simplify?_idempotent_ragbag :
    simplify? merryGoRound ragbag =
      some (.group .all [.node 2, .group .any [.node 4, .node 5]]) ∧
    merryGoRound.covers 3 1 ∧ merryGoRound.covers 2 3 ∧ ¬ merryGoRound.covers 2 1 ∧
    simplify? merryGoRound (.group .all [.node 2, .group .any [.node 4, .node 5]]) =
      some (.group .all [.node 2, .group .any [.node 4, .node 5]]) := by
  have h : simplify? merryGoRound ragbag =
      some (.group .all [.node 2, .group .any [.node 4, .node 5]]) := by decide
  exact ⟨h, by decide, by decide, by decide, simplify?_idempotent _ _ _ h⟩

/-- **What simplification can leave.** Whatever a table of ancestors records, the simplified
requirements are those in which every group has two parts or more, none of them a group of its own
connective and no two of them redundant one beside the other. -/
theorem exists_simplify?_eq_iff (a : Ancestors) (t : Requirement) :
    (∃ r, simplify? a r = some t) ↔ ∀ c parts, Within (.group c parts) t →
      2 ≤ parts.length ∧ (∀ p ∈ parts, p.connective? ≠ some c) ∧
      ∀ i j : Fin parts.length, i ≠ j → ¬ c.redundant a parts[i] parts[j] := by
  rw [← irredundant_iff]
  constructor
  · rintro ⟨r, h⟩
    exact irredundant_of_simplify? h
  · intro h
    exact ⟨t, h.simplify?_eq⟩

/-! ## Nodes that do not cover each other -/

theorem apart_of_not_covers (hp : p.leaves ≠ []) (hq : q.leaves ≠ [])
    (h : ∀ n ∈ p.leaves, ∀ m ∈ q.leaves, ¬ a.covers n m ∧ ¬ a.covers m n) : Apart a c p q := by
  obtain ⟨n, hn⟩ := List.exists_mem_of_ne_nil _ hp
  obtain ⟨m, hm⟩ := List.exists_mem_of_ne_nil _ hq
  cases c with
  | all =>
    rw [Apart, Connective.redundant_all_iff, Connective.redundant_all_iff]
    refine ⟨fun hpq => ?_, fun hqp => ?_⟩
    · obtain ⟨k, hk, hcovers⟩ := hpq n hn
      exact (h n hn k hk).2 hcovers
    · obtain ⟨k, hk, hcovers⟩ := hqp m hm
      exact (h k hk m hm).1 hcovers
  | any =>
    rw [Apart, Connective.redundant_any_iff, Connective.redundant_any_iff]
    refine ⟨fun hpq => ?_, fun hqp => ?_⟩
    · obtain ⟨k, hk, hcovers⟩ := hpq m hm
      exact (h k hk m hm).1 hcovers
    · obtain ⟨k, hk, hcovers⟩ := hqp n hn
      exact (h n hn k hk).2 hcovers

/-- Where no node covers another one, only the shape counts. -/
theorem Canonical.irredundant (hr : r.Canonical)
    (h : r.leaves.Pairwise fun n m => ¬ a.covers n m ∧ ¬ a.covers m n) : r.Irredundant a := by
  induction r with
  | node n => exact irredundant_node a n
  | group c parts ih =>
    obtain ⟨hlen, hparts⟩ := canonical_group.1 hr
    rw [leaves_group, List.pairwise_flatMap] at h
    refine irredundant_group.2 ⟨hlen, h.2.imp_of_mem fun hp hq hpq => ?_, fun p hp =>
      ⟨(hparts p hp).1, ih p hp (hparts p hp).2 (h.1 p hp)⟩⟩
    exact apart_of_not_covers (hparts _ hp).2.filled.leaves_ne_nil
      (hparts _ hq).2.filled.leaves_ne_nil hpq

end Prereq.Requirement
