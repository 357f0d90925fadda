import Prereq.Requirement.Meaning

/-!
# The shape of a requirement

* `Requirement.Within` : a requirement is another one or lies somewhere below it;
* `Requirement.Filled` : every group has a part;
* `Requirement.Joint` : no group is an alternative; `Requirement.Alternatives` : no alternative
  lies below a group that needs all its parts;
* `Requirement.Canonical` : every group has two parts or more, none of them a group of its own
  connective.

Each shape is defined by the groups within a requirement and has an equation for groups
(`filled_group`, `joint_group`, `alternatives_all`, `alternatives_any`, `canonical_group`).
-/

namespace Prereq.Requirement

variable {V : Node → Prop} {c : Connective} {p q r : Requirement} {parts : List Requirement}

/-- `Within p r` : the requirement `p` is `r` itself or lies below it. -/
inductive Within : Requirement → Requirement → Prop where
  | refl (r : Requirement) : Within r r
  | part {p q : Requirement} {c : Connective} {parts : List Requirement} (mem : q ∈ parts)
    (within : Within p q) : Within p (.group c parts)

theorem Within.trans (h : Within p q) (h' : Within q r) : Within p r := by
  induction h' with
  | refl => exact h
  | part mem _ ih => exact .part mem ih

theorem within_group_iff :
    Within p (.group c parts) ↔ p = .group c parts ∨ ∃ q ∈ parts, Within p q := by
  refine ⟨fun h => ?_, fun h => ?_⟩
  · cases h with
    | refl => exact .inl rfl
    | part mem within => exact .inr ⟨_, mem, within⟩
  · rcases h with rfl | ⟨q, hq, h⟩
    · exact .refl _
    · exact .part hq h

theorem exists_eq_group (h : r.connective? = some c) : ∃ parts, r = group c parts := by
  cases r with
  | node n => cases h
  | group d parts =>
    cases h
    exact ⟨parts, rfl⟩

/-! ## Groups with parts -/

/-- Every group has a part. -/
def Filled (r : Requirement) : Prop := ∀ c parts, Within (.group c parts) r → parts ≠ []

theorem filled_node (n : Node) : (Requirement.node n).Filled := by
  intro c parts h
  cases h

theorem filled_group : (group c parts).Filled ↔ parts ≠ [] ∧ ∀ p ∈ parts, p.Filled := by
  constructor
  · exact fun h => ⟨h c parts (.refl _), fun p hp d qs hq => h d qs (.part hp hq)⟩
  · rintro ⟨hne, h⟩ d qs hq
    rcases within_group_iff.1 hq with heq | ⟨p, hp, hq⟩
    · cases heq
      exact hne
    · exact h p hp d qs hq

theorem Filled.leaves_ne_nil (h : r.Filled) : r.leaves ≠ [] := by
  induction r with
  | node n => exact List.cons_ne_nil n []
  | group c parts ih =>
    obtain ⟨hne, hparts⟩ := filled_group.1 h
    obtain ⟨p, hp⟩ := List.exists_mem_of_ne_nil parts hne
    intro hnil
    rw [leaves_group, List.flatMap_eq_nil_iff] at hnil
    exact ih p hp (hparts p hp) (hnil p hp)

/-- Whoever knows all nodes of a requirement meets it. -/
theorem Filled.holds (h : r.Filled) (hV : ∀ n ∈ r.leaves, V n) : r.Holds V := by
  induction r with
  | node n => exact hV n (List.mem_singleton_self n)
  | group c parts ih =>
    obtain ⟨hne, hparts⟩ := filled_group.1 h
    have hpart : ∀ p ∈ parts, p.Holds V := fun p hp =>
      ih p hp (hparts p hp) fun n hn => hV n (by
        rw [leaves_group]
        exact List.mem_flatMap.2 ⟨p, hp, hn⟩)
    cases c with
    | all => exact holds_all.2 hpart
    | any =>
      obtain ⟨p, hp⟩ := List.exists_mem_of_ne_nil parts hne
      exact holds_any.2 ⟨p, hp, hpart p hp⟩

/-! ## Alternatives and what is needed jointly -/

/-- No group is an alternative. -/
def Joint (r : Requirement) : Prop := ∀ others, ¬ Within (.group .any others) r

/-- No alternative lies below a group that needs all its parts. -/
def Alternatives (r : Requirement) : Prop := ∀ parts, Within (.group .all parts) r →
  (Requirement.group .all parts).Joint

theorem joint_node (n : Node) : (Requirement.node n).Joint := by
  intro others h
  cases h

theorem not_joint_any : ¬ (group .any parts).Joint := fun h => h parts (.refl _)

theorem joint_all : (group .all parts).Joint ↔ ∀ p ∈ parts, p.Joint := by
  constructor
  · exact fun h p hp others hw => h others (.part hp hw)
  · intro h others hw
    rcases within_group_iff.1 hw with heq | ⟨p, hp, hw⟩
    · cases heq
    · exact h p hp others hw

theorem Joint.alternatives (h : r.Joint) : r.Alternatives :=
  fun _ hw others hw' => h others (hw'.trans hw)

theorem alternatives_node (n : Node) : (Requirement.node n).Alternatives := (joint_node n).alternatives

theorem alternatives_all : (group .all parts).Alternatives ↔ ∀ p ∈ parts, p.Joint :=
  ⟨fun h => joint_all.1 (h parts (.refl _)), fun h => (joint_all.2 h).alternatives⟩

theorem alternatives_any : (group .any parts).Alternatives ↔ ∀ p ∈ parts, p.Alternatives := by
  constructor
  · exact fun h p hp qs hw => h qs (.part hp hw)
  · intro h qs hw
    rcases within_group_iff.1 hw with heq | ⟨p, hp, hw⟩
    · cases heq
    · exact h p hp qs hw

/-- What is needed jointly is met by whoever knows all its nodes, and by nobody else. -/
theorem Joint.holds_iff (h : r.Joint) : r.Holds V ↔ ∀ n ∈ r.leaves, V n := by
  induction r with
  | node n => simp
  | group c parts ih =>
    cases c with
    | any => exact absurd h not_joint_any
    | all =>
      rw [holds_all, leaves_group, List.forall_mem_flatMap]
      exact forall₂_congr fun p hp => ih p hp (joint_all.1 h p hp)

/-- An alternative that is no group under OR is needed jointly. -/
theorem Alternatives.joint (h : r.Alternatives) (hr : r.connective? ≠ some .any) : r.Joint := by
  cases r with
  | node n => exact joint_node n
  | group c parts =>
    cases c with
    | all => exact h parts (.refl _)
    | any => exact absurd rfl hr

/-! ## Canonical requirements -/

/-- Every group has two parts or more, none of them a group of its own connective. -/
def Canonical (r : Requirement) : Prop := ∀ c parts, Within (.group c parts) r →
  2 ≤ parts.length ∧ ∀ p ∈ parts, p.connective? ≠ some c

theorem canonical_node (n : Node) : (Requirement.node n).Canonical := by
  intro c parts h
  cases h

theorem canonical_group : (group c parts).Canonical ↔
    2 ≤ parts.length ∧ ∀ p ∈ parts, p.connective? ≠ some c ∧ p.Canonical := by
  constructor
  · intro h
    obtain ⟨hlen, hparts⟩ := h c parts (.refl _)
    exact ⟨hlen, fun p hp => ⟨hparts p hp, fun d qs hw => h d qs (.part hp hw)⟩⟩
  · rintro ⟨hlen, h⟩ d qs hw
    rcases within_group_iff.1 hw with heq | ⟨p, hp, hw⟩
    · cases heq
      exact ⟨hlen, fun p hp => (h p hp).1⟩
    · exact (h p hp).2 d qs hw

theorem Canonical.filled (h : r.Canonical) : r.Filled := by
  intro c parts hw hnil
  have hlen := (h c parts hw).1
  rw [hnil] at hlen
  cases hlen

end Prereq.Requirement
