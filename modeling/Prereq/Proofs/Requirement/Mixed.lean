import Prereq.Proofs.Requirement.Outline
import Prereq.Proofs.Requirement.Sound

/-!
# Alternatives below what is needed jointly

Under AND redundancy is decided by comparing the nodes of two parts, as if a part with alternatives
needed all of its nodes. No other shape goes wrong, but every shape with an alternative below an
AND does for some choice of nodes.

* `Requirement.simplify?_uniform` : a requirement of one node only;
* `Requirement.Fork` : two nodes as alternatives;
* `Requirement.exists_fork` : nodes for a given shape that make simplification drop what is needed.
  One of the alternatives gets node `n` and everything else node `m`; then `m` is needed, yet what
  remains is a fork of both.
-/

namespace Prereq.Requirement

variable {a : Ancestors} {c : Connective} {m n : Node} {p q r t : Requirement}
  {parts : List Requirement} {V : Node → Prop}

/-! ## Requirements of one node -/

theorem simplify?_uniform (a : Ancestors) (n : Node) (h : r.Filled) :
    simplify? a (r.mapNodes fun _ => n) = some (.node n) := by
  induction r with
  | node k => rfl
  | group c parts ih =>
    obtain ⟨hne, hparts⟩ := filled_group.1 h
    have hmem : ∀ q, q ∈ operands a c (parts.map (mapNodes fun _ => n)) ↔ q = .node n := by
      intro q
      rw [mem_operands]
      constructor
      · rintro ⟨p', hp', t, ht, hq⟩
        obtain ⟨p, hp, rfl⟩ := List.mem_map.1 hp'
        rw [ih p hp (hparts p hp), Option.some.injEq] at ht
        subst ht
        rcases hq with ⟨-, rfl⟩ | ⟨inner, hinner, -⟩
        · rfl
        · cases hinner
      · rintro rfl
        obtain ⟨p, hp⟩ := List.exists_mem_of_ne_nil parts hne
        exact ⟨_, List.mem_map_of_mem hp, .node n, ih p hp (hparts p hp), .inl ⟨nofun, rfl⟩⟩
    have hself : c.redundant a (.node n) (.node n) := by
      cases c <;> simp [Connective.redundant, Ancestors.covers_self]
    rw [mapNodes_group, simplify?_group_eq, survivors_eq_singleton ((hmem _).2 rfl) hself]
    · rfl
    · exact fun y hy hne => absurd ((hmem y).1 hy) hne

theorem not_holds_uniform (h : r.Filled) (hn : ¬ V n) : ¬ (r.mapNodes fun _ => n).Holds V := by
  induction r with
  | node k => exact hn
  | group c parts ih =>
    obtain ⟨hne, hparts⟩ := filled_group.1 h
    rw [mapNodes_group]
    cases c with
    | all =>
      rw [holds_all, List.forall_mem_map]
      obtain ⟨p, hp⟩ := List.exists_mem_of_ne_nil parts hne
      exact fun hall => ih p hp (hparts p hp) (hall p hp)
    | any =>
      rw [holds_any]
      rintro ⟨q, hq, hV⟩
      obtain ⟨p, hp, rfl⟩ := List.mem_map.1 hq
      exact ih p hp (hparts p hp) hV

/-! ## Forks -/

/-- Alternatives between the nodes `m` and `n`, both of which occur. -/
def Fork (m n : Node) (t : Requirement) : Prop :=
  ∃ ops, t = group .any ops ∧ ∀ q, q ∈ ops ↔ q = .node m ∨ q = .node n

theorem Fork.mem_leaves {k : Node} (h : Fork m n t) : k ∈ t.leaves ↔ k = m ∨ k = n := by
  obtain ⟨ops, rfl, hops⟩ := h
  rw [leaves_group, List.mem_flatMap]
  simp only [hops]
  refine ⟨fun h => ?_, fun h => ?_⟩
  · obtain ⟨q, rfl | rfl, hk⟩ := h
    · exact .inl (List.mem_singleton.1 hk)
    · exact .inr (List.mem_singleton.1 hk)
  · rcases h with rfl | rfl
    · exact ⟨_, .inl rfl, List.mem_singleton_self _⟩
    · exact ⟨_, .inr rfl, List.mem_singleton_self _⟩

theorem Fork.alternatives (h : Fork m n t) : t.Alternatives := by
  obtain ⟨ops, rfl, hops⟩ := h
  refine alternatives_any.2 fun q hq => ?_
  rcases (hops q).1 hq with rfl | rfl <;> exact alternatives_node _

theorem Fork.holds (h : Fork m n t) : t.Holds (· = n) := by
  obtain ⟨ops, rfl, hops⟩ := h
  exact holds_any.2 ⟨.node n, (hops _).2 (.inr rfl), rfl⟩

section

variable (hmn : ¬ a.covers m n) (hnm : ¬ a.covers n m)

include hmn hnm

/-- Under OR two nodes that do not cover each other both stay. -/
theorem fork_of_operands
    (hops : ∀ q, q ∈ operands a .any parts ↔ q = .node m ∨ q = .node n) :
    ∃ t, simplify? a (group .any parts) = some t ∧ Fork m n t := by
  have hred : ∀ x ∈ operands a .any parts, ∀ y ∈ operands a .any parts,
      Connective.any.redundant a x y → y = x := by
    intro x hx y hy h
    rcases (hops x).1 hx with rfl | rfl <;> rcases (hops y).1 hy with rfl | rfl
    · rfl
    · exact absurd (by simpa [Connective.redundant] using h) hmn
    · exact absurd (by simpa [Connective.redundant] using h) hnm
    · rfl
  have hstay : ∀ q, q ∈ survivors (Connective.any.redundant a) [] (operands a .any parts) ↔
      q = .node m ∨ q = .node n := by
    intro q
    rw [← hops q]
    exact ⟨mem_of_mem_survivors, fun hq => mem_survivors hq (hred q hq)⟩
  rw [simplify?_group_eq]
  obtain ⟨t, ht⟩ := Option.ne_none_iff_exists'.1 fun hnone =>
    List.ne_nil_of_mem ((hstay _).2 (.inl rfl)) (ofParts?_eq_none_iff.1 hnone)
  refine ⟨t, ht, ?_⟩
  rcases ofParts?_eq_some_iff.1 ht with hone | ⟨-, rfl⟩
  · rw [hone] at hstay
    have hm := List.mem_singleton.1 ((hstay _).2 (.inl rfl))
    have hn := List.mem_singleton.1 ((hstay _).2 (.inr rfl))
    cases hm.trans hn.symm
    exact absurd (Ancestors.covers_self a m) hmn
  · exact ⟨_, rfl, hstay⟩

omit hnm

/-- Under AND a fork drops the node that it has in common with its context. -/
theorem simplify?_fork (ht : Fork m n t) (hmem : t ∈ operands a .all parts)
    (hops : ∀ q ∈ operands a .all parts, q = t ∨ q = .node m) :
    simplify? a (group .all parts) = some t := by
  have hself : Connective.all.redundant a t t :=
    Connective.redundant_all_iff.2 fun k hk => ⟨k, hk, Ancestors.covers_self a k⟩
  rw [simplify?_group_eq, survivors_eq_singleton hmem hself]
  · rfl
  · intro y hy hne
    obtain rfl := (hops y hy).resolve_left hne
    constructor
    · refine Connective.redundant_all_iff.2 fun k hk => ⟨m, ht.mem_leaves.2 (.inl rfl), ?_⟩
      rw [List.mem_singleton.1 hk]
      exact Ancestors.covers_self a m
    · intro h
      obtain ⟨k, hk, hkn⟩ := Connective.redundant_all_iff.1 h n (ht.mem_leaves.2 (.inr rfl))
      rw [List.mem_singleton.1 hk] at hkn
      exact hmn hkn

end

/-! ## Choosing the nodes -/

/-- New nodes for the parts of a group: one part is given, the others get node `m` only. -/
theorem exists_surrounding (c : Connective) (m : Node) (hq : q ∈ parts)
    (h : p.outline = q.outline) : ∃ parts',
      (group c parts').outline = (group c parts).outline ∧ p ∈ parts' ∧
      (∀ x ∈ parts', x = p ∨ ∃ y ∈ parts, x = y.mapNodes fun _ => m) ∧
      (2 ≤ parts.length → ∃ y ∈ parts, y.mapNodes (fun _ => m) ∈ parts') := by
  obtain ⟨pre, post, rfl⟩ := List.append_of_mem hq
  refine ⟨pre.map (mapNodes fun _ => m) ++ p :: post.map (mapNodes fun _ => m), ?_, by simp, ?_, ?_⟩
  · simp [outline_group, Function.comp_def, outline_mapNodes, h]
  · intro x hx
    simp only [List.mem_append, List.mem_cons, List.mem_map] at hx
    rcases hx with ⟨y, hy, rfl⟩ | rfl | ⟨y, hy, rfl⟩
    · exact .inr ⟨y, by simp [hy], rfl⟩
    · exact .inl rfl
    · exact .inr ⟨y, by simp [hy], rfl⟩
  · intro hlen
    have hne : pre ++ post ≠ [] := by
      intro hnil
      rw [List.append_eq_nil_iff] at hnil
      simp [hnil.1, hnil.2] at hlen
    obtain ⟨y, hy⟩ := List.exists_mem_of_ne_nil _ hne
    rcases List.mem_append.1 hy with hy | hy
    · exact ⟨y, by simp [hy], List.mem_append_left _ (List.mem_map_of_mem hy)⟩
    · refine ⟨y, by simp [hy], List.mem_append_right _ (List.mem_cons_of_mem p ?_)⟩
      exact List.mem_map_of_mem hy

section

variable (hmn : ¬ a.covers m n) (hnm : ¬ a.covers n m)

include hmn hnm

/-- A group with alternatives gets a fork. -/
theorem exists_fork_any (hr : (group .any parts).Gathered) :
    ∃ r', r'.outline = (group .any parts).outline ∧ ∃ t, simplify? a r' = some t ∧ Fork m n t := by
  obtain ⟨⟨hlen, -⟩, hparts⟩ := gathered_group.1 hr
  have hfilled : ∀ p ∈ parts, p.Filled := fun p hp => (hparts p hp).filled
  obtain ⟨p, hp⟩ := List.exists_mem_of_length_pos (Nat.lt_of_lt_of_le Nat.zero_lt_two hlen)
  obtain ⟨parts', hout, hmem, hothers, hother⟩ :=
    exists_surrounding .any m hp (outline_mapNodes (fun _ => n) p)
  have hsimp := simplify?_uniform a n (hfilled p hp)
  refine ⟨_, hout, fork_of_operands hmn hnm fun q => ?_⟩
  rw [mem_operands]
  refine ⟨fun h => ?_, fun h => ?_⟩
  · obtain ⟨x, hx, t, ht, hq⟩ := h
    obtain ⟨k, rfl, hk⟩ : ∃ k, t = .node k ∧ (k = m ∨ k = n) := by
      rcases hothers x hx with rfl | ⟨y, hy, rfl⟩
      · exact ⟨n, Option.some.inj (ht.symm.trans hsimp), .inr rfl⟩
      · have huniform := simplify?_uniform a m (hfilled y hy)
        exact ⟨m, Option.some.inj (ht.symm.trans huniform), .inl rfl⟩
    rcases hq with ⟨-, rfl⟩ | ⟨inner, hinner, -⟩
    · exact hk.imp (congrArg _) (congrArg _)
    · cases hinner
  · rcases h with rfl | rfl
    · obtain ⟨y, hy, hy'⟩ := hother hlen
      exact ⟨_, hy', _, simplify?_uniform a m (hfilled y hy), .inl ⟨nofun, rfl⟩⟩
    · exact ⟨_, hmem, _, hsimp, .inl ⟨nofun, rfl⟩⟩

/-- A group around a fork becomes one: under OR the other parts add node `m` to it, and under AND
they are dropped. -/
theorem exists_fork_group (hr : (group c parts).Gathered) (hq : q ∈ parts)
    (h : p.outline = q.outline) (hp : simplify? a p = some t) (ht : Fork m n t) :
    ∃ parts', (group c parts').outline = (group c parts).outline ∧ p ∈ parts' ∧
      (∀ x ∈ parts', x = p ∨ ∃ y ∈ parts, x = y.mapNodes fun _ => m) ∧
      (∃ y ∈ parts, y.mapNodes (fun _ => m) ∈ parts') ∧
      ∃ t, simplify? a (group c parts') = some t ∧ Fork m n t := by
  obtain ⟨⟨hlen, -⟩, hparts⟩ := gathered_group.1 hr
  have hfilled : ∀ p ∈ parts, p.Filled := fun p hp => (hparts p hp).filled
  obtain ⟨parts', hout, hmem, hothers, hother⟩ := exists_surrounding c m hq h
  refine ⟨parts', hout, hmem, hothers, hother hlen, ?_⟩
  have hfrom : ∀ x ∈ parts', ∀ u, simplify? a x = some u → u = t ∨ u = .node m := by
    intro x hx u hu
    rcases hothers x hx with rfl | ⟨y, hy, rfl⟩
    · exact .inl (Option.some.inj (hu.symm.trans hp))
    · exact .inr (Option.some.inj (hu.symm.trans (simplify?_uniform a m (hfilled y hy))))
  cases c with
  | all =>
    refine ⟨t, simplify?_fork hmn ht ?_ fun q hq => ?_, ht⟩
    · refine mem_operands.2 ⟨p, hmem, t, hp, .inl ⟨?_, rfl⟩⟩
      obtain ⟨ops, rfl, -⟩ := ht
      exact nofun
    · obtain ⟨x, hx, u, hu, ⟨-, rfl⟩ | ⟨inner, rfl, -⟩⟩ := mem_operands.1 hq
      · exact hfrom x hx q hu
      · obtain ⟨ops, rfl, -⟩ := ht
        rcases hfrom x hx _ hu with h | h <;> cases h
  | any =>
    obtain ⟨ops, rfl, hops⟩ := ht
    refine fork_of_operands hmn hnm fun q => ?_
    rw [← hops q, mem_operands]
    constructor
    · rintro ⟨x, hx, u, hu, ⟨hc, rfl⟩ | ⟨inner, rfl, hq⟩⟩
      · rcases hfrom x hx q hu with rfl | rfl
        · exact absurd rfl hc
        · exact (hops _).2 (.inl rfl)
      · rcases hfrom x hx _ hu with h | h
        · cases h
          exact hq
        · cases h
    · exact fun hq => ⟨p, hmem, _, hp, .inr ⟨ops, rfl, hq⟩⟩

/-- **Every other shape goes wrong somewhere.** Where an alternative lies below an AND, nodes can
be chosen so that `n` alone meets the simplified requirement and not the requirement. -/
theorem exists_fork (hr : r.Gathered) (hmixed : ¬ r.Alternatives) :
    ∃ r', r'.outline = r.outline ∧ (∃ t, simplify? a r' = some t ∧ Fork m n t) ∧
      ¬ r'.Holds (· = n) := by
  have hne : m ≠ n := fun e => hmn (e ▸ Ancestors.covers_self a m)
  induction r with
  | node k => exact absurd (alternatives_node k) hmixed
  | group c parts ih =>
    have hparts := (gathered_group.1 hr).2
    have hfails : ∀ y ∈ parts, ¬ (y.mapNodes fun _ => m).Holds (· = n) := fun y hy =>
      not_holds_uniform (hparts y hy).filled hne
    cases c with
    | all =>
      obtain ⟨p, hp, hpmixed⟩ : ∃ p ∈ parts, ¬ p.Joint := by
        by_contra hnone
        exact hmixed (alternatives_all.2 fun p hp => by_contra fun h => hnone ⟨p, hp, h⟩)
      obtain ⟨p', hout', t, ht, hfork⟩ :
          ∃ p', p'.outline = p.outline ∧ ∃ t, simplify? a p' = some t ∧ Fork m n t := by
        cases p with
        | node k => exact absurd (joint_node k) hpmixed
        | group d inner =>
          cases d with
          | all =>
            have hinner : ¬ (group .all inner).Alternatives := fun h =>
              hpmixed (joint_all.2 (alternatives_all.1 h))
            obtain ⟨p', hout', hsimp, -⟩ := ih _ hp (hparts _ hp) hinner
            exact ⟨p', hout', hsimp⟩
          | any => exact exists_fork_any hmn hnm (hparts _ hp)
      obtain ⟨parts', hout, -, -, ⟨y, hy, hy'⟩, hsimp⟩ :=
        exists_fork_group hmn hnm hr hp hout' ht hfork
      exact ⟨_, hout, hsimp, fun h => hfails y hy (holds_all.1 h _ hy')⟩
    | any =>
      obtain ⟨p, hp, hpmixed⟩ : ∃ p ∈ parts, ¬ p.Alternatives := by
        by_contra hnone
        exact hmixed (alternatives_any.2 fun p hp => by_contra fun h => hnone ⟨p, hp, h⟩)
      obtain ⟨p', hout', ⟨t, ht, hfork⟩, hfail⟩ := ih p hp (hparts p hp) hpmixed
      obtain ⟨parts', hout, -, hothers, -, hsimp⟩ :=
        exists_fork_group hmn hnm hr hp hout' ht hfork
      refine ⟨_, hout, hsimp, fun h => ?_⟩
      obtain ⟨x, hx, hxn⟩ := holds_any.1 h
      rcases hothers x hx with rfl | ⟨y, hy, rfl⟩
      · exact hfail hxn
      · exact hfails y hy hxn

end

end Prereq.Requirement
