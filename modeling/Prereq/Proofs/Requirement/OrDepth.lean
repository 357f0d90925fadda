import Prereq.Proofs.Requirement.NormalForm
import Prereq.Proofs.Requirement.Reading
import Prereq.Proofs.Requirement.Written

/-!
# How deep alternatives stand

Parentheses around an OR keep it apart from what is needed with it. Those around what is needed
jointly only show what AND binds anyway.

* `Token.orDepth` : the greatest number of groups that are open around an OR;
* `Requirement.orDepthFrom_tokens_group_le` : that number for a group, by its parts;
* `Requirement.Joint.orDepthFrom_tokens`, `Requirement.Alternatives.orDepthFrom_tokensIn_le` : no
  OR, and no OR in parentheses;
* `Requirement.orDepthFrom_simplify?_le` : simplification puts no OR deeper.
-/

namespace Prereq

namespace Token

/-- The greatest number of groups that are open around an OR in the rest of the tokens; 0 without
one. -/
def orDepthFrom : (depth : Nat) → List Token → Nat
  | _, [] => 0
  | depth, .opening :: ts => orDepthFrom (depth + 1) ts
  | depth, .closing :: ts => orDepthFrom (depth - 1) ts
  | depth, .connective .all :: ts => orDepthFrom depth ts
  | depth, .connective .any :: ts => max depth (orDepthFrom depth ts)
  | depth, .node _ :: ts => orDepthFrom depth ts

/-- The greatest number of groups that are open around an OR. -/
def orDepth (ts : List Token) : Nat := orDepthFrom 0 ts

variable {ts : List Token}

theorem orDepthFrom_mono {d e : Nat} (h : d ≤ e) (ts : List Token) :
    orDepthFrom d ts ≤ orDepthFrom e ts := by
  induction ts generalizing d e with
  | nil => exact Nat.le_refl 0
  | cons t ts ih =>
    cases t with
    | opening => exact ih (Nat.succ_le_succ h)
    | closing => exact ih (Nat.sub_le_sub_right h 1)
    | node n => exact ih h
    | connective c =>
      cases c with
      | all => exact ih h
      | any =>
        have hrest := ih h
        rw [orDepthFrom, orDepthFrom]
        omega

theorem Balanced.orDepthFrom_append (h : Balanced ts) (depth : Nat) (us : List Token) :
    orDepthFrom depth (ts ++ us) = max (orDepthFrom depth ts) (orDepthFrom depth us) := by
  induction h generalizing depth us with
  | nil => rw [List.nil_append, orDepthFrom, Nat.zero_max]
  | connective c _ ih =>
    cases c with
    | all => exact ih depth us
    | any => rw [List.cons_append, orDepthFrom, orDepthFrom, ih, Nat.max_assoc]
  | node n _ ih => exact ih depth us
  | @group ts ts' _ _ ihts ihts' =>
    have hclose : ∀ vs, orDepthFrom (depth + 1) (.closing :: vs) = orDepthFrom depth vs :=
      fun _ => rfl
    rw [List.cons_append, List.append_assoc, List.cons_append, orDepthFrom, orDepthFrom, ihts, ihts,
      hclose, hclose, ihts', Nat.max_assoc]

theorem orDepthFrom_parentheses (h : Balanced ts) (depth : Nat) :
    orDepthFrom depth (.opening :: ts ++ [.closing]) = orDepthFrom (depth + 1) ts := by
  rw [List.cons_append, orDepthFrom, h.orDepthFrom_append]
  exact Nat.max_zero _

end Token

namespace Requirement

open Token (orDepthFrom orDepthFrom_mono)

variable {a : Ancestors} {c : Connective} {d k : Nat} {p r t : Requirement}
  {parts : List Requirement}

/-! ## Groups -/

theorem orDepthFrom_joinTokens_le {xs : List (List Token)} (balanced : ∀ x ∈ xs, Token.Balanced x) :
    orDepthFrom d (joinTokens c xs) ≤ k ↔
      (∀ x ∈ xs, orDepthFrom d x ≤ k) ∧ (c = .any → 2 ≤ xs.length → d ≤ k) := by
  induction xs with
  | nil => simp [joinTokens, List.intercalate, orDepthFrom]
  | cons x xs ih =>
    obtain ⟨hx, hxs⟩ := List.forall_mem_cons.1 balanced
    cases xs with
    | nil => simp [joinTokens_singleton]
    | cons y ys =>
      rw [joinTokens_cons_cons, hx.orDepthFrom_append, Nat.max_le]
      cases c with
      | all => simp [orDepthFrom, ih hxs]
      | any =>
        rw [orDepthFrom, Nat.max_le, ih hxs, List.forall_mem_cons (l := y :: ys)]
        constructor
        · rintro ⟨hle, hd, hles, -⟩
          exact ⟨⟨hle, hles⟩, fun _ _ => hd⟩
        · rintro ⟨⟨hle, hles⟩, hd⟩
          have hd := hd rfl (Nat.le_add_left 2 _)
          exact ⟨hle, hd, hles, fun _ _ => hd⟩

theorem orDepthFrom_tokens_group_le : orDepthFrom d (group c parts).tokens ≤ k ↔
    (∀ p ∈ parts, orDepthFrom d (p.tokensIn (some c)) ≤ k) ∧
      (c = .any → 2 ≤ parts.length → d ≤ k) := by
  have balanced : ∀ x ∈ parts.map (tokensIn · (some c)), Token.Balanced x :=
    List.forall_mem_map.2 fun p _ => balanced_tokensIn p (some c)
  rw [tokens_group, orDepthFrom_joinTokens_le balanced, List.forall_mem_map, List.length_map]

theorem orDepthFrom_part_le (hp : p ∈ parts) :
    orDepthFrom d (p.tokensIn (some c)) ≤ orDepthFrom d (group c parts).tokens :=
  (orDepthFrom_tokens_group_le.1 (Nat.le_refl _)).1 p hp

theorem tokensIn_of_eq (h : p.connective? = some c) : p.tokensIn (some c) = p.tokens := by
  obtain ⟨parts, rfl⟩ := exists_eq_group h
  rw [tokensIn_group, if_pos (by simp), tokens_group]

theorem tokensIn_group_of_ne {b : Connective} (h : b ≠ c) :
    (group c parts).tokensIn (some b) = .opening :: (group c parts).tokens ++ [.closing] := by
  rw [tokensIn_group, if_neg (by simpa using h), tokens_group]

/-- A group within a group of the other connective stands one deeper. -/
theorem orDepthFrom_tokensIn_of_ne (h : p.connective? ≠ some c) :
    orDepthFrom d (p.tokensIn (some c)) = orDepthFrom (d + 1) p.tokens := by
  cases p with
  | node n => rfl
  | group b parts =>
    have hcb : c ≠ b := fun e => h (e ▸ rfl)
    rw [tokensIn_group_of_ne hcb, Token.orDepthFrom_parentheses (balanced_tokens _)]

theorem orDepthFrom_tokens_le (r : Requirement) (c : Connective) :
    orDepthFrom d r.tokens ≤ orDepthFrom d (r.tokensIn (some c)) := by
  by_cases h : r.connective? = some c
  · exact Nat.le_of_eq (by rw [tokensIn_of_eq h])
  · rw [orDepthFrom_tokensIn_of_ne h]
    exact orDepthFrom_mono (Nat.le_succ d) _

theorem orDepthFrom_tokensIn_le (r : Requirement) (c : Connective) :
    orDepthFrom d (r.tokensIn (some c)) ≤ orDepthFrom (d + 1) r.tokens := by
  by_cases h : r.connective? = some c
  · rw [tokensIn_of_eq h]
    exact orDepthFrom_mono (Nat.le_succ d) _
  · exact Nat.le_of_eq (orDepthFrom_tokensIn_of_ne h)

/-! ## Alternatives -/

theorem Joint.orDepthFrom_tokens (h : r.Joint) (d : Nat) : orDepthFrom d r.tokens = 0 := by
  induction r generalizing d with
  | node n => rfl
  | group c parts ih =>
    cases c with
    | any => exact absurd h not_joint_any
    | all =>
      refine Nat.le_zero.1 (orDepthFrom_tokens_group_le.2 ⟨fun p hp => ?_, nofun⟩)
      have hp0 := ih p hp (joint_all.1 h p hp) (d + 1)
      exact Nat.le_trans (orDepthFrom_tokensIn_le p .all) (Nat.le_of_eq hp0)

theorem Alternatives.orDepthFrom_tokensIn_le (h : r.Alternatives) :
    orDepthFrom d (r.tokensIn (some .any)) ≤ d := by
  induction r with
  | node n => exact Nat.zero_le d
  | group c parts ih =>
    cases c with
    | all =>
      rw [orDepthFrom_tokensIn_of_ne (by simp),
        (h.joint (by simp)).orDepthFrom_tokens]
      exact Nat.zero_le d
    | any =>
      rw [tokensIn_of_eq rfl, orDepthFrom_tokens_group_le]
      exact ⟨fun p hp => ih p hp (alternatives_any.1 h p hp), fun _ _ => Nat.le_refl d⟩

/-! ## Simplification -/

/-- What stands in a group once its parts are simplified stood there before, at least as deep. -/
theorem orDepthFrom_operands_le {q : Requirement}
    (ih : ∀ p ∈ parts, ∀ t, simplify? a p = some t →
      orDepthFrom d (t.tokensIn (some c)) ≤ orDepthFrom d (p.tokensIn (some c)))
    (hq : q ∈ operands a c parts) :
    orDepthFrom d (q.tokensIn (some c)) ≤ orDepthFrom d (group c parts).tokens := by
  obtain ⟨p, hp, t, hpt, hqt⟩ := mem_operands.1 hq
  have hle := Nat.le_trans (ih p hp t hpt) (orDepthFrom_part_le hp)
  rcases hqt with ⟨-, rfl⟩ | ⟨inner, rfl, hq⟩
  · exact hle
  · rw [tokensIn_of_eq rfl] at hle
    exact Nat.le_trans (orDepthFrom_part_le hq) hle

theorem orDepthFrom_simplify?_tokensIn_le (hr : r.Gathered) (h : simplify? a r = some t)
    (b : Connective) (d : Nat) :
    orDepthFrom d (t.tokensIn (some b)) ≤ orDepthFrom d (r.tokensIn (some b)) := by
  induction r generalizing t b d with
  | node n =>
    cases h
    exact Nat.le_refl _
  | group c parts ih =>
    obtain ⟨⟨hlen, -⟩, hparts⟩ := gathered_group.1 hr
    have hoperands : ∀ d, ∀ q ∈ operands a c parts,
        orDepthFrom d (q.tokensIn (some c)) ≤ orDepthFrom d (group c parts).tokens := fun d q hq =>
      orDepthFrom_operands_le (fun p hp t hpt => ih p hp (hparts p hp) hpt c d) hq
    rw [simplify?_group_eq] at h
    rcases ofParts?_eq_some_iff.1 h with hone | ⟨-, rfl⟩
    · -- One part is left, which stood in the group within parentheses.
      have ht : t ∈ operands a c parts := mem_of_mem_survivors (hone ▸ List.mem_singleton_self t)
      calc orDepthFrom d (t.tokensIn (some b))
          ≤ orDepthFrom (d + 1) t.tokens := orDepthFrom_tokensIn_le t b
        _ = orDepthFrom d (t.tokensIn (some c)) :=
            (orDepthFrom_tokensIn_of_ne (canonical_of_mem_operands' ht).1).symm
        _ ≤ orDepthFrom d (group c parts).tokens := hoperands d t ht
        _ ≤ orDepthFrom d ((group c parts).tokensIn (some b)) := orDepthFrom_tokens_le _ b
    · -- The group itself is left, with some of its parts.
      have hgroup : ∀ d, orDepthFrom d
          (group c (survivors (c.redundant a) [] (operands a c parts))).tokens ≤
            orDepthFrom d (group c parts).tokens := fun d =>
        orDepthFrom_tokens_group_le.2 ⟨fun q hq => hoperands d q (mem_of_mem_survivors hq),
          fun hc _ => (orDepthFrom_tokens_group_le.1 (Nat.le_refl _)).2 hc hlen⟩
      by_cases hcb : c = b
      · subst hcb
        rw [tokensIn_of_eq rfl, tokensIn_of_eq rfl]
        exact hgroup d
      · have hne : ∀ qs, (group c qs).connective? ≠ some b := fun _ e => hcb (Option.some.inj e)
        rw [orDepthFrom_tokensIn_of_ne (hne _), orDepthFrom_tokensIn_of_ne (hne _)]
        exact hgroup (d + 1)

/-- **Simplification puts no OR deeper** into parentheses than it stood. -/
theorem orDepthFrom_simplify?_le (hr : r.Gathered) (h : simplify? a r = some t) (d : Nat) :
    orDepthFrom d t.tokens ≤ orDepthFrom d r.tokens := by
  cases r with
  | node n =>
    cases h
    exact Nat.le_refl _
  | group c parts =>
    have hle := orDepthFrom_simplify?_tokensIn_le hr h c d
    rw [tokensIn_of_eq (p := group c parts) rfl] at hle
    exact Nat.le_trans (orDepthFrom_tokens_le t c) hle

end Requirement

end Prereq
