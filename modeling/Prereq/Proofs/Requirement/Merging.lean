import Prereq.Proofs.Requirement.NormalForm
import Prereq.Proofs.Requirement.RoundTrip

/-!
# Groups that merge when they are read back

A group within a group of its own connective is written without parentheses, so that reading the
text merges the two. Written once more, nothing has changed: a text shows the tokens of a requirement
and no more.

* `Requirement.merge` : a requirement with such groups merged;
* `Requirement.tokensIn_merge`, `Requirement.canonical_merge` : it has the same tokens, and is read
  from them (`Requirement.ofTokens?_tokens_merge`);
* `Requirement.chars_eq_flatMap` : a requirement is written token by token, so that one with the same
  tokens has the same text (`Requirement.render_congr`).
-/

namespace Prereq

namespace Requirement

variable {c : Connective} {r : Requirement} {parts : List Requirement}

/-- Merge each group with the group around it if the two have one connective. -/
def merge : Requirement → Requirement := fold .node fun c parts => group c (splice c parts)

theorem merge_group (c : Connective) (parts : List Requirement) :
    (group c parts).merge = group c (splice c (parts.map merge)) := fold_group _ _ c parts

/-! ## Single parts -/

theorem splice_eq_flatMap (c : Connective) (parts : List Requirement) :
    splice c parts = parts.flatMap fun p => splice c [p] := by
  simp [splice]

theorem splice_group_singleton (c : Connective) (inner : List Requirement) :
    splice c [group c inner] = inner := by
  simp [splice]

theorem splice_singleton_ne_nil {p : Requirement} (h : p ≠ group c []) : splice c [p] ≠ [] := by
  by_cases hc : p.connective? = some c
  · obtain ⟨inner, rfl⟩ := exists_eq_group hc
    rw [splice_group_singleton]
    rintro rfl
    exact h rfl
  · rw [splice_cons_of_ne hc]
    exact List.cons_ne_nil _ _

/-! ## The tokens of merged groups -/

theorem flatMap_connective (c : Connective) {xs : List (List Token)} (h : xs ≠ []) :
    xs.flatMap (.connective c :: ·) = .connective c :: joinTokens c xs := by
  cases xs with
  | nil => exact absurd rfl h
  | cons x xs => rw [joinTokens_cons, List.flatMap_cons, List.cons_append]

/-- Parts that are made of smaller ones may be joined at once. -/
theorem joinTokens_flatMap {α : Type u} {f : α → List (List Token)} {xs : List α}
    (h : ∀ x ∈ xs, f x ≠ []) :
    joinTokens c (xs.flatMap f) = joinTokens c (xs.map fun x => joinTokens c (f x)) := by
  by_cases hxs : xs = []
  · rw [hxs, List.flatMap_nil, List.map_nil]
  have hjoined : xs.flatMap f ≠ [] := by
    obtain ⟨x, hx⟩ := List.exists_mem_of_ne_nil xs hxs
    exact fun hnil => h x hx (List.flatMap_eq_nil_iff.1 hnil x hx)
  have hmap : (xs.map fun x => joinTokens c (f x)) ≠ [] := by
    rwa [ne_eq, List.map_eq_nil_iff]
  refine List.cons_injective (a := Token.connective c) ?_
  calc Token.connective c :: joinTokens c (xs.flatMap f)
      = xs.flatMap fun x => (f x).flatMap (.connective c :: ·) := by
        rw [← flatMap_connective c hjoined, List.flatMap_assoc]
    _ = xs.flatMap fun x => .connective c :: joinTokens c (f x) :=
        List.flatMap_congr fun x hx => flatMap_connective c (h x hx)
    _ = Token.connective c :: joinTokens c (xs.map fun x => joinTokens c (f x)) := by
        rw [← flatMap_connective c hmap, List.flatMap_map]

theorem joinTokens_splice_singleton (c : Connective) (p : Requirement) :
    joinTokens c ((splice c [p]).map (tokensIn · (some c))) = p.tokensIn (some c) := by
  by_cases hc : p.connective? = some c
  · obtain ⟨inner, rfl⟩ := exists_eq_group hc
    rw [splice_group_singleton, tokensIn_group, if_pos (by simp)]
  · rw [splice_cons_of_ne hc]
    exact joinTokens_singleton c _

theorem joinTokens_splice (h : ∀ p ∈ parts, p ≠ group c []) :
    joinTokens c ((splice c parts).map (tokensIn · (some c))) =
      joinTokens c (parts.map (tokensIn · (some c))) := by
  rw [splice_eq_flatMap, List.map_flatMap, joinTokens_flatMap]
  · exact congrArg (joinTokens c) (List.map_congr_left fun p _ => joinTokens_splice_singleton c p)
  · intro p hp hnil
    exact splice_singleton_ne_nil (h p hp) (List.map_eq_nil_iff.1 hnil)

/-! ## Merged requirements -/

theorem length_le_length_splice (h : ∀ p ∈ parts, p ≠ group c []) :
    parts.length ≤ (splice c parts).length := by
  induction parts with
  | nil => exact Nat.zero_le _
  | cons p parts ih =>
    obtain ⟨hp, hparts⟩ := List.forall_mem_cons.1 h
    have hfirst : 0 < (splice c [p]).length := List.length_pos_iff.2 (splice_singleton_ne_nil hp)
    have hrest := ih hparts
    rw [splice_eq_flatMap] at hrest
    rw [splice_eq_flatMap, List.flatMap_cons, List.length_append, List.length_cons]
    omega

theorem Canonical.ne_group_nil (h : r.Canonical) (c : Connective) : r ≠ group c [] := by
  rintro rfl
  exact absurd (canonical_group.1 h).1 (by decide)

theorem canonical_splice (hlen : 2 ≤ parts.length) (h : ∀ p ∈ parts, p.Canonical) :
    (group c (splice c parts)).Canonical := by
  have hsplice := length_le_length_splice fun p hp => (h p hp).ne_group_nil c
  refine canonical_group.2 ⟨Nat.le_trans hlen hsplice, fun q hq => ?_⟩
  obtain ⟨p, hp, ⟨hc, rfl⟩ | ⟨inner, rfl, hq⟩⟩ := mem_splice.1 hq
  · exact ⟨hc, h q hp⟩
  · exact (canonical_group.1 (h _ hp)).2 q hq

theorem canonical_merge (h : r.Gathered) : r.merge.Canonical := by
  induction r with
  | node n => exact canonical_node n
  | group c parts ih =>
    obtain ⟨⟨hlen, -⟩, hparts⟩ := gathered_group.1 h
    rw [merge_group]
    exact canonical_splice (by rwa [List.length_map])
      (List.forall_mem_map.2 fun p hp => ih p hp (hparts p hp))

theorem tokensIn_merge (h : r.Gathered) (context : Option Connective) :
    r.merge.tokensIn context = r.tokensIn context := by
  induction r generalizing context with
  | node n => rfl
  | group c parts ih =>
    obtain ⟨-, hparts⟩ := gathered_group.1 h
    have hfilled : ∀ p ∈ parts.map merge, p ≠ group c [] :=
      List.forall_mem_map.2 fun p hp => (canonical_merge (hparts p hp)).ne_group_nil c
    have hsame : (parts.map merge).map (tokensIn · (some c)) =
        parts.map (tokensIn · (some c)) := by
      rw [List.map_map]
      exact List.map_congr_left fun p hp => ih p hp (hparts p hp) (some c)
    rw [merge_group, tokensIn_group, tokensIn_group, joinTokens_splice hfilled, hsame]

/-- From its tokens a requirement is read with its groups merged. -/
theorem ofTokens?_tokens_merge (h : r.Gathered) : ofTokens? r.tokens = some r.merge := by
  have htokens : r.merge.tokens = r.tokens := tokensIn_merge h none
  rw [← htokens, ofTokens?_tokens (canonical_merge h)]

end Requirement

/-! ## Writing token by token -/

/-- A token as it stands in the text of a requirement, a keyword with its blanks. -/
def Token.written : Token → List Char
  | .opening => ['(']
  | .closing => [')']
  | .connective c => c.separator
  | .node n => n.digits

namespace Requirement

theorem flatMap_written_joinTokens (c : Connective) (xs : List (List Token)) :
    (joinTokens c xs).flatMap Token.written =
      joinParts c (xs.map fun x => x.flatMap Token.written) := by
  induction xs with
  | nil => rfl
  | cons x xs ih =>
    cases xs with
    | nil => simp [joinTokens_singleton, joinParts, List.intercalate]
    | cons y xs =>
      rw [joinTokens_cons_cons, List.flatMap_append, List.flatMap_cons, ih, List.map_cons,
        List.map_cons, List.map_cons, joinParts_cons_cons]
      simp [Token.written, Connective.separator]

theorem charsIn_eq_flatMap (r : Requirement) (context : Option Connective) :
    r.charsIn context = (r.tokensIn context).flatMap Token.written := by
  induction r generalizing context with
  | node n => exact (List.append_nil _).symm
  | group c parts ih =>
    have hparts : parts.map (charsIn · (some c)) =
        (parts.map (tokensIn · (some c))).map fun x => x.flatMap Token.written := by
      rw [List.map_map]
      exact List.map_congr_left fun p hp => ih p hp (some c)
    rw [charsIn_group, tokensIn_group, hparts, ← flatMap_written_joinTokens]
    split
    · rfl
    · rw [List.flatMap_append, List.flatMap_cons]
      rfl

theorem chars_eq_flatMap (r : Requirement) : r.chars = r.tokens.flatMap Token.written :=
  charsIn_eq_flatMap r none

/-- Requirements with the same tokens have the same text. -/
theorem render_congr {x y : Requirement} (h : x.tokens = y.tokens) : render (some x) = render (some y) := by
  rw [render, render, Option.map_some, Option.map_some, chars_eq_flatMap, h, chars_eq_flatMap]

end Requirement

end Prereq
