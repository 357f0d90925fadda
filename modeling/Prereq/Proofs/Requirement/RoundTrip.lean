import Mathlib.Data.List.Basic
import Prereq.Proofs.Requirement.Levels

/-!
# Reading what was written

A canonical requirement is read back from its own text: a part of a group is one operand of the
level it stands in, and the parts of a group are appended one by one.

* `Requirement.Canonical.foldl_append` : appending parts one by one gives their group;
* `Reading.Level.read_part` : the tokens of a part are read as one operand;
* `Requirement.read?_render_of_tokens` : reading inverts writing, unless too deep a nesting is cut;
* `Requirement.Canonical.nesting_le_one` : alternatives hardly nest.
-/

namespace Prereq

namespace Requirement

variable {c : Connective} {p q r : Requirement} {parts : List Requirement}

/-! ## Appending -/

theorem foldl_append_group (c : Connective) (parts qs : List Requirement) :
    qs.foldl (append c) (group c parts) = group c (parts ++ qs) := by
  induction qs generalizing parts with
  | nil => rw [List.foldl_nil, List.append_nil]
  | cons q qs ih => rw [List.foldl_cons, append_group, ih, List.append_assoc, List.singleton_append]

/-- Appending the other parts of a canonical group to its first one gives the group. -/
theorem Canonical.foldl_append (hr : (group c (p :: parts)).Canonical) :
    parts.foldl (append c) p = group c (p :: parts) := by
  obtain ⟨hlen, hparts⟩ := canonical_group.1 hr
  cases parts with
  | nil => exact absurd hlen (by simp)
  | cons q qs =>
    rw [List.foldl_cons, append_of_ne (hparts p List.mem_cons_self).1, foldl_append_group]
    rfl

end Requirement

namespace Reading.Level

open Requirement

variable {c : Connective} {r : Requirement} {parts : List Requirement}

/-- The tokens of a group whose parts are read as one operand each. -/
theorem value_read_group (hr : (group c parts).Canonical)
    (h : ∀ q ∈ parts, ∀ l : Level, l.read (q.tokensIn (some c)) = l.operand (some q)) :
    (start.read (group c parts).tokens).value = some (group c parts) := by
  cases parts with
  | nil => cases (canonical_group.1 hr).1
  | cons p qs =>
    have hread := value_read_joinTokens (c := c) (g := id)
      (fun q _ => balanced_tokensIn q (some c)) fun q hq l _ => h q hq l
    rw [tokens_group, hread, List.map_id, id, hr.foldl_append]

/-- A part of a group is read as one operand: a node by itself, and a group of the other
connective within its parentheses. -/
theorem read_part (hr : r.Canonical) (hc : r.connective? ≠ some c) (l : Level) :
    l.read (r.tokensIn (some c)) = l.operand (some r) := by
  induction r generalizing c l with
  | node n => rfl
  | group d parts ih =>
    have hd : ¬ (some c).all (· = d) := by
      intro h
      have hcd : c = d := by simpa using h
      exact hc (by rw [hcd]; rfl)
    have hparts := (canonical_group.1 hr).2
    have hvalue := value_read_group hr fun q hq l => ih q hq (hparts q hq).2 (hparts q hq).1 l
    have hbalanced := balanced_tokens (group d parts)
    rw [tokens_group] at hvalue hbalanced
    rw [tokensIn_group, if_neg hd, read_parentheses hbalanced, hvalue]

theorem value_read_tokens (hr : r.Canonical) : (start.read r.tokens).value = some r := by
  cases r with
  | node n => rfl
  | group c parts =>
    have hparts := (canonical_group.1 hr).2
    exact value_read_group hr fun q hq => read_part (hparts q hq).2 (hparts q hq).1

end Reading.Level

namespace Requirement

theorem ofTokens?_tokens {r : Requirement} (hr : r.Canonical) : ofTokens? r.tokens = some r := by
  rw [Reading.value_read_balanced (balanced_tokens r), Reading.Level.value_read_tokens hr]

/-- Within the limit a text is read by its own tokens. -/
theorem read?_eq_ofTokens? {s : String} {r : Requirement} (hscan : Token.scan s.toList = r.tokens)
    (hdepth : Token.nesting r.tokens ≤ Token.nestingLimit) : read? s = ofTokens? r.tokens := by
  rw [read?, Token.ofText, hscan, Token.limitNesting_eq_self (balanced_tokens r) hdepth]

/-- A text with the tokens of a canonical requirement is read as that requirement. -/
theorem read?_of_scan {s : String} {r : Requirement} (hr : r.Canonical)
    (hscan : Token.scan s.toList = r.tokens)
    (hdepth : Token.nesting r.tokens ≤ Token.nestingLimit) :
    read? s = some r := by
  rw [read?_eq_ofTokens? hscan hdepth, ofTokens?_tokens hr]

theorem toList_render (r : Requirement) : (render (some r)).toList = r.chars :=
  String.toList_ofList

theorem scan_render (r : Requirement) : Token.scan (render (some r)).toList = r.tokens := by
  rw [toList_render, scan_chars]

theorem read?_render_of_tokens {r : Requirement} (hr : r.Canonical)
    (hdepth : Token.nesting r.tokens ≤ Token.nestingLimit) : read? (render (some r)) = some r :=
  read?_of_scan hr (scan_render r) hdepth

theorem nesting_chars (r : Requirement) : Text.nesting r.chars = Token.nesting r.tokens := by
  rw [← Token.nesting_scan, scan_chars]

/-- **Reading inverts writing.** A canonical requirement whose text nests parentheses no deeper
than they count is read back from it. -/
theorem read?_render (r : Requirement) (hr : r.Canonical)
    (hdepth : Text.nesting r.chars ≤ Token.nestingLimit) : read? (render (some r)) = some r :=
  read?_render_of_tokens hr (nesting_chars r ▸ hdepth)

/-- An alternative within what is needed, itself an alternative. -/
def alternating : Requirement :=
  .group .any [.node 0, .group .all [.node 1, .group .any [.node 2, .node 18446744073709551615]]]

theorem read?_render_alternating : alternating.Canonical ∧
    Text.nesting alternating.chars ≤ Token.nestingLimit ∧
    read? (render (some alternating)) = some alternating := by
  have canonical : alternating.Canonical := by
    simp [alternating, canonical_group, canonical_node, connective?]
  have depth : Text.nesting alternating.chars ≤ Token.nestingLimit := by decide +kernel
  exact ⟨canonical, depth, read?_render alternating canonical depth⟩

/-! ## The nodes of what is written -/

theorem nodes_joinTokens (c : Connective) (parts : List (List Token)) :
    Token.nodes (joinTokens c parts) = parts.flatMap Token.nodes := by
  cases parts with
  | nil => rfl
  | cons x parts =>
    rw [joinTokens_cons, Token.nodes_append, List.flatMap_cons]
    exact congrArg (Token.nodes x ++ ·) List.filterMap_flatMap

theorem nodes_tokensIn (r : Requirement) (context : Option Connective) :
    Token.nodes (r.tokensIn context) = r.leaves := by
  induction r generalizing context with
  | node n => rfl
  | group c parts ih =>
    have hparts : Token.nodes (joinTokens c (parts.map (tokensIn · (some c)))) =
        (group c parts).leaves := by
      rw [nodes_joinTokens, List.flatMap_map, leaves_group]
      exact List.flatMap_congr fun p hp => ih p hp (some c)
    rw [tokensIn_group]
    split
    · exact hparts
    · show Token.nodes (joinTokens c (parts.map (tokensIn · (some c))) ++ [Token.closing]) = _
      rw [Token.nodes_append, hparts]
      exact List.append_nil _

/-! ## Alternatives hardly nest -/

/-- In a canonical requirement without alternatives no group stands within a group. -/
theorem Canonical.exists_node (hr : (group .all parts).Canonical)
    (hjoint : (group .all parts).Joint) (hp : p ∈ parts) : ∃ n, p = .node n := by
  have hc := ((canonical_group.1 hr).2 p hp).1
  cases p with
  | node n => exact ⟨n, rfl⟩
  | group d inner =>
    cases d with
    | all => exact absurd rfl hc
    | any => exact absurd (joint_all.1 hjoint _ hp) not_joint_any

theorem Canonical.nestingFrom_all (hr : (group .all parts).Canonical)
    (hjoint : (group .all parts).Joint) (depth : Nat) :
    Token.nestingFrom depth (joinTokens .all (parts.map (tokensIn · (some .all)))) = 0 := by
  refine Nat.le_zero.1 (nestingFrom_joinTokens_le fun x hx => ?_)
  obtain ⟨p, hp, rfl⟩ := List.mem_map.1 hx
  obtain ⟨n, rfl⟩ := hr.exists_node hjoint hp
  exact ⟨Token.Balanced.nil.node n, Nat.le_refl 0⟩

theorem Canonical.nesting_le_one {r : Requirement} (hr : r.Canonical) (h : r.Alternatives) :
    Token.nesting r.tokens ≤ 1 := by
  cases r with
  | node n => exact Nat.zero_le 1
  | group c parts =>
    rw [tokens_group]
    cases c with
    | all =>
      have hjoint : (group .all parts).Joint := joint_all.2 (alternatives_all.1 h)
      have hzero := hr.nestingFrom_all hjoint 0
      unfold Token.nesting
      omega
    | any =>
      refine nestingFrom_joinTokens_le fun x hx => ?_
      obtain ⟨p, hp, rfl⟩ := List.mem_map.1 hx
      obtain ⟨hc, hp'⟩ := (canonical_group.1 hr).2 p hp
      refine ⟨balanced_tokensIn p _, ?_⟩
      have hjoint := (alternatives_any.1 h p hp).joint hc
      cases p with
      | node n => exact Nat.zero_le 1
      | group d inner =>
        cases d with
        | any => exact absurd rfl hc
        | all =>
          have hbalanced := balanced_tokensIn (group .all inner) (some .all)
          have hzero := hp'.nestingFrom_all hjoint 1
          rw [tokensIn_group, if_pos (by rfl)] at hbalanced
          rw [tokensIn_group, if_neg (by simp), List.cons_append, Token.nestingFrom,
            hbalanced.nestingFrom_append, hzero]
          exact Nat.le_refl 1

/-- Alternatives are read back whatever the number of their parts. -/
theorem Canonical.read?_render_alternatives {r : Requirement} (hr : r.Canonical)
    (h : r.Alternatives) : read? (render (some r)) = some r :=
  read?_render_of_tokens hr (Nat.le_trans (hr.nesting_le_one h) (by decide))

end Requirement

end Prereq
