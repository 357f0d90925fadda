import Prereq.Proofs.Mentions
import Prereq.Proofs.Requirement.Expansion
import Prereq.Proofs.Requirement.Merging

/-!
# Putting one node for another

The text of a renumbered requirement is read back as another tree, in which groups of one connective
may have merged. Its pathways are those of the requirement all the same, and other nodes in a
requirement are other nodes in its pathways.

* `Requirement.pathways_mapNodes` : the pathways of a requirement with other nodes;
* `Requirement.tokensIn_mapNodes`, `Requirement.nesting_mapNodes` : its tokens, and how deep they
  nest;
* `pathways_renameNode` : the pathways of a text in which one node is put for another;
* `renameNode_renameNode` : two replacements in a row, the first of which puts in a new node.
-/

namespace Prereq

/-! ## Pathways -/

namespace Requirement

theorem pathways_mapNodes (f : Node → Node) (r : Requirement) :
    (r.mapNodes f).pathways = r.pathways.map (List.map f) := by
  induction r with
  | node n => rfl
  | group c parts ih =>
    rw [mapNodes_group]
    induction parts with
    | nil => rw [List.map_nil, pathways_group_nil, List.map_nil]
    | cons p parts ihparts =>
      obtain ⟨hp, hparts⟩ := List.forall_mem_cons.1 ih
      rw [List.map_cons, pathways_group_cons, pathways_group_cons,
        Pathway.map_combine fun _ _ => List.map_append, hp, ihparts hparts]

end Requirement

/-! ## Tokens -/

namespace Token

variable (f : Node → Node)

/-- Other nodes nest as deep. -/
theorem nestingFrom_map (depth : Nat) (ts : List Token) :
    nestingFrom depth (ts.map (mapNode f)) = nestingFrom depth ts := by
  induction ts generalizing depth with
  | nil => rfl
  | cons t ts ih =>
    cases t with
    | opening => exact congrArg (max (depth + 1)) (ih (depth + 1))
    | closing => exact ih (depth - 1)
    | connective c => exact ih depth
    | node n => exact ih depth

end Token

namespace Requirement

variable (f : Node → Node)

theorem map_joinTokens (c : Connective) (parts : List (List Token)) :
    (joinTokens c parts).map (Token.mapNode f) =
      joinTokens c (parts.map (List.map (Token.mapNode f))) := by
  cases parts with
  | nil => rfl
  | cons x parts =>
    rw [List.map_cons, joinTokens_cons, joinTokens_cons, List.map_append, List.map_flatMap,
      List.flatMap_map]
    rfl

theorem tokensIn_mapNodes (r : Requirement) (context : Option Connective) :
    (r.mapNodes f).tokensIn context = (r.tokensIn context).map (Token.mapNode f) := by
  induction r generalizing context with
  | node n => rfl
  | group c parts ih =>
    have hparts : (parts.map (mapNodes f)).map (tokensIn · (some c)) =
        (parts.map (tokensIn · (some c))).map (List.map (Token.mapNode f)) := by
      rw [List.map_map, List.map_map]
      exact List.map_congr_left fun p hp => ih p hp (some c)
    rw [mapNodes_group, tokensIn_group, tokensIn_group, hparts, ← map_joinTokens]
    split
    · rfl
    · rw [List.map_append, List.map_cons]
      rfl

/-- Parentheses stand where they stood. -/
theorem nesting_mapNodes (r : Requirement) :
    Text.nesting (r.mapNodes f).chars = Text.nesting r.chars := by
  have htokens : (r.mapNodes f).tokens = r.tokens.map (Token.mapNode f) :=
    tokensIn_mapNodes f r none
  rw [nesting_chars, nesting_chars, htokens]
  exact Token.nestingFrom_map f 0 r.tokens

end Requirement

/-! ## Texts -/

open Requirement (read? render pathwaysOf leavesOf)

/-- **Putting one node for another puts it in the pathways, and changes nothing else.** The pathways
stay in their order, those that become equal included, if the parentheses that are written for the
text nest no deeper than they count. -/
theorem pathways_renameNode (s : String) (old new : Node)
    (hdepth : Text.nesting (render (read? s)).toList ≤ Token.nestingLimit) :
    pathwaysOf (read? (renameNode old new s)) =
      (pathwaysOf (read? s)).map (List.map fun n => if n = old then new else n) := by
  cases hs : read? s with
  | none => rw [renameNode_of_read?_eq_none hs, read?_ite_isBlank hs]; rfl
  | some r =>
    rw [hs, Requirement.toList_render] at hdepth
    rw [← Requirement.nesting_mapNodes fun n => if n = old then new else n] at hdepth
    rw [renameNode_of_read? hs, (Requirement.pathways_read?_render _ hdepth).1]
    exact Requirement.pathways_mapNodes _ r

/-- Node 2 is in the text before it is put for node 1, and groups under AND merge. -/
theorem pathways_renameNode_merging :
    Text.nesting (render (read? "3 (01 OR 2, (1 a4))")).toList ≤ Token.nestingLimit ∧
    pathwaysOf (read? (renameNode 1 2 "3 (01 OR 2, (1 a4))")) = [[3, 2], [3, 2, 2, 4]] := by
  have hdepth : Text.nesting (render (read? "3 (01 OR 2, (1 a4))")).toList ≤ Token.nestingLimit := by
    decide +kernel
  have hbefore : pathwaysOf (read? "3 (01 OR 2, (1 a4))") = [[3, 1], [3, 2, 1, 4]] := by
    decide +kernel
  refine ⟨hdepth, ?_⟩
  rw [pathways_renameNode _ 1 2 hdepth, hbefore]
  rfl

/-! ## Replacing twice -/

/-- In the text that is written, the groups have merged. -/
theorem read?_renameNode {s : String} {r : Requirement} (hs : read? s = some r)
    (hdepth : Text.nesting r.chars ≤ Token.nestingLimit) (old new : Node) :
    read? (renameNode old new s) = some (r.merge.mapNodes fun n => if n = old then new else n) := by
  have htokens := Requirement.tokensIn_mapNodes (fun n => if n = old then new else n) r none
  rw [← Requirement.nesting_mapNodes fun n => if n = old then new else n,
    Requirement.nesting_chars] at hdepth
  rw [renameNode_of_read? hs, Requirement.read?_eq_ofTokens? (Requirement.scan_render _) hdepth,
    Requirement.tokens, htokens, Requirement.ofTokens?_map]
  exact congrArg (Option.map _) (Requirement.ofTokens?_tokens_merge (Requirement.gathered_of_read? hs))

/-- A node that stands for `a` and nothing else may be replaced in turn. -/
theorem renameNode_renameNode_of_read? {s : String} {r : Requirement} (hs : read? s = some r)
    (hdepth : Text.nesting r.chars ≤ Token.nestingLimit) {b : Node} (fresh : b ∉ r.leaves)
    (a c : Node) : renameNode b c (renameNode a b s) = renameNode a c s := by
  have hmerge := Requirement.tokensIn_merge (Requirement.gathered_of_read? hs) none
  rw [renameNode_of_read? (read?_renameNode hs hdepth a b), renameNode_of_read? hs]
  apply Requirement.render_congr
  rw [Requirement.tokens, Requirement.tokensIn_mapNodes, Requirement.tokensIn_mapNodes, hmerge,
    List.map_map, Requirement.tokens, Requirement.tokensIn_mapNodes]
  apply List.map_congr_left
  intro t ht
  cases t with
  | opening => rfl
  | closing => rfl
  | connective d => rfl
  | node n =>
    have hn : n ∈ r.leaves := by
      rw [← Requirement.nodes_tokensIn r none]
      exact List.mem_filterMap.2 ⟨.node n, ht, rfl⟩
    have hne : n ≠ b := by
      rintro rfl
      exact fresh hn
    by_cases hna : n = a <;> simp [Token.mapNode, hna, hne]

/-- A text that holds no requirement has settled after the first replacement. -/
theorem renameNode_renameNode_of_read?_eq_none {s : String} (hs : read? s = none) (a b c : Node) :
    renameNode b c (renameNode a b s) = renameNode a c s := by
  rw [renameNode_of_read?_eq_none hs, renameNode_of_read?_eq_none (read?_ite_isBlank hs),
    renameNode_of_read?_eq_none hs]
  by_cases hblank : Text.isBlank s.toList
  · rw [if_pos hblank, ite_self]
  · rw [if_neg hblank, if_neg hblank]

/-- **Replacements compose.** Putting a new node for another one and a third for the new one is
putting the third for the first; in particular, putting the first one back leaves the text that comes
of putting it for itself. The parentheses that are written for the text may nest no deeper than they
count. -/
theorem renameNode_renameNode (s : String) (a b c : Node)
    (hdepth : Text.nesting (render (read? s)).toList ≤ Token.nestingLimit)
    (fresh : b ∉ leavesOf (read? s)) :
    renameNode b c (renameNode a b s) = renameNode a c s ∧
    renameNode b a (renameNode a b s) = renameNode a a s := by
  have hcompose : ∀ c, renameNode b c (renameNode a b s) = renameNode a c s := by
    intro c
    cases hs : read? s with
    | none => exact renameNode_renameNode_of_read?_eq_none hs a b c
    | some r =>
      rw [hs] at hdepth fresh
      rw [Requirement.toList_render] at hdepth
      exact renameNode_renameNode_of_read? hs hdepth fresh a c
  exact ⟨hcompose c, hcompose a⟩

/-- The text between is read with its groups under AND merged. -/
theorem renameNode_renameNode_merging :
    let s := "3 (01 OR 2, (1 a4))"
    Text.nesting (render (read? s)).toList ≤ Token.nestingLimit ∧ 5 ∉ leavesOf (read? s) ∧
    read? (renameNode 1 5 s) ≠ (read? s).map (Requirement.mapNodes fun n => if n = 1 then 5 else n) ∧
    renameNode 5 2 (renameNode 1 5 s) = renameNode 1 2 s ∧
    renameNode 5 1 (renameNode 1 5 s) = renameNode 1 1 s := by
  intro s
  have hdepth : Text.nesting (render (read? s)).toList ≤ Token.nestingLimit := by decide +kernel
  have fresh : 5 ∉ leavesOf (read? s) := by decide +kernel
  exact ⟨hdepth, fresh, by decide +kernel, renameNode_renameNode s 1 5 2 hdepth fresh⟩

end Prereq
