import Prereq.Proofs.Token.Scan

/-!
# The nodes of a token sequence

* `Token.nodes`, `Token.mapNode` : the nodes among some tokens, and other nodes in their place;
* `Token.exists_nodes` : tokens of the same kinds with given nodes;
* `Token.nodes_limitNesting`, `Token.limitNesting_map` : which parentheses count does not depend on
  the nodes, and no node is dropped with them;
* `Token.write`, `Token.scan_write` : any tokens can be written.
-/

namespace Prereq.Token

/-- The node that a token names. -/
def node? : Token → Option Node
  | .node n => some n
  | _ => none

/-- The nodes that some tokens name, in order. -/
def nodes (ts : List Token) : List Node := ts.filterMap node?

/-- The token with its node replaced, if it names one. -/
def mapNode (f : Node → Node) : Token → Token
  | .node n => .node (f n)
  | .opening => .opening
  | .closing => .closing
  | .connective c => .connective c

theorem nodes_cons_node (n : Node) (ts : List Token) : nodes (.node n :: ts) = n :: nodes ts := rfl

theorem nodes_append (ts us : List Token) : nodes (ts ++ us) = nodes ts ++ nodes us :=
  List.filterMap_append

/-- The kinds of some tokens and as many nodes as they name determine other tokens. -/
theorem exists_nodes (ts : List Token) (ns : List Node) (hlen : ns.length = (nodes ts).length) :
    ∃ us, nodes us = ns ∧ us.map (mapNode fun _ => 0) = ts.map (mapNode fun _ => 0) := by
  induction ts generalizing ns with
  | nil =>
    obtain rfl := List.length_eq_zero_iff.1 hlen
    exact ⟨[], rfl, rfl⟩
  | cons t ts ih =>
    have hkeep : node? t = none → ∃ us, nodes us = ns ∧
        us.map (mapNode fun _ => 0) = (t :: ts).map (mapNode fun _ => 0) := by
      intro ht
      rw [nodes, List.filterMap_cons_none ht] at hlen
      obtain ⟨us, hns, hkinds⟩ := ih ns hlen
      refine ⟨t :: us, ?_, ?_⟩
      · rw [nodes, List.filterMap_cons_none ht]
        exact hns
      · rw [List.map_cons, hkinds, List.map_cons]
    cases t with
    | opening => exact hkeep rfl
    | closing => exact hkeep rfl
    | connective c => exact hkeep rfl
    | node m =>
      cases ns with
      | nil => cases hlen
      | cons n ns =>
        obtain ⟨us, rfl, hkinds⟩ := ih ns (Nat.succ.inj hlen)
        exact ⟨.node n :: us, rfl, congrArg (List.cons (Token.node 0)) hkinds⟩

/-! ## Nesting -/

theorem nodes_limitNestingFrom (depth : Nat) (ts : List Token) :
    nodes (limitNestingFrom depth ts) = nodes ts := by
  induction depth, ts using limitNestingFrom.induct with
  | case1 depth => rw [limitNestingFrom]
  | case2 depth ts hdepth ih => rw [limitNestingFrom, if_pos hdepth]; exact ih
  | case3 depth ts hdepth ih => rw [limitNestingFrom, if_neg hdepth]; exact ih
  | case4 ts ih => rw [limitNestingFrom]; exact ih
  | case5 ts depth hdepth ih => rw [limitNestingFrom, if_pos hdepth]; exact ih
  | case6 ts depth hdepth ih => rw [limitNestingFrom, if_neg hdepth]; exact ih
  | case7 depth c ts ih => rw [limitNestingFrom]; exact ih
  | case8 depth n ts ih => rw [limitNestingFrom, nodes_cons_node, ih]; rfl

theorem nodes_limitNesting (ts : List Token) : nodes (limitNesting ts) = nodes ts :=
  nodes_limitNestingFrom 0 ts

theorem limitNestingFrom_map (f : Node → Node) (depth : Nat) (ts : List Token) :
    limitNestingFrom depth (ts.map (mapNode f)) =
      (limitNestingFrom depth ts).map (mapNode f) := by
  induction depth, ts using limitNestingFrom.induct with
  | case1 depth => rw [List.map_nil, limitNestingFrom, List.map_nil]
  | case2 depth ts hdepth ih =>
    simp only [List.map_cons, mapNode, limitNestingFrom, if_pos hdepth, ih]
  | case3 depth ts hdepth ih =>
    simp only [List.map_cons, mapNode, limitNestingFrom, if_neg hdepth, ih]
  | case4 ts ih => simp only [List.map_cons, mapNode, limitNestingFrom, ih]
  | case5 depth ts hdepth ih =>
    simp only [List.map_cons, mapNode, limitNestingFrom, if_pos hdepth, ih]
  | case6 depth ts hdepth ih =>
    simp only [List.map_cons, mapNode, limitNestingFrom, if_neg hdepth, ih]
  | case7 depth c ts ih => simp only [List.map_cons, mapNode, limitNestingFrom, ih]
  | case8 depth n ts ih => simp only [List.map_cons, mapNode, limitNestingFrom, ih]

theorem limitNesting_map (f : Node → Node) (ts : List Token) :
    limitNesting (ts.map (mapNode f)) = (limitNesting ts).map (mapNode f) :=
  limitNestingFrom_map f 0 ts

/-! ## Writing tokens -/

/-- What a token is written as. -/
def chars : Token → List Char
  | .opening => ['(']
  | .closing => [')']
  | .connective c => c.letters
  | .node n => n.digits

/-- Some tokens, written with a blank after each of them. -/
def write (ts : List Token) : List Char := ts.flatMap fun t => t.chars ++ [' ']

theorem scan_chars (t : Token) : scan t.chars = [t] := by
  cases t with
  | opening => exact scan_opening []
  | closing => exact scan_closing []
  | connective c =>
    have h := scan_keyword (s := []) (map_toUpper_letters c)
    rwa [List.append_nil] at h
  | node n => exact scan_numeral n

theorem scan_write (ts : List Token) : scan (write ts) = ts := by
  have hblank : Text.isBlankChar ' ' := rfl
  induction ts with
  | nil => rfl
  | cons t ts ih =>
    rw [write, List.flatMap_cons, List.append_assoc, List.singleton_append,
      scan_append_break (break_of_isBlankChar hblank), scan_chars, scan_cons_blank hblank]
    exact congrArg (t :: ·) ih

end Prereq.Token
