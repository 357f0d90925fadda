import Prereq.Proofs.Requirement.Outline
import Prereq.Text.Run

/-!
# The numbers of a text and the nodes that are read

* `Text.numbers` : the values of the maximal runs of digits in a text;
* `Token.nodes_scan` : the tokens of a text name those of them that fit;
* `Reading.unread` : what is left of some tokens if the text ends at a closing parenthesis outside
  all groups;
* `Token.unread_ofText` : among the tokens of a text that count there is no such parenthesis;
* `Requirement.leaves_read?_numbers` : the nodes that are read from a text are its numbers.

However badly a text is formed, nothing that names a node is lost, repeated or moved.
-/

namespace Prereq

/-- The values of the maximal runs of ASCII digits in a text, from left to right. -/
def Text.numbers (s : List Char) : List Nat :=
  (Text.runs Char.isDigit s).map fun digits => Nat.ofDigitChars 10 digits 0

/-! ## Nodes of tokens -/

namespace Token

/-- Parentheses and keywords name no node. -/
theorem nodes_symbol? (s : List Char) : nodes (symbol? s).toList = [] := by
  unfold symbol?
  split
  · rfl
  · rfl
  · rfl
  · split
    · rfl
    · split <;> rfl

theorem nodes_map_node (n : Option Node) : nodes (n.map node).toList = n.toList := by
  cases n <;> rfl

theorem nodes_scanFrom (afterDigit : Bool) (s : List Char) :
    nodes (scanFrom afterDigit s) =
      (Text.runsFrom Char.isDigit afterDigit s).filterMap Node.read? := by
  induction s generalizing afterDigit with
  | nil => rfl
  | cons c s ih =>
    rw [scanFrom, Text.runsFrom]
    split
    · split
      · exact ih true
      · rw [nodes_append, nodes_map_node, ih true, List.filterMap_cons]
        cases Node.read? (c :: s.takeWhile Char.isDigit) <;> rfl
    · rw [nodes_append, nodes_symbol?, ih false, List.nil_append]

end Token

/-! ## Numbers -/

namespace Text

/-- A run is not empty and holds nothing but characters of its class. -/
theorem of_mem_runsFrom {p : Char → Bool} {inside : Bool} {s w : List Char}
    (h : w ∈ runsFrom p inside s) : w ≠ [] ∧ w.all p := by
  induction s generalizing inside with
  | nil => cases h
  | cons c s ih =>
    rw [runsFrom] at h
    split at h
    next hc =>
      split at h
      · exact ih h
      · rcases List.mem_cons.1 h with rfl | h
        · exact ⟨List.cons_ne_nil _ _, by rw [List.all_cons, hc, List.all_takeWhile]; rfl⟩
        · exact ih h
    next => exact ih h

end Text

/-- A run of digits names the node of its value, if there is one. -/
theorem Node.map_toNat_read? {w : List Char} (hne : w ≠ []) (hw : w.all Char.isDigit) :
    (Node.read? w).map UInt64.toNat = Option.guard (· < UInt64.size) (Nat.ofDigitChars 10 w 0) := by
  rw [Node.read?, if_pos ⟨hne, hw⟩, Node.ofNat?]
  by_cases h : Nat.ofDigitChars 10 w 0 < UInt64.size
  · rw [dif_pos h, Option.guard, if_pos (decide_eq_true h), Option.map_some, UInt64.toNat_ofNatLT]
  · rw [dif_neg h, Option.guard, if_neg fun hlt => h (of_decide_eq_true hlt), Option.map_none]

theorem Token.nodes_scan (s : List Char) :
    (Token.nodes (Token.scan s)).map UInt64.toNat = (Text.numbers s).filter (· < UInt64.size) := by
  have hruns : ∀ w ∈ Text.runs Char.isDigit s, (Node.read? w).map UInt64.toNat =
      Option.guard (· < UInt64.size) (Nat.ofDigitChars 10 w 0) := fun w hw =>
    Node.map_toNat_read? (Text.of_mem_runsFrom hw).1 (Text.of_mem_runsFrom hw).2
  calc (Token.nodes (Token.scan s)).map UInt64.toNat
      = (Text.runs Char.isDigit s).filterMap fun w => (Node.read? w).map UInt64.toNat := by
        rw [Token.scan, Token.nodes_scanFrom, List.map_filterMap, Text.runs]
    _ = (Text.runs Char.isDigit s).filterMap fun w =>
          Option.guard (· < UInt64.size) (Nat.ofDigitChars 10 w 0) := List.filterMap_congr hruns
    _ = (Text.numbers s).filter (· < UInt64.size) := by
        rw [Text.numbers, ← List.filterMap_eq_filter, List.filterMap_map]
        rfl

/-! ## Nothing is left over -/

/-- What is left of some tokens for a reader that ends at a closing parenthesis outside all
groups. -/
def Reading.unread (s : Reading) : List Token → List Token
  | [] => []
  | t :: ts => if t = .closing ∧ s.outer = [] then t :: ts else (s.step t).unread ts

/-- While `depth` groups are open in the text, those within the limit are open in the reading. -/
theorem Token.unread_limitNestingFrom {depth : Nat} {ts : List Token} {s : Reading}
    (h : s.outer.length = min depth nestingLimit) : s.unread (limitNestingFrom depth ts) = [] := by
  induction depth, ts using limitNestingFrom.induct generalizing s with
  | case1 depth => rw [limitNestingFrom, Reading.unread]
  | case2 depth ts hdepth ih =>
    rw [limitNestingFrom, if_pos hdepth, Reading.unread, if_neg (by simp)]
    refine ih ?_
    rw [Reading.step, List.length_cons, h]
    omega
  | case3 depth ts hdepth ih =>
    rw [limitNestingFrom, if_neg hdepth]
    exact ih (by omega)
  | case4 ts ih =>
    rw [limitNestingFrom]
    exact ih h
  | case5 ts depth hdepth ih =>
    obtain ⟨inner, outer⟩ := s
    cases outer with
    | nil => simp at h; omega
    | cons l outer =>
      rw [limitNestingFrom, if_pos hdepth, Reading.unread, if_neg (by simp)]
      refine ih ?_
      rw [List.length_cons] at h
      show outer.length = _
      omega
  | case6 ts depth hdepth ih =>
    rw [limitNestingFrom, if_neg hdepth]
    exact ih (by omega)
  | case7 depth c ts ih =>
    rw [limitNestingFrom, Reading.unread, if_neg (by simp)]
    exact ih h
  | case8 depth n ts ih =>
    rw [limitNestingFrom, Reading.unread, if_neg (by simp)]
    exact ih h

theorem Token.unread_ofText (s : List Char) : Reading.start.unread (Token.ofText s) = [] :=
  Token.unread_limitNestingFrom rfl

/-! ## What is read -/

namespace Requirement

theorem leavesOf_eq_nil_iff {s : String} : leavesOf (read? s) = [] ↔ read? s = none := by
  cases h : read? s with
  | none => exact iff_of_true rfl rfl
  | some r => exact iff_of_false (gathered_of_read? h).filled.leaves_ne_nil nofun

/-- **Nothing is lost.** The nodes that are read from a text are its numbers that fit, one for one
and in their order; there is nothing to read just if there is no such number; and the reader comes
to the end of the tokens. -/
theorem leaves_read?_numbers (s : String) :
    (leavesOf (read? s)).map UInt64.toNat = (Text.numbers s.toList).filter (· < UInt64.size) ∧
    (read? s = none ↔ ∀ n ∈ Text.numbers s.toList, UInt64.size ≤ n) ∧
    Reading.start.unread (Token.ofText s.toList) = [] := by
  have hleaves : (leavesOf (read? s)).map UInt64.toNat =
      (Text.numbers s.toList).filter (· < UInt64.size) := by
    rw [leavesOf_read?, Token.nodes_scan]
  refine ⟨hleaves, ?_, Token.unread_ofText s.toList⟩
  rw [← leavesOf_eq_nil_iff, ← List.map_eq_nil_iff (f := UInt64.toNat), hleaves,
    List.filter_eq_nil_iff]
  simp

example : Text.numbers "1) OR x007y2(".toList = [1, 7, 2] := by decide

end Requirement

end Prereq
