import Prereq.Proofs.Requirement.Levels
import Prereq.Proofs.Token.Nesting

/-!
# How high what is read stands

A group in parentheses adds an OR over an AND to what is read inside it, and no more: parts that
are joined one by one go into one group. As only some parentheses count, what is read has a bounded
height, however deep the text nests them and however badly it is formed.

* `Requirement.height` : the greatest number of groups that lie within each other;
* `Requirement.Joins` : what is joined from requirements of a bounded height;
* `Reading.Bounded` : what the open levels may hold, the outer ones more than the inner ones
  (`Reading.Bounded.step`, `Reading.Bounded.run`, `Reading.Bounded.finish`);
* `Token.nestingFrom_limitNestingFrom_le` : parentheses that count nest no deeper than the limit;
* `Requirement.shape_of_read?` : the shape and the bound;
* `Requirement.exists_height_eq` : the bound is met at every depth.
-/

namespace Prereq

/-! ## Height -/

namespace Requirement

/-- The greatest number of groups on a way down from the root. -/
def height : Requirement → Nat := fold (fun _ => 0) fun _ heights => heights.foldr max 0 + 1

variable {c : Connective} {h : Nat} {x y : Requirement} {parts : List Requirement}

theorem height_node (n : Node) : (Requirement.node n).height = 0 := rfl

theorem height_group_le_iff :
    (group c parts).height ≤ h + 1 ↔ ∀ p ∈ parts, p.height ≤ h := by
  rw [height, fold_group, Nat.add_le_add_iff_right]
  induction parts with
  | nil => simp
  | cons p parts ih =>
    rw [List.map_cons, List.foldr_cons, Nat.max_le, ih, List.forall_mem_cons]

/-- What joining requirements of height `h` under `c` gives: one of them, or a group of some. -/
structure Joins (c : Connective) (h : Nat) (r : Requirement) : Prop where
  /-- A group stands one higher than its parts. -/
  height_le : r.height ≤ h + 1
  /-- What is no group under `c` is one of the requirements. -/
  single : r.connective? ≠ some c → r.height ≤ h

theorem joins_of_height_le (hx : x.height ≤ h) : Joins c h x := ⟨Nat.le_succ_of_le hx, fun _ => hx⟩

theorem Joins.append (hx : Joins c h x) (hy : y.height ≤ h) : Joins c h (x.append c y) := by
  by_cases hc : x.connective? = some c
  · obtain ⟨parts, rfl⟩ := exists_eq_group hc
    have hparts := height_group_le_iff.1 hx.height_le
    rw [append_group]
    refine ⟨height_group_le_iff.2 fun p hp => ?_, fun hne => absurd rfl hne⟩
    rcases List.mem_append.1 hp with hp | hp
    · exact hparts p hp
    · rwa [List.mem_singleton.1 hp]
  · rw [append_of_ne hc]
    refine ⟨height_group_le_iff.2 ?_, fun hne => absurd rfl hne⟩
    simp [hx.single hc, hy]

theorem joins_join {a b : Option Requirement} (ha : ∀ x ∈ a, Joins c h x)
    (hb : ∀ y ∈ b, y.height ≤ h) : ∀ z ∈ join c a b, Joins c h z := by
  cases a with
  | none => exact fun z hz => joins_of_height_le (hb z hz)
  | some x =>
    cases b with
    | none => exact ha
    | some y =>
      rintro _ ⟨⟩
      exact (ha x rfl).append (hb y rfl)

end Requirement

/-! ## Readings -/

namespace Reading

open Requirement

variable {h limit : Nat} {l : Level} {s : Reading}

/-- The operands of a level have height `h` at most. -/
structure Level.Bounded (h : Nat) (l : Level) : Prop where
  /-- The alternatives that have ended are joined from groups of operands. -/
  before : ∀ x ∈ l.before, Joins .any (h + 1) x
  /-- The alternative being read is joined from operands. -/
  current : ∀ x ∈ l.current, Joins .all h x

theorem Level.bounded_start : Level.start.Bounded h := ⟨nofun, nofun⟩

theorem Level.Bounded.joins_value (hl : l.Bounded h) : ∀ x ∈ l.value, Joins .any (h + 1) x :=
  joins_join hl.before fun x hx => (hl.current x hx).height_le

/-- A level adds two groups to its operands. -/
theorem Level.Bounded.value (hl : l.Bounded h) : ∀ x ∈ l.value, x.height ≤ h + 2 := fun x hx =>
  (hl.joins_value x hx).height_le

theorem Level.Bounded.operand (hl : l.Bounded h) {r : Option Requirement}
    (hr : ∀ x ∈ r, x.height ≤ h) : (l.operand r).Bounded h :=
  ⟨hl.before, joins_join hl.current hr⟩

theorem Level.Bounded.connective (hl : l.Bounded h) (c : Connective) :
    (l.connective c).Bounded h := by
  cases c with
  | all => exact ⟨hl.before, hl.current⟩
  | any =>
    by_cases hdue : l.due
    · rw [Level.connective, if_pos hdue]
      exact hl
    · rw [Level.connective, if_neg hdue]
      exact ⟨hl.joins_value, fun x hx => absurd hx (Option.not_mem_none x)⟩

/-- What the open levels may hold, where up to `limit` levels may be open around one: only nodes
are operands of the last one, and each level around it takes what the next one gives. -/
def LevelsBounded (limit : Nat) : List Level → Prop
  | [] => True
  | l :: outer => l.Bounded (2 * (limit - outer.length)) ∧ LevelsBounded limit outer

/-- The open levels are as many as may be open and hold what they may. -/
structure Bounded (limit : Nat) (s : Reading) : Prop where
  /-- No more levels are open than may be. -/
  length_le : s.outer.length ≤ limit
  /-- They hold what they may. -/
  levels : LevelsBounded limit (s.inner :: s.outer)

theorem bounded_start (limit : Nat) : Reading.start.Bounded limit :=
  ⟨Nat.zero_le limit, Level.bounded_start, trivial⟩

/-- A level that ends is an operand of the next one around it. -/
theorem LevelsBounded.close {outer : List Level} {inner : Level}
    (hlen : (l :: outer).length ≤ limit) (hlevels : LevelsBounded limit (inner :: l :: outer)) :
    LevelsBounded limit (l.operand inner.value :: outer) := by
  obtain ⟨hinner, hl, houter⟩ := hlevels
  have hgap : 2 * (limit - (l :: outer).length) + 2 = 2 * (limit - outer.length) := by
    rw [List.length_cons] at hlen ⊢
    omega
  exact ⟨hl.operand fun x hx => hgap ▸ hinner.value x hx, houter⟩

/-- One token keeps the bounds, if it opens no level too many. -/
theorem Bounded.step (hs : s.Bounded limit) {t : Token} {ts : List Token}
    (hdepth : Token.nestingFrom s.outer.length (t :: ts) ≤ limit) :
    (s.step t).Bounded limit ∧
      Token.nestingFrom (s.step t).outer.length ts ≤ limit := by
  obtain ⟨inner, outer⟩ := s
  obtain ⟨hlen, hlevels⟩ := hs
  cases t with
  | opening =>
    rw [Token.nestingFrom, Nat.max_le] at hdepth
    exact ⟨⟨hdepth.1, Level.bounded_start, hlevels⟩, hdepth.2⟩
  | closing =>
    cases outer with
    | nil => exact ⟨⟨hlen, hlevels⟩, hdepth⟩
    | cons l outer => exact ⟨⟨Nat.le_of_succ_le hlen, hlevels.close hlen⟩, hdepth⟩
  | connective c => exact ⟨⟨hlen, hlevels.1.connective c, hlevels.2⟩, hdepth⟩
  | node n =>
    refine ⟨⟨hlen, hlevels.1.operand ?_, hlevels.2⟩, hdepth⟩
    rintro _ ⟨⟩
    rw [height_node]
    exact Nat.zero_le _

theorem Bounded.run (hs : s.Bounded limit) {ts : List Token}
    (hdepth : Token.nestingFrom s.outer.length ts ≤ limit) : (s.run ts).Bounded limit := by
  induction ts generalizing s with
  | nil => exact hs
  | cons t ts ih =>
    obtain ⟨hstep, hrest⟩ := hs.step hdepth
    exact ih hstep hrest

/-- Levels that are left open end with the text. -/
theorem Bounded.finish (hs : s.Bounded limit) : ∀ x ∈ s.finish, x.height ≤ 2 * (limit + 1) := by
  obtain ⟨inner, outer⟩ := s
  obtain ⟨hlen, hlevels⟩ := hs
  induction outer generalizing inner with
  | nil => exact hlevels.1.value
  | cons l outer ih =>
    exact ih (l.operand inner.value) (Nat.le_of_succ_le hlen) (hlevels.close hlen)

end Reading

/-! ## Parentheses that count -/

/-- Parentheses that count nest no deeper than in the text, and no deeper than the limit. -/
theorem Token.nestingFrom_limitNestingFrom_le (depth : Nat) (ts : List Token) :
    nestingFrom (min depth nestingLimit) (limitNestingFrom depth ts) ≤
      min (nestingFrom depth ts) nestingLimit := by
  induction depth, ts using limitNestingFrom.induct with
  | case1 depth => exact Nat.zero_le _
  | case2 depth ts hdepth ih =>
    have hmin : min depth nestingLimit + 1 = min (depth + 1) nestingLimit := by omega
    rw [limitNestingFrom, if_pos hdepth, nestingFrom, nestingFrom, hmin]
    omega
  | case3 depth ts hdepth ih =>
    have hmin : min depth nestingLimit = min (depth + 1) nestingLimit := by omega
    rw [limitNestingFrom, if_neg hdepth, nestingFrom, hmin]
    omega
  | case4 ts ih => exact ih
  | case5 depth ts hdepth ih =>
    have hmin : min (depth + 1) nestingLimit - 1 = min depth nestingLimit := by omega
    rw [limitNestingFrom, if_pos hdepth, nestingFrom, nestingFrom, hmin]
    exact ih
  | case6 depth ts hdepth ih =>
    have hmin : min (depth + 1) nestingLimit = min depth nestingLimit := by omega
    rw [limitNestingFrom, if_neg hdepth, nestingFrom, hmin]
    exact ih
  | case7 depth c ts ih => exact ih
  | case8 depth n ts ih => exact ih

theorem Token.nesting_ofText_le (s : List Char) :
    nesting (ofText s) ≤ min (Text.nesting s) nestingLimit := by
  rw [← nesting_scan]
  exact nestingFrom_limitNestingFrom_le 0 (scan s)

namespace Requirement

/-- **What is read has a shape and a height.** Every group has two parts or more, the first of them
no group of its own connective; and there are no more groups around a node than two for each depth
at which parentheses of the text stand and count, and two for the text itself. -/
theorem shape_of_read? (s : String) (r : Requirement) (h : read? s = some r) :
    (∀ c parts, Within (.group c parts) r →
      2 ≤ parts.length ∧ ∀ p ∈ parts.head?, p.connective? ≠ some c) ∧
    r.height ≤ 2 * (min (Text.nesting s.toList) Token.nestingLimit + 1) ∧
    r.height ≤ 2 * (128 + 1) := by
  have hnesting := Token.nesting_ofText_le s.toList
  have hheight := ((Reading.bounded_start _).run hnesting).finish r h
  refine ⟨gathered_of_read? h, hheight, Nat.le_trans hheight ?_⟩
  exact Nat.mul_le_mul_left 2 (Nat.succ_le_succ (Nat.min_le_right _ Token.nestingLimit))

/-- A text with connectives that lack operands, a closing parenthesis without an opening one and
an opening one without a closing one. -/
def unkempt : String := ") 1 or or 2 (1 OR, 2 3 or"

/-- Two groups around each other, and within the inner one as many again for each of `k` depths. -/
def terrace : (k : Nat) → Requirement
  | 0 => group .any [node 1, group .all [node 2, node 3]]
  | k + 1 => group .any [node 1, group .all [node 2, terrace k]]

theorem shape_of_read?_unkempt : read? unkempt = some (terrace 1) ∧
    Text.nesting unkempt.toList = 1 ∧ (terrace 1).height = 2 * (1 + 1) ∧
    (terrace 1).height ≤ 2 * (128 + 1) := by
  have hread : read? unkempt = some (terrace 1) := by decide +kernel
  exact ⟨hread, by decide +kernel, by decide, (shape_of_read? unkempt _ hread).2.2⟩

/-! ## The bound is met -/

theorem height_terrace (k : Nat) : (terrace k).height = 2 * (k + 1) := by
  induction k with
  | zero => rfl
  | succ k ih =>
    have hgroups : (terrace (k + 1)).height =
        max 0 (max (max 0 (max (terrace k).height 0) + 1) 0) + 1 := rfl
    omega

/-- A terrace, with its inner groups in parentheses. -/
def terraceTokens : Nat → List Token
  | 0 => [.node 1, .connective .any, .node 2, .node 3]
  | k + 1 => .node 1 :: .connective .any :: .node 2 :: .opening :: (terraceTokens k ++ [.closing])

theorem balanced_terraceTokens (k : Nat) : Token.Balanced (terraceTokens k) := by
  induction k with
  | zero => exact (((Token.Balanced.nil.node 3).node 2).connective .any).node 1
  | succ k ih => exact (((ih.group .nil).node 2).connective .any).node 1

theorem nestingFrom_terraceTokens (d k : Nat) :
    Token.nestingFrom d (terraceTokens k) = if k = 0 then 0 else d + k := by
  induction k generalizing d with
  | zero => rfl
  | succ k ih =>
    have hopening : Token.nestingFrom d (terraceTokens (k + 1)) =
        max (d + 1) (Token.nestingFrom (d + 1) (terraceTokens k ++ [.closing])) := rfl
    have hclosing : Token.nestingFrom (d + 1) [.closing] = 0 := rfl
    rw [hopening, (balanced_terraceTokens k).nestingFrom_append, ih, hclosing,
      if_neg (Nat.succ_ne_zero k)]
    split <;> omega

theorem value_read_terraceTokens (k : Nat) :
    (Reading.Level.start.read (terraceTokens k)).value = some (terrace k) := by
  induction k with
  | zero => rfl
  | succ k ih =>
    rw [terraceTokens, Reading.Level.read_node, Reading.Level.read_connective,
      Reading.Level.read_node, Reading.Level.read_group (balanced_terraceTokens k), ih]
    rfl

/-- What is read may be as high as that at every depth at which parentheses count. -/
theorem exists_height_eq {k : Nat} (hk : k ≤ Token.nestingLimit) :
    ∃ s r, read? s = some r ∧ Text.nesting s.toList = k ∧ r.height = 2 * (k + 1) := by
  have hnesting : Token.nesting (terraceTokens k) = k := by
    rw [Token.nesting, nestingFrom_terraceTokens]
    split <;> omega
  refine ⟨String.ofList (Token.write (terraceTokens k)), terrace k, ?_, ?_, height_terrace k⟩
  · rw [Reading.read?_write (balanced_terraceTokens k) (hnesting.symm ▸ hk),
      value_read_terraceTokens]
  · rw [← Token.nesting_scan, String.toList_ofList, Token.scan_write, hnesting]

end Requirement

end Prereq
