import Prereq.Proofs.Requirement.Levels

/-!
# Closing parentheses that are missing or left over

Closing parentheses before a text close nothing and are passed over. Behind it, they close the
groups that it leaves open, which end with the text anyway; any more are passed over again.

* `Token.Closes` : tokens that close some groups open before them and leave none open;
* `Token.closes_limitNestingFrom` : what counts of any tokens, with the closing parentheses that
  are missing;
* `Token.limitNestingFrom_closings` : how many closing parentheses count;
* `Reading.finish_run_closings` : a group that is closed at the end has the value of one that is
  left open;
* `Text.withClosings` : a text between closing parentheses;
* `Requirement.read?_withClosings` : it is read as the text itself.
-/

namespace Prereq

/-! ## What closing parentheses complete -/

namespace Token

variable {ts us : List Token} {k : Nat}

/-- The tokens close `k` groups that are open before them, and have no other parenthesis without a
partner. -/
def Closes : (k : Nat) → List Token → Prop
  | 0, ts => Balanced ts
  | k + 1, ts => ∃ inner rest, ts = inner ++ .closing :: rest ∧ Balanced inner ∧ Closes k rest

theorem Closes.append (hus : Closes k us) (hts : Balanced ts) : Closes k (ts ++ us) := by
  cases k with
  | zero => exact hts.append hus
  | succ k =>
    obtain ⟨inner, rest, rfl, hinner, hrest⟩ := hus
    exact ⟨ts ++ inner, rest, (List.append_assoc ts inner _).symm, hts.append hinner, hrest⟩

theorem Closes.closing (h : Closes k ts) : Closes (k + 1) (.closing :: ts) :=
  ⟨[], ts, rfl, .nil, h⟩

/-- The first of the groups that are closed may be opened here. -/
theorem Closes.opening (h : Closes (k + 1) ts) : Closes k (.opening :: ts) := by
  obtain ⟨inner, rest, rfl, hinner, hrest⟩ := h
  have hgroup := hrest.append (hinner.group .nil)
  rwa [List.cons_append, List.append_assoc] at hgroup

theorem closes_replicate (k : Nat) : Closes k (List.replicate k .closing) := by
  induction k with
  | zero => exact .nil
  | succ k ih => exact ih.closing

/-- What counts of some tokens has all partners once the groups that they leave open are closed. Of
these groups as many count as the limit allows. -/
theorem closes_limitNestingFrom (depth : Nat) (ts : List Token) :
    Closes (min depth nestingLimit) (limitNestingFrom depth ts ++
      List.replicate (min (unclosedFrom depth ts) nestingLimit) .closing) := by
  induction depth, ts using limitNestingFrom.induct with
  | case1 depth => exact closes_replicate _
  | case2 depth ts hdepth ih =>
    have hmin : min (depth + 1) nestingLimit = min depth nestingLimit + 1 := by omega
    rw [hmin] at ih
    rw [limitNestingFrom, if_pos hdepth, unclosedFrom]
    exact ih.opening
  | case3 depth ts hdepth ih =>
    have hmin : min (depth + 1) nestingLimit = min depth nestingLimit := by omega
    rw [hmin] at ih
    rw [limitNestingFrom, if_neg hdepth, unclosedFrom]
    exact ih
  | case4 ts ih => exact ih
  | case5 depth ts hdepth ih =>
    have hmin : min (depth + 1) nestingLimit = min depth nestingLimit + 1 := by omega
    rw [limitNestingFrom, if_pos hdepth, unclosedFrom, hmin]
    exact ih.closing
  | case6 depth ts hdepth ih =>
    have hmin : min (depth + 1) nestingLimit = min depth nestingLimit := by omega
    rw [limitNestingFrom, if_neg hdepth, unclosedFrom, hmin]
    exact ih
  | case7 depth c ts ih => exact ih.append (Balanced.nil.connective c)
  | case8 depth n ts ih => exact ih.append (Balanced.nil.node n)

/-! ## Which closing parentheses count -/

/-- Of many closing parentheses the first ones close the groups beyond the limit, the next ones
those that count, and the others nothing. -/
theorem limitNestingFrom_closings (depth m : Nat) :
    limitNestingFrom depth (List.replicate m .closing) =
      List.replicate (min (m - (depth - nestingLimit)) (min depth nestingLimit)) .closing := by
  induction m generalizing depth with
  | zero => rw [Nat.zero_sub, Nat.zero_min, List.replicate_zero, limitNestingFrom]
  | succ m ih =>
    rw [List.replicate_succ]
    cases depth with
    | zero =>
      rw [limitNestingFrom, ih, Nat.zero_min, Nat.min_zero, Nat.min_zero]
    | succ depth =>
      by_cases hdepth : depth < nestingLimit
      · have hcount : min (m + 1 - (depth + 1 - nestingLimit)) (min (depth + 1) nestingLimit) =
            min (m - (depth - nestingLimit)) (min depth nestingLimit) + 1 := by omega
        rw [limitNestingFrom, if_pos hdepth, ih, hcount, List.replicate_succ]
      · have hcount : min (m + 1 - (depth + 1 - nestingLimit)) (min (depth + 1) nestingLimit) =
            min (m - (depth - nestingLimit)) (min depth nestingLimit) := by omega
        rw [limitNestingFrom, if_neg hdepth, ih, hcount]

theorem limitNesting_closings_append (n : Nat) (ts : List Token) :
    limitNesting (List.replicate n .closing ++ ts) = limitNesting ts := by
  induction n with
  | zero => rfl
  | succ n ih => exact ih

theorem scan_closings_append (n : Nat) (s : List Char) :
    scan (List.replicate n ')' ++ s) = List.replicate n .closing ++ scan s := by
  induction n with
  | zero => rfl
  | succ n ih => rw [List.replicate_succ, List.cons_append, scan_closing, ih]; rfl

theorem scan_append_closings (s : List Char) (m : Nat) :
    scan (s ++ List.replicate m ')') = scan s ++ List.replicate m .closing := by
  cases m with
  | zero => rw [List.replicate_zero, List.append_nil, List.replicate_zero, List.append_nil]
  | succ m =>
    have htail := scan_closings_append (m + 1) []
    rw [List.append_nil, List.replicate_succ] at htail
    rw [List.replicate_succ, scan_append_break break_closing, htail]
    exact congrArg (scan s ++ ·) (List.append_nil _)

end Token

namespace Text

/-- The number of groups that a text leaves open. -/
def unclosed (s : List Char) : Nat := Token.unclosed (Token.scan s)

/-- A text with `n` closing parentheses before it and `m` behind it. -/
def withClosings (n m : Nat) (s : List Char) : List Char :=
  List.replicate n ')' ++ s ++ List.replicate m ')'

end Text

namespace Token

/-- The parentheses before a text do not count, and behind it count those that close a group which
counts. -/
theorem ofText_withClosings (n m : Nat) (s : List Char) :
    ofText (Text.withClosings n m s) = ofText s ++ List.replicate
      (min (m - (Text.unclosed s - nestingLimit)) (min (Text.unclosed s) nestingLimit)) .closing := by
  rw [ofText, Text.withClosings, List.append_assoc, scan_closings_append, scan_append_closings,
    limitNesting_closings_append, limitNesting, limitNestingFrom_append, limitNestingFrom_closings]
  rfl

/-- Once all groups are closed, no further closing parenthesis counts. -/
theorem ofText_withClosings_unclosed (n m : Nat) (s : List Char) :
    ofText (Text.withClosings n (Text.unclosed s + m) s) =
      ofText s ++ List.replicate (min (Text.unclosed s) nestingLimit) .closing := by
  have hcount : min (Text.unclosed s + m - (Text.unclosed s - nestingLimit))
      (min (Text.unclosed s) nestingLimit) = min (Text.unclosed s) nestingLimit := by omega
  rw [ofText_withClosings, hcount]

theorem balanced_ofText_withClosings (s : List Char) :
    Balanced (ofText (Text.withClosings 0 (Text.unclosed s) s)) := by
  have hall := ofText_withClosings_unclosed 0 0 s
  have hcloses := closes_limitNestingFrom 0 (scan s)
  rw [Nat.add_zero] at hall
  rw [Nat.zero_min] at hcloses
  rw [hall]
  exact hcloses

end Token

/-! ## Reading -/

namespace Reading

/-- The innermost group that is open ends here just as at the end of the text. -/
theorem finish_step_closing (s : Reading) : (s.step .closing).finish = s.finish := by
  obtain ⟨inner, outer⟩ := s
  cases outer with
  | nil => rfl
  | cons l outer => rfl

theorem finish_run_closings (s : Reading) (m : Nat) :
    (s.run (List.replicate m .closing)).finish = s.finish := by
  induction m generalizing s with
  | zero => rfl
  | succ m ih => rw [List.replicate_succ, run_cons, ih, finish_step_closing]

end Reading

namespace Requirement

theorem ofTokens?_append_closings (ts : List Token) (m : Nat) :
    ofTokens? (ts ++ List.replicate m .closing) = ofTokens? ts := by
  rw [ofTokens?, Reading.run_append, Reading.finish_run_closings, ofTokens?]

/-- **Missing and surplus closing parentheses.** A text between any number of closing parentheses is
read as the text itself, wherever it breaks off. In particular the groups that it leaves open may
be closed behind it, those beyond the limit included; then all parentheses that count have their
partners, and no further one on either side counts. -/
theorem read?_withClosings (s : String) (n m : Nat) :
    read? (String.ofList (Text.withClosings n m s.toList)) = read? s ∧
    Token.Balanced (Token.ofText (Text.withClosings 0 (Text.unclosed s.toList) s.toList)) ∧
    Token.ofText (Text.withClosings n (Text.unclosed s.toList + m) s.toList) =
      Token.ofText (Text.withClosings 0 (Text.unclosed s.toList) s.toList) := by
  refine ⟨?_, Token.balanced_ofText_withClosings s.toList, ?_⟩
  · rw [read?, String.toList_ofList, Token.ofText_withClosings, ofTokens?_append_closings, read?]
  · have hall := Token.ofText_withClosings_unclosed 0 0 s.toList
    rw [Nat.add_zero] at hall
    rw [Token.ofText_withClosings_unclosed, hall]

example : read? "))1 AND (2 OR (3)))" = read? "1 AND (2 OR (3" := by decide +kernel

end Requirement

end Prereq
