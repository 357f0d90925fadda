import Prereq.Proofs.Token.Scan

/-!
# How deep parentheses nest

* `Text.nesting`, `Token.nesting` : the greatest number of groups that are open at once in a text
  and in its tokens, which is the same number (`Token.nesting_scan`);
* `Token.unclosed` : the number of groups that some tokens leave open
  (`Token.limitNestingFrom_append` : which parentheses count is settled piece by piece);
* `Token.Balanced` : every parenthesis has its partner;
* `Token.limitNesting_eq_self` : balanced tokens that nest no deeper than the limit all count.
-/

namespace Prereq

/-- The greatest number of groups open at once in the rest of a text, `depth` being open before. -/
def Text.nestingFrom : (depth : Nat) → List Char → Nat
  | _, [] => 0
  | depth, c :: s =>
    if c = '(' then max (depth + 1) (nestingFrom (depth + 1) s)
    else if c = ')' then nestingFrom (depth - 1) s
    else nestingFrom depth s

/-- The greatest number of groups that are open at once in a text. -/
def Text.nesting (s : List Char) : Nat := Text.nestingFrom 0 s

namespace Token

/-- The greatest number of groups open at once in the rest of the tokens. -/
def nestingFrom : (depth : Nat) → List Token → Nat
  | _, [] => 0
  | depth, .opening :: ts => max (depth + 1) (nestingFrom (depth + 1) ts)
  | depth, .closing :: ts => nestingFrom (depth - 1) ts
  | depth, .connective _ :: ts => nestingFrom depth ts
  | depth, .node _ :: ts => nestingFrom depth ts

/-- The greatest number of groups that are open at once. -/
def nesting (ts : List Token) : Nat := nestingFrom 0 ts

/-! ## Texts and tokens -/

theorem nestingFrom_symbol? (depth : Nat) (y : Char) (s : List Char) (ts : List Token) :
    nestingFrom depth ((symbol? (y :: s)).toList ++ ts) =
      if y = '(' then max (depth + 1) (nestingFrom (depth + 1) ts)
      else if y = ')' then nestingFrom (depth - 1) ts
      else nestingFrom depth ts := by
  by_cases h₁ : y = '('
  · subst h₁; rfl
  by_cases h₂ : y = ')'
  · subst h₂; rfl
  by_cases h₃ : y = ','
  · subst h₃; rfl
  rw [if_neg h₁, if_neg h₂, symbol?_of_ne h₁ h₂ h₃]
  split
  · rfl
  · split <;> rfl

theorem nestingFrom_scanFrom (depth : Nat) (b : Bool) (s : List Char) :
    nestingFrom depth (scanFrom b s) = Text.nestingFrom depth s := by
  induction s generalizing depth b with
  | nil => rw [scanFrom, nestingFrom, Text.nestingFrom]
  | cons y s ih =>
    by_cases hy : y.isDigit
    · have h₁ : y ≠ '(' := by rintro rfl; cases hy
      have h₂ : y ≠ ')' := by rintro rfl; cases hy
      rw [scanFrom, if_pos hy, Text.nestingFrom, if_neg h₁, if_neg h₂, ← ih depth true]
      split
      · rfl
      · cases Node.read? (y :: s.takeWhile Char.isDigit) <;> rfl
    · rw [scanFrom_cons_of_not_digit b (Bool.eq_false_iff.2 hy), nestingFrom_symbol?, scan, ih, ih,
        ih, Text.nestingFrom]

theorem nesting_scan (s : List Char) : nesting (scan s) = Text.nesting s :=
  nestingFrom_scanFrom 0 false s

/-! ## Groups left open -/

/-- The number of groups that are open after some tokens, `depth` being open before. -/
def unclosedFrom : (depth : Nat) → List Token → Nat
  | depth, [] => depth
  | depth, .opening :: ts => unclosedFrom (depth + 1) ts
  | depth, .closing :: ts => unclosedFrom (depth - 1) ts
  | depth, .connective _ :: ts => unclosedFrom depth ts
  | depth, .node _ :: ts => unclosedFrom depth ts

/-- The number of groups that some tokens leave open. -/
def unclosed (ts : List Token) : Nat := unclosedFrom 0 ts

theorem unclosedFrom_append (depth : Nat) (ts us : List Token) :
    unclosedFrom depth (ts ++ us) = unclosedFrom (unclosedFrom depth ts) us := by
  induction ts generalizing depth with
  | nil => rfl
  | cons t ts ih =>
    cases t with
    | opening => exact ih (depth + 1)
    | closing => exact ih (depth - 1)
    | connective c => exact ih depth
    | node n => exact ih depth

theorem nestingFrom_append (depth : Nat) (ts us : List Token) :
    nestingFrom depth (ts ++ us) =
      max (nestingFrom depth ts) (nestingFrom (unclosedFrom depth ts) us) := by
  induction ts generalizing depth with
  | nil => exact (Nat.zero_max _).symm
  | cons t ts ih =>
    cases t with
    | opening =>
      have htail := ih (depth + 1)
      rw [List.cons_append, nestingFrom, nestingFrom, unclosedFrom]
      omega
    | closing => exact ih (depth - 1)
    | connective c => exact ih depth
    | node n => exact ih depth

/-- Which parentheses count is settled piece by piece. -/
theorem limitNestingFrom_append (depth : Nat) (ts us : List Token) :
    limitNestingFrom depth (ts ++ us) =
      limitNestingFrom depth ts ++ limitNestingFrom (unclosedFrom depth ts) us := by
  induction depth, ts using limitNestingFrom.induct with
  | case1 depth => rfl
  | case2 depth ts hdepth ih =>
    rw [List.cons_append, limitNestingFrom, limitNestingFrom, if_pos hdepth, if_pos hdepth, ih]
    rfl
  | case3 depth ts hdepth ih =>
    rw [List.cons_append, limitNestingFrom, limitNestingFrom, if_neg hdepth, if_neg hdepth, ih]
    rfl
  | case4 ts ih => exact ih
  | case5 depth ts hdepth ih =>
    rw [List.cons_append, limitNestingFrom, limitNestingFrom, if_pos hdepth, if_pos hdepth, ih]
    rfl
  | case6 depth ts hdepth ih =>
    rw [List.cons_append, limitNestingFrom, limitNestingFrom, if_neg hdepth, if_neg hdepth, ih]
    rfl
  | case7 depth c ts ih => exact congrArg (Token.connective c :: ·) ih
  | case8 depth n ts ih => exact congrArg (Token.node n :: ·) ih

/-! ## Balanced tokens -/

/-- Every parenthesis has its partner. -/
inductive Balanced : List Token → Prop where
  | nil : Balanced []
  | connective (c : Connective) {ts : List Token} (rest : Balanced ts) :
    Balanced (.connective c :: ts)
  | node (n : Node) {ts : List Token} (rest : Balanced ts) : Balanced (.node n :: ts)
  | group {ts us : List Token} (inner : Balanced ts) (rest : Balanced us) :
    Balanced (.opening :: (ts ++ .closing :: us))

variable {ts us : List Token}

theorem Balanced.append (ht : Balanced ts) (hu : Balanced us) : Balanced (ts ++ us) := by
  induction ht with
  | nil => exact hu
  | connective c _ ih => exact ih.connective c
  | node n _ ih => exact ih.node n
  | @group ts ts' inner _ _ ih =>
    rw [List.cons_append, List.append_assoc, List.cons_append]
    exact inner.group ih

/-- Balanced tokens leave no group open and close none from before. -/
theorem Balanced.unclosedFrom (h : Balanced ts) (depth : Nat) : unclosedFrom depth ts = depth := by
  induction h generalizing depth with
  | nil => rfl
  | connective c _ ih => exact ih depth
  | node n _ ih => exact ih depth
  | @group ts us _ _ ihts ihus =>
    rw [Token.unclosedFrom, unclosedFrom_append, ihts]
    exact ihus depth

theorem Balanced.nestingFrom_append (h : Balanced ts) (depth : Nat) (us : List Token) :
    nestingFrom depth (ts ++ us) = max (nestingFrom depth ts) (nestingFrom depth us) := by
  rw [Token.nestingFrom_append, h.unclosedFrom]

/-! ## Parentheses that count -/

theorem Balanced.limitNestingFrom_append (h : Balanced ts) (depth : Nat) (us : List Token) :
    limitNestingFrom depth (ts ++ us) = limitNestingFrom depth ts ++ limitNestingFrom depth us := by
  rw [Token.limitNestingFrom_append, h.unclosedFrom]

/-- A pair counts if fewer groups than the limit are open around it. -/
theorem limitNestingFrom_parentheses (h : Balanced ts) (depth : Nat) :
    limitNestingFrom depth (.opening :: ts ++ [.closing]) =
      if depth < nestingLimit then .opening :: limitNestingFrom (depth + 1) ts ++ [.closing]
      else limitNestingFrom (depth + 1) ts := by
  by_cases hopen : depth < nestingLimit <;>
    simp [limitNestingFrom, hopen, h.limitNestingFrom_append]

theorem Balanced.limitNestingFrom (h : Balanced ts) (depth : Nat) :
    Balanced (limitNestingFrom depth ts) := by
  induction h generalizing depth with
  | nil => exact .nil
  | connective c _ ih => exact (ih depth).connective c
  | node n _ ih => exact (ih depth).node n
  | @group ts us inner _ ihts ihus =>
    have hcut : Balanced (Token.limitNestingFrom depth (.opening :: ts ++ [.closing])) := by
      rw [limitNestingFrom_parentheses inner]
      split
      · exact (ihts (depth + 1)).group .nil
      · exact ihts (depth + 1)
    have hpair := inner.group .nil
    have happ := hpair.limitNestingFrom_append depth us
    simp only [List.cons_append, List.append_assoc, List.nil_append] at happ hcut
    rw [happ]
    exact hcut.append (ihus depth)

/-- Beyond the limit no parenthesis counts. -/
theorem Balanced.not_mem_limitNestingFrom (h : Balanced ts) {depth : Nat}
    (hdepth : nestingLimit ≤ depth) :
    .opening ∉ Token.limitNestingFrom depth ts ∧ .closing ∉ Token.limitNestingFrom depth ts := by
  induction h generalizing depth with
  | nil => exact ⟨List.not_mem_nil, List.not_mem_nil⟩
  | connective c _ ih => simpa [Token.limitNestingFrom] using ih hdepth
  | node n _ ih => simpa [Token.limitNestingFrom] using ih hdepth
  | @group ts us inner _ ihts ihus =>
    have hopen : ¬ depth < nestingLimit := Nat.not_lt.2 hdepth
    have hinner := ihts (Nat.le_succ_of_le hdepth)
    have hrest := ihus hdepth
    rw [Token.limitNestingFrom, if_neg hopen, inner.limitNestingFrom_append,
      Token.limitNestingFrom, if_neg hopen, List.mem_append, List.mem_append]
    exact ⟨fun h => h.elim hinner.1 hrest.1, fun h => h.elim hinner.2 hrest.2⟩

theorem Balanced.limitNestingFrom_eq_self (h : Balanced ts) {depth : Nat}
    (hdepth : nestingFrom depth ts ≤ nestingLimit) : Token.limitNestingFrom depth ts = ts := by
  induction h generalizing depth with
  | nil => rfl
  | connective c _ ih => exact congrArg _ (ih hdepth)
  | node n _ ih => exact congrArg _ (ih hdepth)
  | @group ts us inner _ ihts ihus =>
    have hclose : nestingFrom (depth + 1) (.closing :: us) = nestingFrom depth us := rfl
    rw [nestingFrom, inner.nestingFrom_append, hclose] at hdepth
    have hopen : depth < nestingLimit := by omega
    rw [Token.limitNestingFrom, if_pos hopen, inner.limitNestingFrom_append, ihts (by omega),
      Token.limitNestingFrom, if_pos hopen, ihus (by omega)]

/-- Balanced tokens that nest no deeper than the limit all count. -/
theorem limitNesting_eq_self (h : Balanced ts) (hdepth : nesting ts ≤ nestingLimit) :
    limitNesting ts = ts := h.limitNestingFrom_eq_self hdepth

end Token

end Prereq
