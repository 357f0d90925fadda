import Prereq.Proofs.Text.Parentheses
import Prereq.Proofs.Token.Nesting

/-!
# Where the tokens stand

Each character of a text gives at most one token, the one that begins there. A parenthesis that does
not count gives none, and takes its partner with it if it has one.

* `Token.first?` : the token that begins at the start of a text;
* `Token.places` : what each character of a text gives (`Token.flatten_places` : together that is the
  tokens that count);
* `Token.getElem?_places` : what a parenthesis gives, by the number of groups that are open before it;
* `Token.count_of_prefix` : how many parentheses there are in a prefix of the tokens that count;
* `Token.limitNestingFrom_limitNestingFrom` : tokens that count go on counting;
* `Token.blanked` : a text with blanks for the parentheses that give no token
  (`Token.scan_blanked` : its tokens are those that count);
* `Token.dropped_in_pairs` : which parentheses of a text count.
-/

namespace Prereq.Token

variable {s : List Char} {c : Char} {ts us : List Token} {depth i j : Nat}

/-! ## Place by place -/

/-- The token that begins with the first character of a text, which may continue a run of digits. -/
def first? (afterDigit : Bool) (c : Char) (rest : List Char) : Option Token :=
  if c.isDigit then
    if afterDigit then none else (Node.read? (c :: rest.takeWhile Char.isDigit)).map node
  else symbol? (c :: rest)

/-- What the characters of a text give, one after the other, `depth` groups being open at the start:
the token that begins there, unless it is a parenthesis that does not count. -/
def placesFrom : (afterDigit : Bool) → (depth : Nat) → List Char → List (List Token)
  | _, _, [] => []
  | afterDigit, depth, c :: rest =>
    let found := (first? afterDigit c rest).toList
    limitNestingFrom depth found :: placesFrom c.isDigit (unclosedFrom depth found) rest

/-- The tokens that the characters of a text give, place by place. -/
def places (s : List Char) : List (List Token) := placesFrom false 0 s

theorem scanFrom_cons (b : Bool) (c : Char) (rest : List Char) :
    scanFrom b (c :: rest) = (first? b c rest).toList ++ scanFrom c.isDigit rest := by
  rw [scanFrom, first?]
  cases c.isDigit <;> cases b <;> rfl

theorem flatten_placesFrom (b : Bool) (depth : Nat) (s : List Char) :
    (placesFrom b depth s).flatten = limitNestingFrom depth (scanFrom b s) := by
  induction s generalizing b depth with
  | nil => rfl
  | cons c s ih => rw [placesFrom, List.flatten_cons, ih, scanFrom_cons, limitNestingFrom_append]

theorem flatten_places (s : List Char) : (places s).flatten = ofText s := flatten_placesFrom false 0 s

theorem length_placesFrom (b : Bool) (depth : Nat) (s : List Char) :
    (placesFrom b depth s).length = s.length := by
  induction s generalizing b depth with
  | nil => rfl
  | cons c s ih => rw [placesFrom, List.length_cons, ih, List.length_cons]

/-! ## What a parenthesis gives -/

theorem first?_opening (b : Bool) (rest : List Char) : first? b '(' rest = some .opening := rfl

theorem first?_closing (b : Bool) (rest : List Char) : first? b ')' rest = some .closing := rfl

/-- No other character gives a parenthesis. -/
theorem first?_cases (hopening : c ≠ '(') (hclosing : c ≠ ')') (b : Bool) (rest : List Char) :
    first? b c rest = none ∨ (∃ d, first? b c rest = some (.connective d)) ∨
      ∃ n, first? b c rest = some (.node n) := by
  by_cases hcomma : c = ','
  · subst hcomma
    exact .inr (.inl ⟨.all, rfl⟩)
  unfold first?
  rw [symbol?_of_ne hopening hclosing hcomma]
  cases Node.read? (c :: rest.takeWhile Char.isDigit) <;> split_ifs <;> simp

/-- The groups that are open after a character are those on the stack. -/
theorem unclosedFrom_first? (b : Bool) (c : Char) (rest : List Char) (i : Nat) (stack : List Nat) :
    unclosedFrom stack.length (first? b c rest).toList = (Text.pass c i stack).length := by
  by_cases hopening : c = '('
  · subst hopening; rfl
  by_cases hclosing : c = ')'
  · subst hclosing
    exact List.length_tail.symm
  rw [Text.pass, if_neg hopening, if_neg hclosing]
  rcases first?_cases hopening hclosing b rest with h | ⟨d, h⟩ | ⟨n, h⟩ <;> rw [h] <;> rfl

theorem getElem?_placesFrom {t : Token} (hfirst : ∀ b rest, first? b c rest = some t)
    (h : s[i]? = some c) (b : Bool) (k : Nat) (stack : List Nat) :
    (placesFrom b stack.length s)[i]? =
      some (limitNestingFrom (Text.openedFrom k stack (s.take i)).length [t]) := by
  induction s generalizing i b k stack with
  | nil => cases h
  | cons d s ih =>
    cases i with
    | zero =>
      obtain rfl : d = c := Option.some.inj h
      rw [placesFrom, hfirst]
      rfl
    | succ i =>
      rw [placesFrom, unclosedFrom_first? b d s k]
      exact ih h _ (k + 1) _

/-- What a parenthesis gives is settled by the number of groups that are open before it. -/
theorem getElem?_places {t : Token} (hfirst : ∀ b rest, first? b c rest = some t)
    (h : s[i]? = some c) :
    (places s)[i]? = some (limitNestingFrom (Text.opened (s.take i)).length [t]) :=
  getElem?_placesFrom hfirst h false 0 []

theorem limitNestingFrom_opening_eq_nil_iff (depth : Nat) :
    limitNestingFrom depth [.opening] = [] ↔ nestingLimit ≤ depth := by
  rw [limitNestingFrom, limitNestingFrom, ← Nat.not_lt]
  split_ifs with hdepth <;> simp [hdepth]

theorem limitNestingFrom_closing_eq_nil_iff (depth : Nat) :
    limitNestingFrom depth [.closing] = [] ↔ depth = 0 ∨ nestingLimit < depth := by
  cases depth with
  | zero => simp [limitNestingFrom]
  | succ depth =>
    rw [limitNestingFrom, limitNestingFrom, Nat.lt_succ_iff, ← Nat.not_lt]
    split_ifs with hdepth <;> simp [hdepth]

/-! ## Tokens that count -/

/-- Up to any of the tokens that count, no group is closed that is not open, and no group is opened
beyond the limit. -/
theorem count_of_prefix (h : us <+: limitNestingFrom depth ts) :
    us.count .closing ≤ min depth nestingLimit + us.count .opening ∧
    min depth nestingLimit + us.count .opening ≤ us.count .closing + nestingLimit := by
  induction depth, ts using limitNestingFrom.induct generalizing us with
  | case1 depth =>
    obtain rfl := List.prefix_nil.1 h
    simp
  | case2 depth ts hdepth ih =>
    rw [limitNestingFrom, if_pos hdepth] at h
    rcases List.prefix_cons_iff.1 h with rfl | ⟨us, rfl, hus⟩
    · simp
    · have hrest := ih hus
      rw [List.count_cons_self, List.count_cons_of_ne (by decide)]
      omega
  | case3 depth ts hdepth ih =>
    rw [limitNestingFrom, if_neg hdepth] at h
    have hrest := ih h
    omega
  | case4 ts ih => exact ih h
  | case5 depth ts hdepth ih =>
    rw [limitNestingFrom, if_pos hdepth] at h
    rcases List.prefix_cons_iff.1 h with rfl | ⟨us, rfl, hus⟩
    · simp
    · have hrest := ih hus
      rw [List.count_cons_self, List.count_cons_of_ne (by decide)]
      omega
  | case6 depth ts hdepth ih =>
    rw [limitNestingFrom, if_neg hdepth] at h
    have hrest := ih h
    omega
  | case7 depth c ts ih =>
    rcases List.prefix_cons_iff.1 h with rfl | ⟨us, rfl, hus⟩
    · simp
    · simpa [List.count_cons] using ih hus
  | case8 depth n ts ih =>
    rcases List.prefix_cons_iff.1 h with rfl | ⟨us, rfl, hus⟩
    · simp
    · simpa [List.count_cons] using ih hus

/-- Tokens that count go on counting if only they are there. -/
theorem limitNestingFrom_limitNestingFrom (depth : Nat) (ts : List Token) :
    limitNestingFrom (min depth nestingLimit) (limitNestingFrom depth ts) =
      limitNestingFrom depth ts := by
  induction depth, ts using limitNestingFrom.induct with
  | case1 depth => rfl
  | case2 depth ts hdepth ih =>
    have hmin : min (depth + 1) nestingLimit = min depth nestingLimit + 1 := by omega
    have hopen : min depth nestingLimit < nestingLimit := by omega
    rw [hmin] at ih
    rw [limitNestingFrom, if_pos hdepth, limitNestingFrom, if_pos hopen, ih]
  | case3 depth ts hdepth ih =>
    have hmin : min (depth + 1) nestingLimit = min depth nestingLimit := by omega
    rw [hmin] at ih
    rw [limitNestingFrom, if_neg hdepth, ih]
  | case4 ts ih => exact ih
  | case5 depth ts hdepth ih =>
    have hmin : min (depth + 1) nestingLimit = min depth nestingLimit + 1 := by omega
    have hopen : min depth nestingLimit < nestingLimit := by omega
    rw [limitNestingFrom, if_pos hdepth, hmin, limitNestingFrom, if_pos hopen, ih]
  | case6 depth ts hdepth ih =>
    have hmin : min (depth + 1) nestingLimit = min depth nestingLimit := by omega
    rw [limitNestingFrom, if_neg hdepth, hmin, ih]
  | case7 depth c ts ih => exact congrArg (Token.connective c :: ·) ih
  | case8 depth n ts ih => exact congrArg (Token.node n :: ·) ih

theorem limitNesting_ofText (s : List Char) : limitNesting (ofText s) = ofText s :=
  limitNestingFrom_limitNestingFrom 0 (scan s)

/-! ## Blanks for what does not count -/

/-- A blank for a parenthesis that gives no token; any other character stays. -/
def veil (c : Char) (given : List Token) : Char :=
  if (c = '(' ∨ c = ')') ∧ given = [] then ' ' else c

/-- A text with a blank for each parenthesis that gives no token. -/
def blanked (s : List Char) : List Char := List.zipWith veil s (places s)

/-- Texts that differ only in characters that stand in no numeral and in no keyword. -/
def Alike (s t : List Char) : Prop := List.Forall₂ (fun x y => x = y ∨ Break x ∧ Break y) s t

theorem break_veil (hne : veil c ts ≠ c) : Break (veil c ts) ∧ Break c := by
  unfold veil at hne ⊢
  split_ifs at hne ⊢ with hgone
  · refine ⟨break_of_isBlankChar rfl, ?_⟩
    rcases hgone.1 with rfl | rfl
    · exact break_opening
    · exact break_closing
  · exact absurd rfl hne

theorem alike_veil {s : List Char} {given : List (List Token)} (h : given.length = s.length) :
    Alike (List.zipWith veil s given) s := by
  induction s generalizing given with
  | nil => exact .nil
  | cons c s ih =>
    obtain ⟨ts, given, rfl⟩ := List.exists_cons_of_length_eq_add_one h
    exact .cons (or_iff_not_imp_left.2 break_veil) (ih (Nat.succ.inj h))

theorem Alike.takeWhile_isDigit {s t : List Char} (h : Alike s t) :
    s.takeWhile Char.isDigit = t.takeWhile Char.isDigit := by
  induction h with
  | nil => rfl
  | cons hc _ ih =>
    rcases hc with rfl | ⟨hx, hy⟩
    · rw [List.takeWhile_cons, List.takeWhile_cons, ih]
    · rw [List.takeWhile_cons, List.takeWhile_cons, hx.1, hy.1]
      rfl

/-- Letters of a keyword are found in both texts or in none. -/
theorem Alike.map_take_eq_iff {s t : List Char} (h : Alike s t) {d : Connective} {w : List Char}
    (hw : ∀ y ∈ w, y ∈ d.letters) :
    (s.take w.length).map Char.toUpper = w ↔ (t.take w.length).map Char.toUpper = w := by
  induction w generalizing s t with
  | nil => simp
  | cons y w ih =>
    obtain ⟨hy, hw⟩ := List.forall_mem_cons.1 hw
    cases h with
    | nil => rfl
    | cons hc hrest =>
      simp only [List.length_cons, List.take_succ_cons, List.map_cons, List.cons.injEq]
      rcases hc with rfl | ⟨hx, hz⟩
      · rw [ih hrest hw]
      · exact iff_of_false (fun h => hx.2 d (h.1 ▸ hy)) fun h => hz.2 d (h.1 ▸ hy)

theorem Alike.startsKeyword {s t : List Char} (h : Alike s t) (d : Connective) :
    startsKeyword d s = startsKeyword d t := by
  rw [Bool.eq_iff_iff, Token.startsKeyword, Token.startsKeyword, beq_iff_eq, beq_iff_eq]
  exact h.map_take_eq_iff fun _ => id

theorem Alike.first? {s t : List Char} (h : Alike s t) (b : Bool) (c : Char) :
    first? b c s = first? b c t := by
  have hcons : Alike (c :: s) (c :: t) := .cons (.inl rfl) h
  unfold Token.first?
  rw [h.takeWhile_isDigit]
  by_cases hopening : c = '('
  · subst hopening; rfl
  by_cases hclosing : c = ')'
  · subst hclosing; rfl
  by_cases hcomma : c = ','
  · subst hcomma; rfl
  rw [symbol?_of_ne hopening hclosing hcomma, symbol?_of_ne hopening hclosing hcomma,
    hcons.startsKeyword, hcons.startsKeyword]

theorem limitNestingFrom_singleton (depth : Nat) (t : Token) :
    limitNestingFrom depth [t] = [] ∨ limitNestingFrom depth [t] = [t] := by
  cases t with
  | opening =>
    rw [limitNestingFrom]
    split_ifs
    · exact .inr rfl
    · exact .inl rfl
  | closing =>
    cases depth with
    | zero => exact .inl rfl
    | succ depth =>
      rw [limitNestingFrom]
      split_ifs
      · exact .inr rfl
      · exact .inl rfl
  | connective c => exact .inr rfl
  | node n => exact .inr rfl

theorem scanFrom_blank (b : Bool) (s : List Char) : scanFrom b (' ' :: s) = scan s := by
  rw [scanFrom_eq_scan b (by simp), scan_cons_blank rfl]

/-- Behind a blank that stands for a parenthesis the scan goes on as behind the parenthesis. -/
theorem scanFrom_veil {s t : List Char} (h : Alike s t) (b : Bool) (c : Char) (depth : Nat) :
    scanFrom b (veil c (limitNestingFrom depth (first? b c t).toList) :: s) =
      limitNestingFrom depth (first? b c t).toList ++ scanFrom c.isDigit s := by
  by_cases hparen : c = '(' ∨ c = ')'
  · obtain ⟨p, hfirst⟩ : ∃ p, ∀ b rest, Token.first? b c rest = some p := by
      rcases hparen with rfl | rfl
      · exact ⟨.opening, first?_opening⟩
      · exact ⟨.closing, first?_closing⟩
    have hdigit : c.isDigit = false := by rcases hparen with rfl | rfl <;> rfl
    rw [hfirst, Option.toList_some, hdigit]
    rcases limitNestingFrom_singleton depth p with hgone | hkept
    · rw [hgone, veil, if_pos ⟨hparen, rfl⟩, scanFrom_blank]
      rfl
    · rw [hkept, veil, if_neg (by simp), scanFrom_cons, hfirst, hdigit]
      rfl
  · have hveil : veil c (limitNestingFrom depth (Token.first? b c t).toList) = c :=
      if_neg fun hgone => hparen hgone.1
    rw [not_or] at hparen
    rw [hveil, scanFrom_cons, h.first?]
    congr 1
    rcases first?_cases hparen.1 hparen.2 b t with hfirst | ⟨d, hfirst⟩ | ⟨n, hfirst⟩ <;>
      rw [hfirst] <;> rfl

theorem scanFrom_zipWith_veil (b : Bool) (depth : Nat) (s : List Char) :
    scanFrom b (List.zipWith veil s (placesFrom b depth s)) =
      limitNestingFrom depth (scanFrom b s) := by
  induction s generalizing b depth with
  | nil => rfl
  | cons c s ih =>
    have halike (d : Nat) := alike_veil (length_placesFrom c.isDigit d s)
    rw [placesFrom, List.zipWith_cons_cons, scanFrom_veil (halike _), ih, scanFrom_cons b c s,
      limitNestingFrom_append]

/-- The tokens that count are all the tokens of the text with blanks. -/
theorem scan_blanked (s : List Char) : scan (blanked s) = ofText s :=
  scanFrom_zipWith_veil false 0 s

theorem ofText_blanked (s : List Char) : ofText (blanked s) = ofText s := by
  rw [ofText, scan_blanked, limitNesting_ofText]

/-! ## Which parentheses count -/

/-- **Parentheses are dropped in pairs.** In every prefix of the tokens of a text the opening
parentheses are at least as many as the closing ones, and at most `nestingLimit` more. Of the
parentheses in the text, an opening one gives no token just if it opens a group beyond that level, and
a closing one just if it has no partner or is the partner of such an opening one. With blanks for the
parentheses that give no token, the text has the same tokens. -/
theorem dropped_in_pairs (s : List Char) :
    (∀ ts, ts <+: ofText s → ts.count .closing ≤ ts.count .opening ∧
      ts.count .opening ≤ ts.count .closing + nestingLimit) ∧
    (places s).length = s.length ∧ (places s).flatten = ofText s ∧
    (∀ i, s[i]? = some '(' → ((places s)[i]? = some [] ↔ nestingLimit < Text.level s i)) ∧
    (∀ j, s[j]? = some ')' → ((places s)[j]? = some [] ↔
      (∀ i, ¬ Text.Partners s i j) ∨ ∃ i, Text.Partners s i j ∧ nestingLimit < Text.level s i)) ∧
    ofText (blanked s) = ofText s := by
  refine ⟨fun ts hts => ?_, length_placesFrom false 0 s, flatten_places s, fun i hi => ?_,
    fun j hj => ?_, ofText_blanked s⟩
  · have hcount := count_of_prefix hts
    rwa [Nat.zero_min, Nat.zero_add] at hcount
  · rw [getElem?_places first?_opening hi, Option.some.injEq,
      limitNestingFrom_opening_eq_nil_iff, Text.level_of_opening hi, Nat.lt_succ_iff]
  · rw [getElem?_places first?_closing hj, Option.some.injEq,
      limitNestingFrom_closing_eq_nil_iff, Text.forall_not_partners_iff hj, List.length_eq_zero_iff]
    refine or_congr_right ⟨fun hdeep => ?_, ?_⟩
    · obtain ⟨i, stack, hstack⟩ := List.exists_cons_of_length_pos (Nat.zero_lt_of_lt hdeep)
      have hpartners := Text.partners_of_opened hj hstack
      exact ⟨i, hpartners, by rwa [hpartners.level_eq]⟩
    · rintro ⟨i, hpartners, hdeep⟩
      rwa [hpartners.level_eq] at hdeep

/-- A closing parenthesis without a partner, and a numeral in one group more than count. -/
def overdeep : List Char :=
  ')' :: (List.replicate (nestingLimit + 1) '(' ++ '7' :: List.replicate (nestingLimit + 1) ')')

theorem dropped_in_pairs_overdeep :
    nestingLimit < Text.level overdeep 129 ∧ ¬ nestingLimit < Text.level overdeep 128 ∧
    (places overdeep)[131]? = some [] ∧ (places overdeep)[132]? = some [.closing] ∧
    (∀ i, ¬ Text.Partners overdeep i 0) ∧
    (ofText overdeep).count .opening ≤ (ofText overdeep).count .closing + nestingLimit ∧
    ofText (blanked overdeep) = ofText overdeep := by
  obtain ⟨hcount, -, -, hopening, hclosing, hblanked⟩ := dropped_in_pairs overdeep
  have hinnermost : nestingLimit < Text.level overdeep 129 :=
    (hopening 129 (by decide +kernel)).1 (by decide +kernel)
  have hpartners : Text.Partners overdeep 129 131 :=
    ⟨by decide, by decide +kernel, by decide +kernel,
      Text.Balanced.nil.other (by decide) (by decide)⟩
  refine ⟨hinnermost, fun hdeep => ?_,
    (hclosing 131 (by decide +kernel)).2 (.inr ⟨129, hpartners, hinnermost⟩), by decide +kernel,
    ?_, (hcount _ List.prefix_rfl).2, hblanked⟩
  · have hgiven := (hopening 128 (by decide +kernel)).2 hdeep
    revert hgiven
    decide +kernel
  · have hgone := (hclosing 0 (by decide +kernel)).1 (by decide +kernel)
    refine hgone.resolve_right ?_
    rintro ⟨i, hi, -⟩
    exact absurd hi.1 (Nat.not_lt_zero i)

end Prereq.Token
