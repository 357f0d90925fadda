import Prereq.Proofs.Text.Words
import Prereq.Token

/-!
# Scanning piece by piece

* `Token.Break` : a character that no numeral and no keyword contains (`break_of_isBlankChar`,
  `break_opening`, `break_closing`);
* `Token.scanFrom_append_break` : what stands before such a character is scanned on its own;
* `Token.scan_digits`, `Token.scan_keyword`, `Token.scan_opening`, `Token.scan_closing`,
  `Token.scan_blanks` : the tokens at the start of a text.
-/

namespace Prereq.Token

/-- A character that stands in no numeral and in no keyword. -/
def Break (x : Char) : Prop := x.isDigit = false ∧ ∀ c : Connective, x.toUpper ∉ c.letters

variable {x : Char} {s rest : List Char}

/-! ## Keywords -/

theorem length_take_letters {c : Connective} (h : startsKeyword c s) :
    c.letters.length ≤ s.length := by
  have hlen := congrArg List.length (beq_iff_eq.1 h)
  rw [List.length_map, List.length_take] at hlen
  omega

theorem startsKeyword_append_break (c : Connective) (hx : Break x) :
    startsKeyword c (s ++ x :: rest) = startsKeyword c s := by
  by_cases hlen : c.letters.length ≤ s.length
  · unfold startsKeyword
    rw [List.take_append_of_le_length hlen]
  · -- The keyword would have to contain `x`.
    have hlong : ¬ startsKeyword c (s ++ x :: rest) := by
      intro h
      have hmem : x ∈ (s ++ x :: rest).take c.letters.length := by
        rw [List.take_append, List.mem_append]
        right
        obtain ⟨k, hk⟩ := Nat.exists_eq_add_of_lt (Nat.lt_of_not_le hlen)
        rw [hk, show s.length + k + 1 - s.length = k + 1 by omega, List.take_succ_cons]
        exact List.mem_cons_self
      have hletter := List.mem_map_of_mem (f := Char.toUpper) hmem
      rw [beq_iff_eq.1 h] at hletter
      exact hx.2 c hletter
    have hshort : ¬ startsKeyword c s := fun h => hlen (length_take_letters h)
    rw [Bool.eq_false_iff.2 hlong, Bool.eq_false_iff.2 hshort]

theorem not_startsKeyword_cons {c : Connective} {y : Char} (h : y.toUpper ∉ c.letters) :
    startsKeyword c (y :: s) = false := by
  cases c <;> simp_all [startsKeyword, Connective.letters]

/-! ## One character -/

theorem symbol?_of_ne {y : Char} (h₁ : y ≠ '(') (h₂ : y ≠ ')') (h₃ : y ≠ ',') :
    symbol? (y :: s) =
      if startsKeyword .all (y :: s) then some (.connective .all)
      else if startsKeyword .any (y :: s) then some (.connective .any)
      else none := by
  unfold symbol?
  split <;> simp_all

theorem symbol?_append_break (hx : Break x) (y : Char) :
    symbol? (y :: (s ++ x :: rest)) = symbol? (y :: s) := by
  by_cases h₁ : y = '('
  · subst h₁; rfl
  by_cases h₂ : y = ')'
  · subst h₂; rfl
  by_cases h₃ : y = ','
  · subst h₃; rfl
  rw [symbol?_of_ne h₁ h₂ h₃, symbol?_of_ne h₁ h₂ h₃, ← List.cons_append,
    startsKeyword_append_break .all hx, startsKeyword_append_break .any hx]

theorem scanFrom_cons_of_not_digit (b : Bool) {y : Char} (h : y.isDigit = false) :
    scanFrom b (y :: s) = (symbol? (y :: s)).toList ++ scan s := by
  rw [scanFrom, h]
  rfl

theorem scanFrom_eq_scan (b : Bool) (h : ∀ y ∈ s.head?, y.isDigit = false) :
    scanFrom b s = scan s := by
  cases s with
  | nil => rw [scan, scanFrom, scanFrom]
  | cons y s =>
    have hy := h y rfl
    rw [scan, scanFrom_cons_of_not_digit b hy, scanFrom_cons_of_not_digit false hy]

/-! ## Cutting a text -/

theorem scanFrom_append_break (b : Bool) (hx : Break x) :
    scanFrom b (s ++ x :: rest) = scanFrom b s ++ scan (x :: rest) := by
  induction s generalizing b with
  | nil =>
    rw [List.nil_append, scanFrom_eq_scan b (by simpa using hx.1)]
    rfl
  | cons y s ih =>
    rw [List.cons_append, scanFrom, scanFrom, Text.takeWhile_append_break hx.1,
      symbol?_append_break hx, ih, ih]
    split
    · split
      · rfl
      · rw [List.append_assoc]
    · rw [List.append_assoc]

theorem scan_append_break (hx : Break x) : scan (s ++ x :: rest) = scan s ++ scan (x :: rest) :=
  scanFrom_append_break false hx

/-! ## Parentheses, blanks and keywords -/

theorem break_opening : Break '(' := ⟨rfl, fun c => by cases c <;> decide⟩

theorem break_closing : Break ')' := ⟨rfl, fun c => by cases c <;> decide⟩

theorem scan_opening (s : List Char) : scan ('(' :: s) = .opening :: scan s := rfl

theorem scan_closing (s : List Char) : scan (')' :: s) = .closing :: scan s := rfl

theorem scan_comma (s : List Char) : scan (',' :: s) = .connective .all :: scan s := rfl

theorem isAlpha_of_toUpper_mem {c : Connective} (h : x.toUpper ∈ c.letters) : x.isAlpha := by
  have hmem : x.toUpper ∈ ['A', 'N', 'D', 'O', 'R'] := by
    cases c
    · exact List.mem_append_left ['O', 'R'] h
    · exact List.mem_append_right ['A', 'N', 'D'] h
  unfold Char.toUpper at hmem
  split at hmem
  next hlow =>
    have hlower : x.isLower :=
      Bool.and_eq_true_iff.2 ⟨decide_eq_true hlow.1, decide_eq_true hlow.2⟩
    exact Bool.or_eq_true_iff.2 (.inr hlower)
  next =>
    simp only [List.mem_cons, List.not_mem_nil, or_false] at hmem
    rcases hmem with rfl | rfl | rfl | rfl | rfl <;> rfl

theorem toNat_of_toUpper_mem {c : Connective} (h : x.toUpper ∈ c.letters) :
    65 ≤ x.toNat ∧ x.toNat ≤ 122 :=
  Text.isAlpha_bounds (isAlpha_of_toUpper_mem h)

theorem break_of_isBlankChar (h : Text.isBlankChar x) : Break x := by
  rw [Text.isBlankChar_iff] at h
  constructor
  · rw [Bool.eq_false_iff]
    intro hd
    rw [Text.isDigit_iff] at hd
    omega
  · intro c hc
    have := toNat_of_toUpper_mem hc
    omega

theorem scan_cons_blank (h : Text.isBlankChar x) : scan (x :: s) = scan s := by
  have hx := break_of_isBlankChar h
  have hne : ∀ y : Char, Text.isBlankChar y = false → x ≠ y := by
    rintro y hy rfl
    rw [h] at hy
    cases hy
  have hnone : symbol? (x :: s) = none := by
    rw [symbol?_of_ne (hne '(' rfl) (hne ')' rfl) (hne ',' rfl),
      not_startsKeyword_cons (hx.2 .all), not_startsKeyword_cons (hx.2 .any)]
    rfl
  rw [scan, scanFrom_cons_of_not_digit false hx.1, hnone]
  rfl

theorem scan_blanks {w : List Char} (h : Text.isBlank w) : scan (w ++ s) = scan s := by
  induction w with
  | nil => rfl
  | cons y w ih =>
    rw [Text.isBlank, List.all_cons, Bool.and_eq_true] at h
    rw [List.cons_append, scan_cons_blank h.1, ih h.2]

/-- Letters are no digits and no punctuation. -/
theorem scan_cons_letter {c : Connective} {y : Char} (h : y.toUpper ∈ c.letters) :
    scan (y :: s) = (if startsKeyword .all (y :: s) then [.connective .all]
      else if startsKeyword .any (y :: s) then [.connective .any] else []) ++ scan s := by
  have hrange := toNat_of_toUpper_mem h
  have hdigit : y.isDigit = false := by
    rw [Bool.eq_false_iff]
    intro hd
    rw [Text.isDigit_iff] at hd
    omega
  have hne : ∀ z : Char, z.toNat < 65 → y ≠ z := by
    rintro z hz rfl
    omega
  rw [scan, scanFrom_cons_of_not_digit false hdigit,
    symbol?_of_ne (hne '(' (by decide)) (hne ')' (by decide)) (hne ',' (by decide))]
  split
  · rfl
  · split <;> rfl

theorem startsKeyword_head {c : Connective} {y : Char} (h : startsKeyword c (y :: s)) :
    c.letters.head? = some y.toUpper := by
  have h' := beq_iff_eq.1 h
  rw [← h']
  cases c <;> rfl

/-- No keyword begins inside another one. -/
theorem head?_letters_ne (c d : Connective) : ∀ y ∈ c.letters.tail, d.letters.head? ≠ some y := by
  cases c <;> cases d <;> simp [Connective.letters]

theorem scan_letters_tail {c : Connective} {w : List Char}
    (h : ∀ y ∈ w, y.toUpper ∈ c.letters.tail) : scan (w ++ s) = scan s := by
  induction w with
  | nil => rfl
  | cons y w ih =>
    have hy := h y List.mem_cons_self
    have hno : ∀ d, ¬ startsKeyword d (y :: (w ++ s)) := fun d hd =>
      head?_letters_ne c d _ hy (startsKeyword_head hd)
    rw [List.cons_append, scan_cons_letter (List.mem_of_mem_tail hy), if_neg (hno .all),
      if_neg (hno .any), List.nil_append, ih fun z hz => h z (List.mem_cons_of_mem y hz)]

theorem map_toUpper_letters (c : Connective) : c.letters.map Char.toUpper = c.letters := by
  cases c <;> rfl

/-- The keyword of a connective is read in any case. -/
theorem scan_keyword {c : Connective} {w : List Char} (h : w.map Char.toUpper = c.letters) :
    scan (w ++ s) = .connective c :: scan s := by
  have hstart : startsKeyword c (w ++ s) := by
    have hlen : c.letters.length = w.length := by rw [← h, List.length_map]
    rw [startsKeyword, hlen, List.take_left, h, beq_self_eq_true]
  cases w with
  | nil => cases c <;> cases h
  | cons y w =>
    have hy : y.toUpper ∈ c.letters := h ▸ List.mem_cons_self
    have hw : ∀ z ∈ w, z.toUpper ∈ c.letters.tail := fun z hz => h ▸ List.mem_map_of_mem hz
    rw [List.cons_append] at hstart ⊢
    rw [scan_cons_letter hy, scan_letters_tail hw]
    cases c with
    | all => rw [if_pos hstart, List.singleton_append]
    | any =>
      have hno : ¬ startsKeyword .all (y :: (w ++ s)) := fun hall => by
        cases (startsKeyword_head hall).trans (startsKeyword_head hstart).symm
      rw [if_neg hno, if_pos hstart, List.singleton_append]

/-! ## Numerals -/

theorem scanFrom_true_digits {d : List Char} (hd : ∀ y ∈ d, y.isDigit) :
    scanFrom true (d ++ s) = scanFrom true s := by
  induction d with
  | nil => rfl
  | cons y d ih =>
    rw [List.cons_append, scanFrom, if_pos (hd y List.mem_cons_self), if_pos rfl,
      ih fun z hz => hd z (List.mem_cons_of_mem y hz)]

/-- A run of digits is read as a whole. -/
theorem scan_digits {d : List Char} (hd : ∀ y ∈ d, y.isDigit)
    (hs : ∀ y ∈ s.head?, y.isDigit = false) :
    scan (d ++ s) = ((Node.read? d).map node).toList ++ scan s := by
  cases d with
  | nil => rfl
  | cons y d =>
    have hd' : ∀ z ∈ d, z.isDigit := fun z hz => hd z (List.mem_cons_of_mem y hz)
    have hrun : (d ++ s).takeWhile Char.isDigit = d := by
      rw [List.takeWhile_append_of_pos hd']
      cases s with
      | nil => simp
      | cons z s => rw [List.takeWhile_cons_of_neg (by simpa using hs z rfl), List.append_nil]
    rw [List.cons_append, scan, scanFrom, if_pos (hd y List.mem_cons_self), if_neg Bool.false_ne_true,
      hrun, scanFrom_true_digits hd', scanFrom_eq_scan true hs]

theorem scan_numeral (n : Node) : scan n.digits = [.node n] := by
  have hdigits : ∀ y ∈ n.digits, y.isDigit := fun y hy => Node.isDigit_of_mem_digits hy
  have h := scan_digits (s := []) hdigits nofun
  rw [List.append_nil, Node.read?_digits] at h
  exact h

end Prereq.Token
