import Prereq.Proofs.Token.Nesting
import Prereq.Requirement.Writer

/-!
# The tokens of a written requirement

* `Requirement.tokensIn`, `Requirement.tokens` : the tokens that stand for a requirement, written
  within a group or by itself;
* `Requirement.scan_chars` : its text has these tokens;
* `Requirement.balanced_tokens` : every parenthesis in it has its partner;
* `Requirement.nestingFrom_joinTokens_le` : how deep the tokens of some parts nest.
-/

namespace Prereq.Requirement

variable {c : Connective}

/-- The tokens of parts with a connective between them. -/
def joinTokens (c : Connective) (parts : List (List Token)) : List Token :=
  [Token.connective c].intercalate parts

/-- The tokens of a requirement written within a group of connective `context`, or by itself
without one. -/
def tokensIn : Requirement → (context : Option Connective) → List Token :=
  fold (fun n _ => [.node n]) fun c parts context =>
    let inner := joinTokens c (parts.map (· (some c)))
    if context.all (· = c) then inner else .opening :: inner ++ [.closing]

/-- The tokens of a requirement written by itself. -/
def tokens (r : Requirement) : List Token := r.tokensIn none

theorem tokensIn_group (c : Connective) (parts : List Requirement) (context : Option Connective) :
    (group c parts).tokensIn context =
      if context.all (· = c) then joinTokens c (parts.map (tokensIn · (some c)))
      else .opening :: joinTokens c (parts.map (tokensIn · (some c))) ++ [.closing] := by
  simp [tokensIn, Function.comp_def]

theorem tokens_group (c : Connective) (parts : List Requirement) :
    (group c parts).tokens = joinTokens c (parts.map (tokensIn · (some c))) := by
  simp [tokens, tokensIn_group]

/-! ## Parts with connectives between them -/

theorem joinParts_cons_cons (c : Connective) (x y : List Char) (xs : List (List Char)) :
    joinParts c (x :: y :: xs) = x ++ ' ' :: (c.letters ++ ' ' :: joinParts c (y :: xs)) := by
  simp [joinParts, List.intercalate, Connective.separator]

theorem joinTokens_singleton (c : Connective) (x : List Token) : joinTokens c [x] = x := by
  simp [joinTokens, List.intercalate]

theorem joinTokens_cons_cons (c : Connective) (x y : List Token) (xs : List (List Token)) :
    joinTokens c (x :: y :: xs) = x ++ .connective c :: joinTokens c (y :: xs) := by
  simp [joinTokens, List.intercalate]

/-- After the first part, each part follows its connective. -/
theorem joinTokens_cons (c : Connective) (x : List Token) (xs : List (List Token)) :
    joinTokens c (x :: xs) = x ++ xs.flatMap (.connective c :: ·) := by
  induction xs generalizing x with
  | nil => rw [joinTokens_singleton, List.flatMap_nil, List.append_nil]
  | cons y xs ih => rw [joinTokens_cons_cons, ih, List.flatMap_cons, List.cons_append]

/-! ## Scanning what is written -/

theorem scan_joinParts {texts : List (List Char)} :
    Token.scan (joinParts c texts) = joinTokens c (texts.map Token.scan) := by
  have hblank : Text.isBlankChar ' ' := rfl
  induction texts with
  | nil => rfl
  | cons x texts ih =>
    cases texts with
    | nil => simp [joinParts, List.intercalate, joinTokens]
    | cons y texts =>
      rw [joinParts_cons_cons, Token.scan_append_break (Token.break_of_isBlankChar hblank),
        Token.scan_cons_blank hblank, Token.scan_keyword (Token.map_toUpper_letters c),
        Token.scan_cons_blank hblank, ih]
      exact (joinTokens_cons_cons c _ _ _).symm

theorem scan_charsIn (r : Requirement) (context : Option Connective) :
    Token.scan (r.charsIn context) = r.tokensIn context := by
  induction r generalizing context with
  | node n => exact Token.scan_numeral n
  | group c parts ih =>
    have hparts : (parts.map (charsIn · (some c))).map Token.scan =
        parts.map (tokensIn · (some c)) := by
      rw [List.map_map]
      exact List.map_congr_left fun p hp => ih p hp (some c)
    rw [charsIn_group, tokensIn_group]
    split
    · rw [scan_joinParts, hparts]
    · rw [List.cons_append, Token.scan_opening, Token.scan_append_break Token.break_closing,
        scan_joinParts, hparts, Token.scan_closing]
      rfl

theorem scan_chars (r : Requirement) : Token.scan r.chars = r.tokens := scan_charsIn r none

/-! ## Parentheses -/

theorem balanced_joinTokens {parts : List (List Token)} (h : ∀ x ∈ parts, Token.Balanced x) :
    Token.Balanced (joinTokens c parts) := by
  induction parts with
  | nil => exact .nil
  | cons x parts ih =>
    have hx := h x List.mem_cons_self
    have hparts := ih fun y hy => h y (List.mem_cons_of_mem x hy)
    cases parts with
    | nil => rwa [joinTokens_singleton]
    | cons y parts =>
      rw [joinTokens_cons_cons]
      exact hx.append (hparts.connective c)

theorem balanced_tokensIn (r : Requirement) (context : Option Connective) :
    Token.Balanced (r.tokensIn context) := by
  induction r generalizing context with
  | node n => exact Token.Balanced.nil.node n
  | group c parts ih =>
    have hparts : Token.Balanced (joinTokens c (parts.map (tokensIn · (some c)))) := by
      refine balanced_joinTokens fun x hx => ?_
      obtain ⟨p, hp, rfl⟩ := List.mem_map.1 hx
      exact ih p hp (some c)
    rw [tokensIn_group]
    split
    · exact hparts
    · exact hparts.group .nil

theorem balanced_tokens (r : Requirement) : Token.Balanced r.tokens := balanced_tokensIn r none

theorem nestingFrom_joinTokens_le {parts : List (List Token)} {depth bound : Nat}
    (h : ∀ x ∈ parts, Token.Balanced x ∧ Token.nestingFrom depth x ≤ bound) :
    Token.nestingFrom depth (joinTokens c parts) ≤ bound := by
  induction parts with
  | nil => exact Nat.zero_le bound
  | cons x parts ih =>
    obtain ⟨hx, hparts⟩ := List.forall_mem_cons.1 h
    cases parts with
    | nil =>
      rw [joinTokens_singleton]
      exact hx.2
    | cons y parts =>
      have hrest := ih hparts
      rw [joinTokens_cons_cons, hx.1.nestingFrom_append, Token.nestingFrom]
      omega

end Prereq.Requirement
