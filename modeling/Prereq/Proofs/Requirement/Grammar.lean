import Prereq.Proofs.Requirement.Expansion
import Prereq.Requirement.Grammar

/-!
# Texts by the grammar

* `Grammar.Rendering.scan_eq` : a text of some lexemes has their tokens;
* `Grammar.Disjunction.alternates`, `Grammar.Conjunction.conjoins`, `Grammar.Operand.read` : the
  tokens of a derivation add its pathways to the level that they are read in, one rule at a time;
* `Grammar.pathways_of_rendering` : a text of a derivation has its pathways.
-/

namespace Prereq.Grammar

open Token (Balanced)
open Reading (Conjoins Alternates Level)
open Requirement (pathwaysOf read?)

/-! ## Tokens -/

/-- The token that a lexeme is scanned as; a comma stands for AND. -/
def Lexeme.token : Lexeme → Token
  | .opening => .opening
  | .closing => .closing
  | .keyword c => .connective c
  | .comma => .connective .all
  | .number n => .node n

theorem Lexeme.Spells.scan_append {x : Lexeme} {word rest : List Char} (h : x.Spells word)
    (apart : x.isNumber → ∀ y ∈ rest.head?, y.isDigit = false) :
    Token.scan (word ++ rest) = x.token :: Token.scan rest := by
  cases x with
  | opening =>
    obtain rfl : word = ['('] := h
    exact Token.scan_opening rest
  | closing =>
    obtain rfl : word = [')'] := h
    exact Token.scan_closing rest
  | keyword c => exact Token.scan_keyword h
  | comma =>
    obtain rfl : word = [','] := h
    exact Token.scan_comma rest
  | number n =>
    obtain ⟨hne, hdigits, hvalue⟩ := h
    have hread : Node.read? word = some n := by
      rw [Node.read?, if_pos ⟨hne, List.all_eq_true.2 hdigits⟩]
      exact Node.ofNat?_eq_some_iff.2 hvalue.symm
    rw [Token.scan_digits hdigits (apart rfl), hread]
    rfl

theorem Rendering.scan_eq {xs : List Lexeme} {s : List Char} (h : Rendering xs s) :
    Token.scan s = xs.map Lexeme.token := by
  induction h with
  | @nil blanks blank =>
    rw [← List.append_nil blanks, Token.scan_blanks blank]
    rfl
  | cons blank spells apart _ ih =>
    rw [Token.scan_blanks blank, spells.scan_append apart, ih, List.map_cons]

/-- The tokens of a disjunction. -/
def Disjunction.tokens (d : Disjunction) : List Token := d.lexemes.map Lexeme.token

/-- The tokens of a conjunction. -/
def Conjunction.tokens (k : Conjunction) : List Token := k.lexemes.map Lexeme.token

/-- The tokens of an operand. -/
def Operand.tokens (o : Operand) : List Token := o.lexemes.map Lexeme.token

theorem Disjunction.tokens_more (k : Conjunction) (rest : Disjunction) :
    (more k rest).tokens = k.tokens ++ .connective .any :: rest.tokens := by
  simp [tokens, lexemes, Conjunction.tokens, Lexeme.token]

theorem Conjunction.tokens_more (o : Operand) (j : Juncture) (rest : Conjunction) :
    (more o j rest).tokens = o.tokens ++ (j.lexemes.map Lexeme.token ++ rest.tokens) := by
  simp [tokens, lexemes, Operand.tokens]

theorem Operand.tokens_group (d : Disjunction) :
    (group d).tokens = .opening :: d.tokens ++ [.closing] := by
  simp [tokens, lexemes, Disjunction.tokens, Lexeme.token]

/-! ## Parentheses have partners -/

theorem Juncture.balanced (j : Juncture) : Balanced (j.lexemes.map Lexeme.token) := by
  cases j with
  | keyword => exact Balanced.nil.connective .all
  | comma => exact Balanced.nil.connective .all
  | nothing => exact .nil

mutual

theorem Disjunction.balanced : (d : Disjunction) → Balanced d.tokens
  | .last k => k.balanced
  | .more k rest => by
    rw [Disjunction.tokens_more]
    exact k.balanced.append (rest.balanced.connective .any)

theorem Conjunction.balanced : (k : Conjunction) → Balanced k.tokens
  | .last o => o.balanced
  | .more o j rest => by
    rw [Conjunction.tokens_more]
    exact o.balanced.append (j.balanced.append rest.balanced)

theorem Operand.balanced : (o : Operand) → Balanced o.tokens
  | .number n => Balanced.nil.node n
  | .group d => by
    rw [Operand.tokens_group]
    exact d.balanced.group .nil

end

/-! ## Pathways -/

mutual

theorem Disjunction.pathways_ne_nil : (d : Disjunction) → d.pathways ≠ []
  | .last k => k.pathways_ne_nil
  | .more k _ => fun h => k.pathways_ne_nil (List.append_eq_nil_iff.1 h).1

theorem Conjunction.pathways_ne_nil : (k : Conjunction) → k.pathways ≠ []
  | .last o => o.pathways_ne_nil
  | .more o j rest => by
    have hproduct := Pathway.product_of_ne_nil o.pathways_ne_nil rest.pathways_ne_nil
    rw [Conjunction.pathways, ← hproduct]
    exact fun h => o.pathways_ne_nil (Pathway.product_eq_nil_iff.1 h).1

theorem Operand.pathways_ne_nil : (o : Operand) → o.pathways ≠ []
  | .number n => List.cons_ne_nil [n] []
  | .group d => d.pathways_ne_nil

end

/-- A keyword or a comma between operands adds nothing to them. -/
theorem Juncture.conjoins_append (j : Juncture) {ts : List Token} {ps : List Pathway}
    (h : Conjoins ts ps) : Conjoins (j.lexemes.map Lexeme.token ++ ts) ps := by
  cases j with
  | keyword => exact h.connective
  | comma => exact h.connective
  | nothing => exact h

mutual

/-- A disjunction adds its pathways as alternatives. -/
theorem Disjunction.alternates : (d : Disjunction) → Alternates d.tokens d.pathways
  | .last k => k.conjoins.alternates k.due_read
  | .more k rest => by
    rw [Disjunction.tokens_more]
    exact (k.conjoins.alternates k.due_read).append k.balanced rest.alternates

/-- A conjunction adds its pathways as operands under AND. -/
theorem Conjunction.conjoins : (k : Conjunction) → Conjoins k.tokens k.pathways
  | .last o => o.conjoins
  | .more o j rest => by
    have hproduct := Pathway.product_of_ne_nil o.pathways_ne_nil rest.pathways_ne_nil
    rw [Conjunction.tokens_more, Conjunction.pathways, ← hproduct]
    exact Conjoins.beside o.balanced o.conjoins (j.conjoins_append rest.conjoins)

/-- A conjunction ends with an operand, so that an OR after it ends an alternative. -/
theorem Conjunction.due_read : (k : Conjunction) → (l : Level) → (l.read k.tokens).due = false
  | .last o, l => by
    obtain ⟨r, -, hread⟩ := o.exists_read
    show (l.read o.tokens).due = false
    rw [hread]
    rfl
  | .more o j rest, l => by
    rw [Conjunction.tokens_more, Level.read_append o.balanced, Level.read_append j.balanced]
    exact rest.due_read _

/-- An operand adds its pathways to the operands before it. -/
theorem Operand.conjoins (o : Operand) : Conjoins o.tokens o.pathways := by
  obtain ⟨r, hr, hread⟩ := o.exists_read
  rw [← hr]
  exact Reading.expands_of_operand .all hread

/-- An operand is read as one, with its pathways. -/
theorem Operand.exists_read :
    (o : Operand) → ∃ r, pathwaysOf r = o.pathways ∧ ∀ l : Level, l.read o.tokens = l.operand r
  | .number n => ⟨some (.node n), rfl, fun _ => rfl⟩
  | .group d => by
    have hvalue : pathwaysOf (Level.start.read d.tokens).value = d.pathways :=
      Reading.Expands.pathwaysOf_value (c := .any) d.alternates
    refine ⟨_, hvalue, fun l => ?_⟩
    rw [Operand.tokens_group, Level.read_parentheses d.balanced]

end

/-- **Reading follows the grammar.** A text of a derivation is read with the pathways of the
derivation, in their order, if parentheses nest no deeper than they count. -/
theorem pathways_of_rendering (d : Disjunction) (s : String)
    (rendering : Rendering d.lexemes s.toList)
    (depth : Text.nesting s.toList ≤ Token.nestingLimit) :
    pathwaysOf (read? s) = d.pathways := by
  have hscan : Token.scan s.toList = d.tokens := rendering.scan_eq
  have hnesting : Token.nesting d.tokens ≤ Token.nestingLimit := by
    rwa [← hscan, Token.nesting_scan]
  rw [read?, Token.ofText, hscan, Token.limitNesting_eq_self d.balanced hnesting,
    Reading.value_read_balanced d.balanced]
  exact Reading.Expands.pathwaysOf_value (c := .any) d.alternates

/-- One alternative of two operands in a group, the other of two operands side by side. -/
def mixture : Disjunction :=
  .more (.last (.group (.last (.more (.number 1) .comma (.last (.number 2))))))
    (.last (.more (.number 3) .nothing (.last (.number 4))))

theorem Lexeme.spells_digits (n : Node) : (Lexeme.number n).Spells n.digits :=
  ⟨Node.digits_ne_nil n, fun _ h => Node.isDigit_of_mem_digits h, Nat.ofDigitChars_ten_toDigits⟩

theorem pathways_of_rendering_mixture : Rendering mixture.lexemes "(1 ,2)oR 3\t4".toList ∧
    Text.nesting "(1 ,2)oR 3\t4".toList ≤ Token.nestingLimit ∧
    pathwaysOf (read? "(1 ,2)oR 3\t4") = [[1, 2], [3, 4]] := by
  have h₄ : Rendering [.number 4] ['\t', '4'] :=
    @Rendering.cons _ _ ['\t'] ['4'] [] rfl (Lexeme.spells_digits 4) (by simp) (.nil rfl)
  have h₃ : Rendering [.number 3, .number 4] [' ', '3', '\t', '4'] :=
    @Rendering.cons _ _ [' '] ['3'] _ rfl (Lexeme.spells_digits 3) (by simp) h₄
  have hor : Rendering [.keyword .any, .number 3, .number 4] ['o', 'R', ' ', '3', '\t', '4'] :=
    @Rendering.cons (.keyword .any) _ [] ['o', 'R'] _ rfl rfl nofun h₃
  have hclosing := @Rendering.cons .closing _ [] [')'] _ rfl rfl nofun hor
  have h₂ := @Rendering.cons _ _ [] ['2'] _ rfl (Lexeme.spells_digits 2) (by simp) hclosing
  have hcomma := @Rendering.cons .comma _ [' '] [','] _ rfl rfl nofun h₂
  have h₁ := @Rendering.cons _ _ [] ['1'] _ rfl (Lexeme.spells_digits 1) (by simp) hcomma
  have rendering : Rendering mixture.lexemes "(1 ,2)oR 3\t4".toList :=
    @Rendering.cons .opening _ [] ['('] _ rfl rfl nofun h₁
  have depth : Text.nesting "(1 ,2)oR 3\t4".toList ≤ Token.nestingLimit := by decide +kernel
  exact ⟨rendering, depth, pathways_of_rendering mixture _ rendering depth⟩

end Prereq.Grammar
