import Prereq.Proofs.Requirement.Combination
import Prereq.Proofs.Requirement.RoundTrip

/-!
# Pathways read back

A text that is written from any requirement, empty groups and groups of one part included, is read
with the pathways of that requirement, although not always as the same tree.

* `Reading.Conjoins`, `Reading.Alternates` : tokens that add pathways to a level, as operands under
  AND or as alternatives under OR;
* `Reading.Expands` : the one or the other, by the connective (`Reading.Expands.append`,
  `Reading.expands_of_operand`, `Reading.Expands.pathwaysOf_value`);
* `Reading.expands_tokensIn` : the tokens of a requirement add its pathways;
* `Requirement.pathways_read?_render` : the pathways of a text are those of its requirement.

Empty groups leave blanks, keywords side by side, or `()`. These add nothing, and the empty list is
the identity of both operations on pathways.
-/

namespace Prereq

namespace Reading

open Token (Balanced)
open Pathway
open Requirement (pathwaysOf pathwaysOf_join joinTokens tokensIn tokens)

variable {c : Connective} {ts us : List Token} {ps qs : List Pathway} {r : Option Requirement}
  {l : Level}

/-! ## Tokens that add pathways -/

/-- The tokens are operands under AND, with pathways `ps` all together. -/
structure Conjoins (ts : List Token) (ps : List Pathway) : Prop where
  before : ∀ l : Level, (l.read ts).before = l.before
  current : ∀ l : Level, pathwaysOf (l.read ts).current = product (pathwaysOf l.current) ps

/-- The tokens are alternatives under OR, with pathways `ps` all together. Unless the last of them
has ended, a further one begins after them. -/
structure Alternates (ts : List Token) (ps : List Pathway) : Prop where
  ended : ∀ l : Level, l.Ready .any → (l.read ts).due → (l.read ts).current = none
  value : ∀ l : Level, l.Ready .any → pathwaysOf (l.read ts).value = pathwaysOf l.value ++ ps

/-- The tokens are parts under connective `c`, with pathways `ps` all together. -/
def Expands : Connective → List Token → List Pathway → Prop
  | .all => Conjoins
  | .any => Alternates

theorem expands_nil (c : Connective) : Expands c [] [] := by
  cases c with
  | all => exact ⟨fun _ => rfl, fun _ => (product_nil _).symm⟩
  | any => exact ⟨fun _ hl _ => hl rfl, fun _ _ => (List.append_nil _).symm⟩

theorem Level.value_of_ready (hl : l.Ready .any) : l.value = l.before := by
  rw [Level.value, hl rfl]
  cases l.before <;> rfl

/-- What is read as one operand is a part under either connective. -/
theorem expands_of_operand (c : Connective) (h : ∀ l : Level, l.read ts = l.operand r) :
    Expands c ts (pathwaysOf r) := by
  cases c with
  | all =>
    refine ⟨fun l => by rw [h]; rfl, fun l => ?_⟩
    rw [h, Level.operand, pathwaysOf_join]
    rfl
  | any =>
    refine ⟨fun l _ hdue => ?_, fun l hl => ?_⟩
    · rw [h] at hdue
      cases hdue
    · rw [h, Level.value_of_ready hl, Level.operand, hl rfl, Level.value, pathwaysOf_join]
      rfl

/-- Operands side by side need nothing between them. -/
theorem Conjoins.beside (balanced : Balanced ts) (hts : Conjoins ts ps) (hus : Conjoins us qs) :
    Conjoins (ts ++ us) (product ps qs) := by
  constructor
  · intro l
    rw [Level.read_append balanced, hus.before, hts.before]
  · intro l
    rw [Level.read_append balanced, hus.current, hts.current, product_assoc]

/-- An AND, or a comma, adds nothing. -/
theorem Conjoins.connective (hus : Conjoins us qs) : Conjoins (.connective .all :: us) qs := by
  constructor
  · intro l
    rw [Level.read_connective, hus.before]
    rfl
  · intro l
    rw [Level.read_connective, hus.current]
    rfl

/-- Operands of which the last one is complete are one alternative. -/
theorem Conjoins.alternates (h : Conjoins ts ps) (hdue : ∀ l : Level, (l.read ts).due = false) :
    Alternates ts ps := by
  constructor
  · intro l _ hl
    rw [hdue] at hl
    cases hl
  · intro l hl
    rw [Level.value, pathwaysOf_join, h.before, h.current, hl rfl, Level.value_of_ready hl]
    rfl

/-- An OR after alternatives: the next alternative begins, and what has been read stays. -/
theorem Alternates.connective (h : Alternates ts ps) (hl : l.Ready .any) :
    ((l.read ts).connective .any).Ready .any ∧
      ((l.read ts).connective .any).value = (l.read ts).value := by
  by_cases hdue : (l.read ts).due
  · rw [Level.connective, if_pos hdue]
    exact ⟨fun _ => h.ended l hl hdue, rfl⟩
  · rw [Level.connective, if_neg hdue]
    exact ⟨fun _ => rfl, Level.value_of_ready fun _ => rfl⟩

theorem Alternates.append (balanced : Balanced ts) (hts : Alternates ts ps)
    (hus : Alternates us qs) : Alternates (ts ++ .connective .any :: us) (ps ++ qs) := by
  constructor
  · intro l hl hdue
    rw [Level.read_append balanced, Level.read_connective] at hdue ⊢
    exact hus.ended _ (hts.connective hl).1 hdue
  · intro l hl
    obtain ⟨hready, hvalue⟩ := hts.connective hl
    rw [Level.read_append balanced, Level.read_connective, hus.value _ hready, hvalue,
      hts.value l hl, List.append_assoc]

theorem Expands.append (balanced : Balanced ts) (hts : Expands c ts ps) (hus : Expands c us qs) :
    Expands c (ts ++ .connective c :: us) (combine c ps qs) := by
  cases c with
  | all => exact Conjoins.beside balanced hts (Conjoins.connective hus)
  | any => exact Alternates.append balanced hts hus

/-- The pathways of a level that holds nothing but some parts. -/
theorem Expands.pathwaysOf_value (h : Expands c ts ps) :
    pathwaysOf (Level.start.read ts).value = ps := by
  cases c with
  | all =>
    have hbefore : (Level.start.read ts).before = none := Conjoins.before h Level.start
    rw [Level.value, hbefore]
    exact Conjoins.current h Level.start
  | any => exact Alternates.value h Level.start fun _ => rfl

theorem expands_parentheses (balanced : Balanced ts)
    (h : pathwaysOf (Level.start.read ts).value = ps) (c : Connective) :
    Expands c (.opening :: ts ++ [.closing]) ps := by
  rw [← h]
  exact expands_of_operand c fun l => Level.read_parentheses balanced l

/-! ## Requirements -/

theorem expands_joinTokens {parts : List Requirement}
    (h : ∀ p ∈ parts, Expands c (p.tokensIn (some c)) p.pathways) :
    Expands c (joinTokens c (parts.map (tokensIn · (some c))))
      (Requirement.group c parts).pathways := by
  induction parts with
  | nil =>
    rw [Requirement.pathways_group_nil]
    exact expands_nil c
  | cons p parts ih =>
    obtain ⟨hp, hparts⟩ := List.forall_mem_cons.1 h
    cases parts with
    | nil =>
      rw [List.map_singleton, Requirement.joinTokens_singleton,
        Requirement.pathways_group_singleton]
      exact hp
    | cons q parts =>
      rw [List.map_cons, List.map_cons, Requirement.joinTokens_cons_cons,
        Requirement.pathways_group_cons]
      exact hp.append (Requirement.balanced_tokensIn p _) (ih hparts)

/-- The tokens of a requirement within a group add its pathways to the group. -/
theorem expands_tokensIn (r : Requirement) (c : Connective) :
    Expands c (r.tokensIn (some c)) r.pathways := by
  induction r generalizing c with
  | node n => exact expands_of_operand c fun l => l.read_node n []
  | group d parts ih =>
    have hparts := expands_joinTokens fun p hp => ih p hp d
    rw [Requirement.tokensIn_group]
    split
    next hcd =>
      obtain rfl : c = d := by simpa using hcd
      exact hparts
    next =>
      have hbalanced := Requirement.balanced_tokens (.group d parts)
      rw [Requirement.tokens_group] at hbalanced
      exact expands_parentheses hbalanced hparts.pathwaysOf_value c

theorem pathwaysOf_ofTokens?_tokens (r : Requirement) :
    pathwaysOf (Requirement.ofTokens? r.tokens) = r.pathways := by
  rw [value_read_balanced (Requirement.balanced_tokens r)]
  cases r with
  | node n => rfl
  | group c parts =>
    rw [Requirement.tokens_group]
    exact (expands_joinTokens fun p _ => expands_tokensIn p c).pathwaysOf_value

end Reading

namespace Requirement

theorem pathwaysOf_read?_eq_nil_iff {s : String} : pathwaysOf (read? s) = [] ↔ read? s = none := by
  cases h : read? s with
  | none => exact iff_of_true rfl rfl
  | some r =>
    refine iff_of_false (fun hnil => ?_) nofun
    exact (gathered_of_read? h).filled.leaves_ne_nil (pathways_eq_nil_iff.1 hnil)

/-- **Writing keeps the pathways.** What is read from the text of a requirement has its pathways,
in the same order, if parentheses nest no deeper than they count; and nothing is read just if the
requirement has no node. -/
theorem pathways_read?_render (r : Requirement)
    (hdepth : Text.nesting r.chars ≤ Token.nestingLimit) :
    pathwaysOf (read? (render (some r))) = pathwaysOf (some r) ∧
    (read? (render (some r)) = none ↔ r.leaves = []) := by
  have hpathways : pathwaysOf (read? (render (some r))) = r.pathways := by
    rw [read?_eq_ofTokens? (scan_render r) (nesting_chars r ▸ hdepth), Reading.pathwaysOf_ofTokens?_tokens]
  refine ⟨hpathways, ?_⟩
  rw [← pathwaysOf_read?_eq_nil_iff, hpathways, pathways_eq_nil_iff]

/-- Groups without parts, with one part, and within groups of their own connective. -/
def ragged : Requirement :=
  .group .all [.group .any [], .group .any [.group .all [.node 1]],
    .group .all [.group .any [.group .any [], .node 2, .group .all []], .node 3]]

theorem pathways_read?_render_ragged : Text.nesting ragged.chars ≤ Token.nestingLimit ∧
    pathwaysOf (read? (render (some ragged))) = pathwaysOf (some ragged) ∧
    (read? (render (some ragged)) = none ↔ ragged.leaves = []) := by
  have depth : Text.nesting ragged.chars ≤ Token.nestingLimit := by decide +kernel
  exact ⟨depth, pathways_read?_render ragged depth⟩

end Requirement

end Prereq
