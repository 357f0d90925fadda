import Prereq.Proofs.Links.Ancestors
import Prereq.Proofs.Requirement.Cut
import Prereq.Proofs.Requirement.Irredundant

/-!
# Simplifying a text twice

Simplification writes every pair of parentheses that it needs, and may nest them deeper than the
text it was given. What nests too deep is read as another requirement.

* `Requirement.Irredundant.simplifyText_eq_iff` : the text of a simplified requirement stays just if
  no OR in it stands too deep;
* `Requirement.simplifyText_settles` : the same of every text that simplification gives, and that
  what the second simplification gives stays in any case;
* `Requirement.ladder` : alternatives and what is needed with them in turn;
  `Requirement.simplifyText_ladderText_ne` : the second simplification changes the text of a long
  one.
-/

namespace Prereq.Requirement

open Token (Balanced nestingLimit orDepth orDepthFrom)

variable {a : Ancestors} {r t : Requirement} {s : String}

/-! ## The text of a requirement -/

theorem simplifyText_render (a : Ancestors) (r : Requirement) :
    simplifyText a (render (some r)) = render ((r.cut 0).bind (simplify? a)) := by
  rw [simplifyText, read?_render_eq_cut]

/-- What simplification gives for the text of a canonical requirement has no OR too deep. -/
theorem Canonical.exists_simplifyText (hr : r.Canonical) (a : Ancestors) :
    ∃ t, simplifyText a (render (some r)) = render (some t) ∧ t.Irredundant a ∧
      orDepth t.tokens ≤ nestingLimit := by
  obtain ⟨x, hx, hdepth⟩ := hr.exists_cut (Nat.zero_le nestingLimit)
  have hgathered : x.Gathered := gathered_of_read? (read?_render_eq_cut r ▸ hx)
  obtain ⟨t, ht⟩ := Option.ne_none_iff_exists'.1 fun h =>
    hgathered.filled.leaves_ne_nil (simplify?_eq_none_iff (a := a).1 h)
  refine ⟨t, ?_, irredundant_of_simplify? ht, ?_⟩
  · rw [simplifyText_render, hx, Option.bind_some, ht]
  · exact Nat.le_trans (orDepthFrom_simplify?_le hgathered ht 0) hdepth

/-- The text of a simplified requirement stays just if no OR in it stands too deep. -/
theorem Irredundant.simplifyText_eq_iff (hr : r.Irredundant a) :
    simplifyText a (render (some r)) = render (some r) ↔ orDepth r.tokens ≤ nestingLimit := by
  constructor
  · intro h
    obtain ⟨t, ht, -, hdepth⟩ := hr.canonical.exists_simplifyText a
    rwa [← scan_render, ← h, ht, scan_render]
  · intro h
    rw [simplifyText_render, hr.canonical.cut_eq_self (Nat.zero_le _) h, Option.bind_some,
      hr.simplify?_eq]

/-! ## Any text -/

/-- Simplification gives the empty text or the text of a simplified requirement. -/
theorem exists_simplifyText (a : Ancestors) (s : String) :
    simplifyText a s = render none ∨
      ∃ t, simplifyText a s = render (some t) ∧ t.Irredundant a := by
  cases h : (read? s).bind (simplify? a) with
  | none => exact .inl (congrArg render h)
  | some t =>
    obtain ⟨r, -, ht⟩ := Option.bind_eq_some_iff.1 h
    exact .inr ⟨t, congrArg render h, irredundant_of_simplify? ht⟩

/-- **Simplifying twice.** The text that simplification gives stays if it is simplified again, just
if no OR in it stands within more parentheses than count. What the second simplification gives
stays in any case. -/
theorem simplifyText_settles (a : Ancestors) (s : String) :
    (simplifyText a (simplifyText a s) = simplifyText a s ↔
      orDepth (Token.scan (simplifyText a s).toList) ≤ nestingLimit) ∧
    simplifyText a (simplifyText a (simplifyText a s)) = simplifyText a (simplifyText a s) := by
  rcases exists_simplifyText a s with h | ⟨r, h, hr⟩
  · have hempty : simplifyText a (render none) = render none := rfl
    rw [h, hempty]
    exact ⟨iff_of_true rfl (Nat.zero_le _), hempty⟩
  · obtain ⟨t, ht, hirr, hdepth⟩ := hr.canonical.exists_simplifyText a
    rw [h, scan_render]
    refine ⟨hr.simplifyText_eq_iff, ?_⟩
    rw [ht]
    exact hirr.simplifyText_eq_iff.2 hdepth

/-! ## Ladders -/

/-- An alternative to a lower ladder that is needed with one more node. -/
def ladder : (rungs : Nat) → Requirement
  | 0 => .group .any [.node 0, .node 1]
  | k + 1 => .group .any
      [.group .all [ladder k, .node (.ofNat (2 * k + 2))], .node (.ofNat (2 * k + 3))]

/-- The tokens of a ladder with parentheses only around the lower one: AND binds closer than OR. -/
def ladderTokens : (rungs : Nat) → List Token
  | 0 => [.node 0, .connective .any, .node 1]
  | k + 1 => .opening :: (ladderTokens k ++ .closing :: [.connective .all,
      .node (.ofNat (2 * k + 2)), .connective .any, .node (.ofNat (2 * k + 3))])

/-- A ladder, written with these parentheses. -/
def ladderText (k : Nat) : String := String.ofList (Token.write (ladderTokens k))

theorem connective?_ladder (k : Nat) : (ladder k).connective? = some .any := by
  cases k <;> rfl

theorem canonical_ladder (k : Nat) : (ladder k).Canonical := by
  induction k with
  | zero => simp [ladder, canonical_group, canonical_node]
  | succ k ih => simp [ladder, canonical_group, canonical_node, connective?_ladder, ih]

theorem leaves_ladder (k : Nat) :
    (ladder k).leaves = (List.range (2 * k + 2)).map UInt64.ofNat := by
  induction k with
  | zero => rfl
  | succ k ih =>
    rw [Nat.mul_succ, List.range_succ, List.range_succ, ladder]
    simp [ih]

/-- Where nothing is recorded, a ladder is simplified as it is. -/
theorem irredundant_ladder {k : Nat} (hk : k ≤ nestingLimit) : (ladder k).Irredundant ∅ := by
  have hlimit : nestingLimit = 128 := rfl
  have hsize : UInt64.size = 18446744073709551616 := rfl
  have hnodup : (ladder k).leaves.Nodup := by
    rw [leaves_ladder]
    refine List.nodup_range.map_on fun i hi j hj hij => ?_
    rw [List.mem_range] at hi hj
    have hnat := congrArg UInt64.toNat hij
    rwa [UInt64.toNat_ofNat_of_lt' (by omega), UInt64.toNat_ofNat_of_lt' (by omega)] at hnat
  refine (canonical_ladder k).irredundant (hnodup.imp fun hne => ?_)
  rw [Ancestors.covers_empty, Ancestors.covers_empty]
  exact ⟨hne, hne.symm⟩

/-- Each rung puts two pairs of parentheses around the rungs below it. -/
theorem le_orDepthFrom_ladder (d k : Nat) : d + 2 * k ≤ orDepthFrom d (ladder k).tokens := by
  induction k generalizing d with
  | zero => exact Nat.le_max_left d 0
  | succ k ih =>
    have hlower : (ladder k).connective? ≠ some .all := by simp [connective?_ladder]
    calc d + 2 * (k + 1)
        = d + 1 + 1 + 2 * k := by omega
      _ ≤ orDepthFrom (d + 1 + 1) (ladder k).tokens := ih _
      _ = orDepthFrom (d + 1) ((ladder k).tokensIn (some .all)) :=
          (orDepthFrom_tokensIn_of_ne hlower).symm
      _ ≤ orDepthFrom (d + 1) (group .all [ladder k, .node (.ofNat (2 * k + 2))]).tokens :=
          orDepthFrom_part_le List.mem_cons_self
      _ = orDepthFrom d
            ((group .all [ladder k, .node (.ofNat (2 * k + 2))]).tokensIn (some .any)) :=
          (orDepthFrom_tokensIn_of_ne (by simp)).symm
      _ ≤ orDepthFrom d (ladder (k + 1)).tokens := orDepthFrom_part_le List.mem_cons_self

theorem balanced_ladderTokens (k : Nat) : Balanced (ladderTokens k) := by
  induction k with
  | zero => exact ((Balanced.nil.node 1).connective .any).node 0
  | succ k ih => exact ih.group ((((Balanced.nil.node _).connective .any).node _).connective .all)

theorem nestingFrom_ladderTokens (d k : Nat) : Token.nestingFrom d (ladderTokens k) ≤ d + k := by
  induction k generalizing d with
  | zero => exact Nat.zero_le _
  | succ k ih =>
    have hlower := ih (d + 1)
    rw [ladderTokens, Token.nestingFrom, (balanced_ladderTokens k).nestingFrom_append]
    simp only [Token.nestingFrom]
    omega

theorem value_read_ladderTokens (k : Nat) :
    (Reading.Level.start.read (ladderTokens k)).value = some (ladder k) := by
  induction k with
  | zero => rfl
  | succ k ih =>
    have hlower : (ladder k).connective? ≠ some .all := by simp [connective?_ladder]
    have happend := append_of_ne hlower (.node (.ofNat (2 * k + 2)))
    rw [ladderTokens, Reading.Level.read_group (balanced_ladderTokens k), ih]
    show some (append .any (append .all (ladder k) _) _) = _
    rw [happend]
    rfl

theorem read?_ladderText {k : Nat} (hk : k ≤ nestingLimit) :
    read? (ladderText k) = some (ladder k) := by
  have hnesting := nestingFrom_ladderTokens 0 k
  rw [Nat.zero_add] at hnesting
  rw [ladderText, Reading.read?_write (balanced_ladderTokens k) (Nat.le_trans hnesting hk),
    value_read_ladderTokens]

theorem simplifyText_ladderText {k : Nat} (hk : k ≤ nestingLimit) :
    simplifyText ∅ (ladderText k) = render (some (ladder k)) := by
  rw [simplifyText, read?_ladderText hk, Option.bind_some, (irredundant_ladder hk).simplify?_eq]

/-- In the short text of a ladder all parentheses count. In the text that simplification gives for
it there are twice as many, and from 65 rungs on they do not. -/
theorem simplifyText_ladderText_ne {k : Nat} (hk : k ≤ nestingLimit)
    (hlong : nestingLimit < 2 * k) :
    simplifyText ∅ (simplifyText ∅ (ladderText k)) ≠ simplifyText ∅ (ladderText k) := by
  have hdepth := le_orDepthFrom_ladder 0 k
  rw [simplifyText_ladderText hk, Ne, (irredundant_ladder hk).simplifyText_eq_iff, orDepth]
  omega

/-- The shortest ladder that the second simplification changes. -/
theorem simplifyText_ladderText_sixtyFive_ne :
    simplifyText ∅ (simplifyText ∅ (ladderText 65)) ≠ simplifyText ∅ (ladderText 65) :=
  simplifyText_ladderText_ne (by decide) (by decide)

end Prereq.Requirement
