import Prereq.Proofs.Requirement.OrDepth
import Prereq.Proofs.Requirement.RoundTrip

/-!
# Reading what nests too deep

Where too many groups are open, parentheses no longer count, and a requirement written there may be
read as another one of the same nodes. It is still read as itself if only parentheses around AND
are lost, as AND binds closer than OR without them.

* `Requirement.cut` : what is read of a requirement, written within some open groups
  (`Requirement.cut_group` : as long as parentheses count, part by part);
* `Requirement.Canonical.cut_eq_self` : it is the requirement itself if no OR stands too deep;
* `Requirement.Canonical.exists_cut` : no OR stands too deep in what is read.
-/

namespace Prereq

open Token (nestingLimit limitNestingFrom orDepthFrom)

namespace Requirement

/-- What is read of a requirement, written where `depth` groups are open. -/
def cut (depth : Nat) (r : Requirement) : Option Requirement :=
  (Reading.Level.start.read (limitNestingFrom depth r.tokens)).value

variable {c : Connective} {d k : Nat} {p q r x y : Requirement} {parts : List Requirement}

theorem ofTokens?_limitNestingFrom (d : Nat) (r : Requirement) :
    ofTokens? (limitNestingFrom d r.tokens) = r.cut d :=
  Reading.value_read_balanced ((balanced_tokens r).limitNestingFrom d)

theorem read?_render_eq_cut (r : Requirement) : read? (render (some r)) = r.cut 0 := by
  rw [read?, Token.ofText, scan_render, ← ofTokens?_limitNestingFrom]
  rfl

/-- No node is lost. -/
theorem leavesOf_cut (r : Requirement) (d : Nat) : leavesOf (r.cut d) = r.leaves := by
  rw [← ofTokens?_limitNestingFrom, leavesOf_ofTokens?, Token.nodes_limitNestingFrom]
  exact nodes_tokensIn r none

/-! ## Where parentheses count -/

theorem limitNestingFrom_joinTokens {xs : List (List Token)}
    (balanced : ∀ x ∈ xs, Token.Balanced x) :
    limitNestingFrom d (joinTokens c xs) = joinTokens c (xs.map (limitNestingFrom d)) := by
  induction xs with
  | nil => rfl
  | cons x xs ih =>
    obtain ⟨hx, hxs⟩ := List.forall_mem_cons.1 balanced
    cases xs with
    | nil => simp [joinTokens_singleton]
    | cons y ys =>
      have hrest := ih hxs
      rw [List.map_cons] at hrest
      rw [List.map_cons, List.map_cons, joinTokens_cons_cons, joinTokens_cons_cons,
        hx.limitNestingFrom_append, limitNestingFrom, hrest]

theorem limitNestingFrom_tokens_group (d : Nat) (c : Connective) (parts : List Requirement) :
    limitNestingFrom d (group c parts).tokens =
      joinTokens c (parts.map fun p => limitNestingFrom d (p.tokensIn (some c))) := by
  have balanced : ∀ x ∈ parts.map (tokensIn · (some c)), Token.Balanced x :=
    List.forall_mem_map.2 fun p _ => balanced_tokensIn p (some c)
  rw [tokens_group, limitNestingFrom_joinTokens balanced, List.map_map]
  rfl

theorem balanced_limitNestingFrom_tokensIn (d : Nat) (p : Requirement) (c : Connective) :
    Token.Balanced (limitNestingFrom d (p.tokensIn (some c))) :=
  (balanced_tokensIn p (some c)).limitNestingFrom d

/-- Within its parentheses, a part is read as one operand. -/
theorem read_limitNestingFrom_tokensIn (hp : p.connective? ≠ some c) (hd : d < nestingLimit)
    (l : Reading.Level) :
    l.read (limitNestingFrom d (p.tokensIn (some c))) = l.operand (p.cut (d + 1)) := by
  cases p with
  | node n => rfl
  | group b inner =>
    have hcb : c ≠ b := fun e => hp (e ▸ rfl)
    have hinner := balanced_tokens (group b inner)
    rw [tokensIn_group_of_ne hcb, Token.limitNestingFrom_parentheses hinner, if_pos hd,
      Reading.Level.read_parentheses (hinner.limitNestingFrom (d + 1)), cut]

/-- As long as parentheses count, what is read of a group is made of what is read of its parts. -/
theorem cut_group (hd : d < nestingLimit) (hne : ∀ q ∈ p :: parts, q.connective? ≠ some c)
    {g : Requirement → Requirement} (hg : ∀ q ∈ p :: parts, q.cut (d + 1) = some (g q)) :
    (group c (p :: parts)).cut d = some ((parts.map g).foldl (append c) (g p)) := by
  rw [cut, limitNestingFrom_tokens_group]
  refine Reading.Level.value_read_joinTokens
    (fun q _ => balanced_limitNestingFrom_tokensIn d q c) fun q hq l _ => ?_
  rw [read_limitNestingFrom_tokensIn (hne q hq) hd, hg q hq]

/-! ## Nothing too deep is read as it is -/

theorem Canonical.joint_of_orDepthFrom_lt (hr : r.Canonical) (h : orDepthFrom d r.tokens < d) :
    r.Joint := by
  induction r generalizing d with
  | node n => exact joint_node n
  | group c parts ih =>
    obtain ⟨hlen, hparts⟩ := canonical_group.1 hr
    obtain ⟨hle, hany⟩ :=
      orDepthFrom_tokens_group_le.1 (Nat.le_refl (orDepthFrom d (group c parts).tokens))
    cases c with
    | any => exact absurd (hany rfl hlen) (Nat.not_le.2 h)
    | all =>
      refine joint_all.2 fun p hp => ih p hp (hparts p hp).2 (d := d + 1) ?_
      have hp' := hle p hp
      rw [orDepthFrom_tokensIn_of_ne (hparts p hp).1] at hp'
      omega

/-- At the start of an alternative, a group under AND needs no parentheses. -/
theorem read_tokens_all {l : Reading.Level} (hl : l.current = none)
    (hr : (group .all parts).Canonical) :
    l.read (group .all parts).tokens = l.operand (some (group .all parts)) := by
  obtain ⟨hlen, hparts⟩ := canonical_group.1 hr
  cases parts with
  | nil => cases hlen
  | cons p qs =>
    have hread : ∀ q ∈ p :: qs, ∀ l : Reading.Level,
        l.read (q.tokensIn (some .all)) = l.operand (some q) := fun q hq =>
      Reading.Level.read_part (hparts q hq).2 (hparts q hq).1
    obtain ⟨hp, hqs⟩ := List.forall_mem_cons.1 hread
    have hfirst : l.operand (some p) = ⟨l.before, some p, false⟩ := by
      rw [Reading.Level.operand, hl]
      rfl
    rw [tokens_group, List.map_cons, joinTokens_cons,
      Reading.Level.read_append (balanced_tokensIn p _), hp, hfirst,
      Reading.Level.read_all_parts (g := id) (fun q _ => balanced_tokensIn q (some .all))
        fun q hq l _ => hqs q hq l,
      List.map_id, hr.foldl_append, Reading.Level.operand, hl]
    rfl

theorem read_tokensIn_of_joint {l : Reading.Level} (hl : l.Ready c) (hp : p.Canonical)
    (hjoint : p.Joint) (hc : p.connective? ≠ some c) :
    l.read (limitNestingFrom nestingLimit (p.tokensIn (some c))) = l.operand (some p) := by
  cases p with
  | node n => rfl
  | group b inner =>
    cases b with
    | any => exact absurd hjoint not_joint_any
    | all =>
      obtain rfl : c = .any := by
        cases c with
        | all => exact absurd rfl hc
        | any => rfl
      have hbalanced := balanced_tokens (group .all inner)
      have hflat :
          Token.nestingFrom (nestingLimit + 1) (group .all inner).tokens ≤ nestingLimit := by
        rw [tokens_group, hp.nestingFrom_all hjoint]
        exact Nat.zero_le _
      rw [tokensIn_group_of_ne (by simp), Token.limitNestingFrom_parentheses hbalanced,
        if_neg (Nat.lt_irrefl _), hbalanced.limitNestingFrom_eq_self hflat,
        read_tokens_all (hl rfl) hp]

theorem Canonical.cut_eq_self (hr : r.Canonical) (hd : d ≤ nestingLimit)
    (h : orDepthFrom d r.tokens ≤ nestingLimit) : r.cut d = some r := by
  induction r generalizing d with
  | node n => rfl
  | group c parts ih =>
    obtain ⟨hlen, hparts⟩ := canonical_group.1 hr
    have hdepth : ∀ q ∈ parts, orDepthFrom (d + 1) q.tokens ≤ nestingLimit := fun q hq => by
      rw [← orDepthFrom_tokensIn_of_ne (hparts q hq).1]
      exact (orDepthFrom_tokens_group_le.1 h).1 q hq
    cases parts with
    | nil => cases hlen
    | cons p qs =>
      rcases Nat.lt_or_eq_of_le hd with hd | rfl
      · have hcut := cut_group (g := id) hd (fun q hq => (hparts q hq).1) fun q hq =>
          ih q hq (hparts q hq).2 hd (hdepth q hq)
        rw [hcut, List.map_id, id, hr.foldl_append]
      · -- At the limit, no OR is left in the parts.
        have hread := Reading.Level.value_read_joinTokens (c := c) (g := id)
          (fun q _ => balanced_limitNestingFrom_tokensIn nestingLimit q c) fun q hq l hl =>
            read_tokensIn_of_joint hl (hparts q hq).2
              ((hparts q hq).2.joint_of_orDepthFrom_lt (Nat.lt_succ_of_le (hdepth q hq)))
              (hparts q hq).1
        rw [cut, limitNestingFrom_tokens_group, hread, List.map_id, id, hr.foldl_append]

end Requirement

/-! ## Without parentheses -/

namespace Reading.Level

/-- What is read without parentheses: alternatives of nodes needed jointly. -/
structure Plain (l : Level) : Prop where
  before : ∀ x ∈ l.before, x.Alternatives
  current : ∀ x ∈ l.current, x.Joint

open Requirement

theorem joint_append {x y : Requirement} (hx : x.Joint) (hy : y.Joint) :
    (x.append .all y).Joint := by
  by_cases hc : x.connective? = some .all
  · obtain ⟨parts, rfl⟩ := exists_eq_group hc
    rw [append_group, joint_all]
    simpa [or_imp, forall_and, hy] using joint_all.1 hx
  · rw [append_of_ne hc, joint_all]
    simp [hx, hy]

theorem alternatives_append {x y : Requirement} (hx : x.Alternatives) (hy : y.Alternatives) :
    (x.append .any y).Alternatives := by
  by_cases hc : x.connective? = some .any
  · obtain ⟨parts, rfl⟩ := exists_eq_group hc
    rw [append_group, alternatives_any]
    simpa [or_imp, forall_and, hy] using alternatives_any.1 hx
  · rw [append_of_ne hc, alternatives_any]
    simp [hx, hy]

variable {l : Level} {ts : List Token}

theorem Plain.value (h : l.Plain) : ∀ x ∈ l.value, x.Alternatives :=
  ofParts_join (fun _ _ => alternatives_append) h.before fun x hx => (h.current x hx).alternatives

theorem Plain.node (h : l.Plain) (n : Node) : (l.operand (some (.node n))).Plain := by
  refine ⟨h.before, ofParts_join (fun _ _ => joint_append) h.current ?_⟩
  rintro _ ⟨⟩
  exact joint_node n

theorem Plain.connective (h : l.Plain) (c : Connective) : (l.connective c).Plain := by
  cases c with
  | all => exact ⟨h.before, h.current⟩
  | any =>
    rw [Level.connective]
    split
    · exact h
    · exact ⟨h.value, fun _ hx => absurd hx (Option.not_mem_none _)⟩

theorem Plain.read (h : l.Plain) (hopening : .opening ∉ ts) (hclosing : .closing ∉ ts) :
    (l.read ts).Plain := by
  induction ts generalizing l with
  | nil => exact h
  | cons t ts ih =>
    rw [List.mem_cons, not_or] at hopening hclosing
    cases t with
    | opening => exact absurd rfl hopening.1
    | closing => exact absurd rfl hclosing.1
    | connective c => exact ih (h.connective c) hopening.2 hclosing.2
    | node n => exact ih (h.node n) hopening.2 hclosing.2

end Reading.Level

namespace Requirement

variable {c : Connective} {d k : Nat} {p q r x y : Requirement} {parts : List Requirement}

/-- Beyond the limit nothing is read but alternatives. -/
theorem alternatives_cut (hd : nestingLimit ≤ d) (h : r.cut d = some x) : x.Alternatives := by
  have hflat := (balanced_tokens r).not_mem_limitNestingFrom hd
  have hstart : Reading.Level.start.Plain := ⟨nofun, nofun⟩
  exact (hstart.read hflat.1 hflat.2).value x h

/-! ## What is read has no OR too deep -/

theorem orDepthFrom_append_le (hx : orDepthFrom d (x.tokensIn (some c)) ≤ k)
    (hy : orDepthFrom d (y.tokensIn (some c)) ≤ k) (hd : d ≤ k) :
    orDepthFrom d ((x.append c y).tokensIn (some c)) ≤ k := by
  by_cases hc : x.connective? = some c
  · obtain ⟨parts, rfl⟩ := exists_eq_group hc
    rw [tokensIn_of_eq rfl, orDepthFrom_tokens_group_le] at hx
    rw [append_group, tokensIn_of_eq rfl, orDepthFrom_tokens_group_le]
    refine ⟨fun p hp => ?_, fun _ _ => hd⟩
    rcases List.mem_append.1 hp with hp | hp
    · exact hx.1 p hp
    · rwa [List.mem_singleton.1 hp]
  · rw [append_of_ne hc, tokensIn_of_eq rfl, orDepthFrom_tokens_group_le]
    simp [hx, hy, hd]

theorem orDepthFrom_foldl_append_le (hx : orDepthFrom d (x.tokensIn (some c)) ≤ k)
    (hparts : ∀ p ∈ parts, orDepthFrom d (p.tokensIn (some c)) ≤ k) (hd : d ≤ k) :
    orDepthFrom d ((parts.foldl (append c) x).tokensIn (some c)) ≤ k := by
  induction parts generalizing x with
  | nil => exact hx
  | cons p parts ih =>
    obtain ⟨hp, hparts⟩ := List.forall_mem_cons.1 hparts
    exact ih (orDepthFrom_append_le hx hp hd) hparts

theorem Canonical.exists_cut (hr : r.Canonical) (hd : d ≤ nestingLimit) :
    ∃ x, r.cut d = some x ∧ orDepthFrom d x.tokens ≤ nestingLimit := by
  induction r generalizing d with
  | node n => exact ⟨.node n, rfl, Nat.zero_le _⟩
  | group c parts ih =>
    obtain ⟨hlen, hparts⟩ := canonical_group.1 hr
    rcases Nat.lt_or_eq_of_le hd with hlt | rfl
    · cases parts with
      | nil => cases hlen
      | cons p qs =>
        have hcuts : ∀ q ∈ p :: qs, ∃ x, q.cut (d + 1) = some x ∧
            orDepthFrom (d + 1) x.tokens ≤ nestingLimit := fun q hq => ih q hq (hparts q hq).2 hlt
        choose! g hg hdepth using hcuts
        have hpart : ∀ q ∈ p :: qs, orDepthFrom d ((g q).tokensIn (some c)) ≤ nestingLimit :=
          fun q hq => Nat.le_trans (orDepthFrom_tokensIn_le (g q) c) (hdepth q hq)
        obtain ⟨hp, hqs⟩ := List.forall_mem_cons.1 hpart
        refine ⟨_, cut_group hlt (fun q hq => (hparts q hq).1) hg, ?_⟩
        exact Nat.le_trans (orDepthFrom_tokens_le _ c)
          (orDepthFrom_foldl_append_le hp (List.forall_mem_map.2 hqs) hd)
    · -- At the limit, the parentheses around the parts are gone.
      cases hcut : (group c parts).cut nestingLimit with
      | none =>
        have hleaves := leavesOf_cut (group c parts) nestingLimit
        rw [hcut] at hleaves
        exact absurd hleaves.symm hr.filled.leaves_ne_nil
      | some x =>
        have hx := alternatives_cut (Nat.le_refl _) hcut
        exact ⟨x, rfl, Nat.le_trans (orDepthFrom_tokens_le x .any) hx.orDepthFrom_tokensIn_le⟩

end Requirement

end Prereq
