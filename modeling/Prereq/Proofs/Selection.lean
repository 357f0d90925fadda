import Mathlib.Tactic.ByContra
import Prereq.Selection

/-!
# Clicking through pathways

Pathways are replaced by more, by fewer or by none between two clicks. The number of the active one
stays in range all the same, and a click only ever moves to a pathway that uses the node.

* `Selection.Reached` : the selections that clicks and replacements lead to;
* `Selection.InRange` : the active number is that of a pathway, or zero without pathways; it is kept
  by each step (`InRange.click`, `inRange_replace`), hence in every selection reached;
* `Selection.click?` : a click in which no number may be out of range and no division by zero;
  `Selection.click?_eq` : that is every click;
* `Selection.click_eq_self`, `Selection.shows_click` : where a click leads.
-/

namespace Prereq.Selection

variable {s : Selection} {n : Node} {i : Nat} {ps : List Pathway}

/-- The selections that are reached from pathways or a text by clicks and replacements. -/
inductive Reached : Selection → Prop where
  | ofPathways (ps : List Pathway) : Reached (ofPathways ps)
  | ofText (t : String) : Reached (ofText t)
  | click {s : Selection} (reached : Reached s) (n : Node) : Reached (s.click n)
  | replace {s : Selection} (reached : Reached s) (ps : List Pathway) : Reached (s.replace ps)

/-! ## Candidates -/

theorem uses_iff : s.uses n i ↔ ∃ p, s.pathways[i]? = some p ∧ n ∈ p := by
  simp [uses, Option.any_eq_true]

theorem lt_length_of_uses (h : s.uses n i) : i < s.pathways.length := by
  obtain ⟨p, hp, -⟩ := uses_iff.1 h
  exact (List.getElem?_eq_some_iff.1 hp).1

/-- The edge is shown just if the active number is that of a pathway which uses the node. -/
theorem shows_eq_uses (s : Selection) (n : Node) : s.shows n = s.uses n s.active := rfl

theorem exists_uses_iff : (∃ i, s.uses n i) ↔ ∃ p ∈ s.pathways, n ∈ p := by
  simp only [uses_iff, List.mem_iff_getElem?]
  constructor
  · rintro ⟨i, p, hp, hn⟩
    exact ⟨p, ⟨i, hp⟩, hn⟩
  · rintro ⟨p, ⟨i, hp⟩, hn⟩
    exact ⟨i, p, hp, hn⟩

/-- Where an edge is shown there is a pathway, so that numbers can be taken modulo their count. -/
theorem length_pos_of_shows (h : s.shows n) : 0 < s.pathways.length := by
  have := lt_length_of_uses h
  omega

/-! ## Checked clicks -/

/-- The remainder of a division. There is none of a division by zero. -/
def remainder? (m count : Nat) : Option Nat := if count = 0 then none else some (m % count)

/-- Whether pathway number `i` uses a node. There is no answer if the number is out of range. -/
def uses? (s : Selection) (n : Node) (i : Nat) : Option Bool :=
  s.pathways[i]?.map (·.contains n)

/-- The candidates of a click, if they can be computed. -/
def candidates? (s : Selection) (n : Node) : Option (List Nat) :=
  let count := s.pathways.length
  if s.shows n then (List.range' 1 (count - 1)).mapM fun i => remainder? (s.active + i) count
  else some (List.range count)

/-- The click on the edge from `n`, if every number that it looks up is that of a pathway and
nothing is divided by zero. -/
def click? (s : Selection) (n : Node) : Option Selection := do
  let candidates ← s.candidates? n
  let next ← candidates.findM? (s.uses? n)
  return ⟨s.pathways, next.getD s.active⟩

theorem candidates?_eq (s : Selection) (n : Node) : s.candidates? n = some (s.candidates n) := by
  unfold candidates? candidates
  by_cases h : s.shows n
  · have hcount := length_pos_of_shows h
    have hrem : ∀ i, remainder? (s.active + i) s.pathways.length =
        some ((s.active + i) % s.pathways.length) := fun i => if_neg (by omega)
    simp only [h, if_true, hrem]
    exact List.mapM_pure
  · simp [h]

theorem lt_length_of_mem_candidates (h : i ∈ s.candidates n) : i < s.pathways.length := by
  unfold candidates at h
  by_cases hshows : s.shows n
  · simp only [hshows, if_true] at h
    obtain ⟨j, -, rfl⟩ := List.mem_map.1 h
    exact Nat.mod_lt _ (length_pos_of_shows hshows)
  · simpa [hshows] using h

theorem findM?_uses? {l : List Nat} (h : ∀ i ∈ l, i < s.pathways.length) :
    l.findM? (s.uses? n) = some (l.find? (s.uses n)) := by
  induction l with
  | nil => rfl
  | cons i l ih =>
    obtain ⟨hi, hl⟩ := List.forall_mem_cons.1 h
    have huses : s.uses? n i = some (s.uses n i) := by
      simp [uses?, uses, List.getElem?_eq_getElem hi]
    rw [List.findM?, huses, List.find?_cons]
    cases s.uses n i with
    | true => rfl
    | false => exact ih hl

/-- A click never looks up a number that is out of range and never divides by zero. -/
theorem click?_eq (s : Selection) (n : Node) : s.click? n = some (s.click n) := by
  unfold click?
  rw [candidates?_eq, Option.bind_eq_bind, Option.bind_some,
    findM?_uses? fun i hi => lt_length_of_mem_candidates hi]
  rfl

/-! ## Where a click leads -/

@[simp] theorem pathways_click (s : Selection) (n : Node) : (s.click n).pathways = s.pathways := rfl

/-- The pathway that a click makes active uses the node, unless nothing changes. -/
theorem click_cases (s : Selection) (n : Node) :
    s.uses n (s.click n).active ∨ s.click n = s ∧ ∀ i ∈ s.candidates n, ¬ s.uses n i := by
  unfold click
  cases hfind : (s.candidates n).find? (s.uses n) with
  | some i => exact .inl (List.find?_some hfind)
  | none => exact .inr ⟨rfl, List.find?_eq_none.1 hfind⟩

/-- Nothing changes if no pathway uses the node. -/
theorem click_eq_self (h : ∀ p ∈ s.pathways, n ∉ p) : s.click n = s := by
  rcases click_cases s n with hnext | ⟨hself, -⟩
  · obtain ⟨p, hp, hn⟩ := exists_uses_iff.1 ⟨_, hnext⟩
    exact absurd hn (h p hp)
  · exact hself

/-- If a pathway uses the node, then the active one does after a click. -/
theorem shows_click (h : ∃ p ∈ s.pathways, n ∈ p) : (s.click n).shows n := by
  show s.uses n (s.click n).active
  rcases click_cases s n with hnext | ⟨hself, hnone⟩
  · exact hnext
  · rw [hself]
    by_contra hshows
    -- The edge was not shown, so that all pathways have been tried.
    obtain ⟨i, hi⟩ := exists_uses_iff.2 h
    have hmem : i ∈ s.candidates n := by
      unfold candidates
      rw [shows_eq_uses, if_neg hshows]
      exact List.mem_range.2 (lt_length_of_uses hi)
    exact hnone i hmem hi

/-! ## The active number -/

/-- The active number is that of a pathway, or zero if there is none. -/
def InRange (s : Selection) : Prop :=
  s.active < s.pathways.length ∨ s.pathways.length = 0 ∧ s.active = 0

theorem inRange_ofPathways (ps : List Pathway) : (ofPathways ps).InRange := by
  show 0 < ps.length ∨ ps.length = 0 ∧ 0 = 0
  omega

theorem InRange.click (h : s.InRange) (n : Node) : (s.click n).InRange := by
  rcases click_cases s n with hnext | ⟨hself, -⟩
  · exact .inl (lt_length_of_uses hnext)
  · rwa [hself]

/-- Whatever the number was, it is in the range of the new pathways. -/
theorem inRange_replace (s : Selection) (ps : List Pathway) : (s.replace ps).InRange := by
  show min s.active (ps.length - 1) < ps.length ∨
    ps.length = 0 ∧ min s.active (ps.length - 1) = 0
  omega

theorem Reached.inRange (h : s.Reached) : s.InRange := by
  induction h with
  | ofPathways ps => exact inRange_ofPathways ps
  | ofText t => exact inRange_ofPathways _
  | click _ n ih => exact ih.click n
  | replace _ ps _ => exact inRange_replace _ ps

theorem InRange.active?_eq_none_iff (h : s.InRange) : s.active? = none ↔ s.pathways = [] := by
  unfold InRange at h
  rw [active?, List.getElem?_eq_none_iff, ← List.length_eq_zero_iff]
  omega

/-- **The active pathway.** In every selection that is reached, the active number is zero if there
are no pathways and the number of one otherwise, so that an active pathway is lacking only where
there is none at all. A click looks up no number out of range and divides by nothing that is zero.
It keeps the pathways, changes nothing if none of them uses the node, and otherwise makes one active
that does. New pathways move the active number only if it is out of their range, and then to the last
of them. -/
theorem active_of_reached (s : Selection) (h : s.Reached) :
    (s.pathways = [] → s.active = 0) ∧ (s.pathways ≠ [] → s.active < s.pathways.length) ∧
    (s.active? = none ↔ s.pathways = []) ∧
    (∀ n, s.click? n = some (s.click n) ∧ (s.click n).pathways = s.pathways ∧
      ((∀ p ∈ s.pathways, n ∉ p) → s.click n = s) ∧
      ((∃ p ∈ s.pathways, n ∈ p) → (s.click n).shows n)) ∧
    ∀ ps, (s.replace ps).pathways = ps ∧
      (s.active < ps.length → (s.replace ps).active = s.active) ∧
      (ps.length ≤ s.active → (s.replace ps).active = ps.length - 1) := by
  have hrange : s.InRange := h.inRange
  refine ⟨fun hnil => ?_, fun hne => ?_, hrange.active?_eq_none_iff, fun n => ?_, fun ps => ?_⟩
  · rcases hrange with hlt | ⟨-, hzero⟩
    · simp [hnil] at hlt
    · exact hzero
  · rcases hrange with hlt | ⟨hzero, -⟩
    · exact hlt
    · exact absurd (List.length_eq_zero_iff.1 hzero) hne
  · exact ⟨click?_eq s n, rfl, click_eq_self, shows_click⟩
  · unfold replace
    refine ⟨rfl, fun hlt => ?_, fun hle => ?_⟩
    · exact Nat.min_eq_left (by omega)
    · exact Nat.min_eq_right (by omega)

/-- Three alternatives, the last of which is clicked before two others take their place. -/
def shortened : Selection := ((ofText "1 OR 2 OR 3").click 3).replace [[4, 5], [6]]

/-- The last alternative is active, then the first one after a click on the edge from node 5, and
none when there is none. -/
theorem active_of_reached_shortened :
    ((ofText "1 OR 2 OR 3").click 3).active = 2 ∧ shortened.Reached ∧ shortened = ⟨[[4, 5], [6]], 1⟩ ∧
    (shortened.click 5).shows 5 ∧ shortened.click 7 = shortened ∧
    shortened.click? 7 = some shortened ∧ (shortened.replace []).active = 0 ∧
    (shortened.replace [[4], [5], [6]]).active = 1 := by
  have hthird : ((ofText "1 OR 2 OR 3").click 3).active = 2 := by decide +kernel
  have hshortened : shortened = ⟨[[4, 5], [6]], 1⟩ := by decide +kernel
  have hreached : shortened.Reached := .replace (.click (.ofText _) 3) _
  obtain ⟨-, -, -, hclick, hreplace⟩ := active_of_reached shortened hreached
  have hnone : ∀ p ∈ shortened.pathways, (7 : Node) ∉ p := by
    rw [hshortened]
    simp
  have hsome : ∃ p ∈ shortened.pathways, (5 : Node) ∈ p := by
    rw [hshortened]
    exact ⟨[4, 5], by simp, by simp⟩
  have hself : shortened.click 7 = shortened := (hclick 7).2.2.1 hnone
  have hactive : shortened.active = 1 := by rw [hshortened]
  refine ⟨hthird, hreached, hshortened, (hclick 5).2.2.2 hsome, hself, ?_, ?_, ?_⟩
  · rw [(hclick 7).1, hself]
  · exact (hreplace []).2.2 (Nat.zero_le _)
  · rw [(hreplace [[4], [5], [6]]).2.1 (by rw [hactive]; decide), hactive]

end Prereq.Selection
