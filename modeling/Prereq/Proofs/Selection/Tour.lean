import Mathlib.Data.List.Rotate
import Prereq.Proofs.Selection

/-!
# Clicking round

Repeated clicks on one edge go round the pathways that use it, in the order of their numbers. No
pathway is skipped and none comes twice before all the others have come.

* `Selection.users` : the numbers of the pathways that use a node, ascending;
* `Selection.tour` : the order in which clicks are to come to them; a turn of the circle of the users
  (`Selection.exists_tour_eq_rotate`);
* `Selection.tour_click` : a click goes one step on, and from there the tour is the same circle;
* `Selection.clicks` : the numbers that some clicks return;
* `Selection.clicks_eq_take` : they are the first ones of the tour.
-/

namespace Prereq.Selection

variable {s : Selection} {n : Node} {i : Nat} {rest : List Nat}

/-! ## Ascending numbers -/

section Ascending

variable {before after l : List Nat}

theorem filter_lt_of_ascending (h : (before ++ i :: after).Pairwise (· < ·)) :
    (before ++ i :: after).filter (i < ·) = after := by
  obtain ⟨-, hafter, hbefore⟩ := List.pairwise_append.1 h
  have hnone : before.filter (i < ·) = [] := List.filter_eq_nil_iff.2 fun j hj => by
    have := hbefore j hj i List.mem_cons_self
    simp only [decide_eq_true_eq]
    omega
  have hall : after.filter (i < ·) = after := List.filter_eq_self.2 fun j hj =>
    decide_eq_true ((List.pairwise_cons.1 hafter).1 j hj)
  rw [List.filter_append, List.filter_cons_of_neg (by simp), hnone, hall, List.nil_append]

theorem filter_le_of_ascending (h : (before ++ i :: after).Pairwise (· < ·)) :
    (before ++ i :: after).filter (· ≤ i) = before ++ [i] := by
  obtain ⟨-, hafter, hbefore⟩ := List.pairwise_append.1 h
  have hall : before.filter (· ≤ i) = before := List.filter_eq_self.2 fun j hj =>
    decide_eq_true (hbefore j hj i List.mem_cons_self).le
  have hnone : after.filter (· ≤ i) = [] := List.filter_eq_nil_iff.2 fun j hj => by
    have := (List.pairwise_cons.1 hafter).1 j hj
    simp only [decide_eq_true_eq]
    omega
  rw [List.filter_append, List.filter_cons_of_pos (by simp), hall, hnone]

/-- Ascending numbers are cut in two at any number. -/
theorem filter_le_append_filter_lt (h : l.Pairwise (· < ·)) (a : Nat) :
    l.filter (· ≤ a) ++ l.filter (a < ·) = l := by
  have hperm : (l.filter (· ≤ a) ++ l.filter (a < ·)).Perm l := by
    simpa only [← decide_not, Nat.not_le] using List.filter_append_perm (· ≤ a) l
  have hcut : (l.filter (· ≤ a) ++ l.filter (a < ·)).Pairwise (· < ·) := by
    refine List.pairwise_append.2 ⟨h.filter _, h.filter _, fun i hi j hj => ?_⟩
    have hia := of_decide_eq_true (List.mem_filter.1 hi).2
    have haj := of_decide_eq_true (List.mem_filter.1 hj).2
    exact Nat.lt_of_le_of_lt hia haj
  exact hperm.eq_of_pairwise (fun _ _ _ _ hij hji => absurd hij (Nat.lt_asymm hji)) hcut h

end Ascending

/-! ## The tour -/

/-- The numbers of the pathways that use a node, ascending. -/
def users (s : Selection) (n : Node) : List Nat :=
  (List.range s.pathways.length).filter (s.uses n)

/-- The users of a node in the order in which clicks are to come to them: if the edge is shown,
those after the active number come first, and the active one comes last. -/
def tour (s : Selection) (n : Node) : List Nat :=
  if s.shows n then (s.users n).filter (s.active < ·) ++ (s.users n).filter (· ≤ s.active)
  else s.users n

theorem mem_users : i ∈ s.users n ↔ s.uses n i := by
  rw [users, List.mem_filter, List.mem_range]
  exact and_iff_right_of_imp lt_length_of_uses

theorem pairwise_users (s : Selection) (n : Node) : (s.users n).Pairwise (· < ·) :=
  List.pairwise_lt_range.filter _

@[simp] theorem users_click (s : Selection) (n m : Node) : (s.click n).users m = s.users m := rfl

/-- A tour goes once round. -/
theorem exists_tour_eq_rotate (s : Selection) (n : Node) : ∃ k, s.tour n = (s.users n).rotate k := by
  unfold tour
  split
  · have hcut := filter_le_append_filter_lt (pairwise_users s n) s.active
    have hturn := List.rotate_append_length_eq ((s.users n).filter (· ≤ s.active))
      ((s.users n).filter (s.active < ·))
    rw [hcut] at hturn
    exact ⟨_, hturn.symm⟩
  · exact ⟨0, List.rotate_zero _ |>.symm⟩

theorem length_tour (s : Selection) (n : Node) : (s.tour n).length = (s.users n).length := by
  obtain ⟨k, hk⟩ := exists_tour_eq_rotate s n
  rw [hk, List.length_rotate]

/-- Where a tour starts, the circle of the users is cut open. -/
theorem exists_users_eq (h : s.tour n = i :: rest) :
    ∃ before after, s.users n = before ++ i :: after ∧ rest = after ++ before := by
  unfold tour at h
  split at h
  · have hcut := filter_le_append_filter_lt (pairwise_users s n) s.active
    rcases List.append_eq_cons_iff.1 h with ⟨hnone, hupto⟩ | ⟨after, hbeyond, hrest⟩
    · rw [hnone, List.append_nil, hupto] at hcut
      exact ⟨[], rest, hcut.symm, (List.append_nil rest).symm⟩
    · rw [hbeyond] at hcut
      exact ⟨_, after, hcut.symm, hrest⟩
  · exact ⟨[], rest, h, (List.append_nil rest).symm⟩

/-- The active user of a node comes last on its tour. -/
theorem tour_of_users_eq {before after : List Nat} (hshows : s.shows n)
    (h : s.users n = before ++ s.active :: after) : s.tour n = after ++ before ++ [s.active] := by
  have hascending := pairwise_users s n
  rw [h] at hascending
  rw [tour, if_pos hshows, h, filter_lt_of_ascending hascending, filter_le_of_ascending hascending,
    List.append_assoc]

/-! ## One click -/

/-- If the edge is shown, the candidates are the numbers after the active one and those before it. -/
theorem candidates_of_shows (h : s.shows n) : s.candidates n =
    List.range' (s.active + 1) (s.pathways.length - (s.active + 1)) ++ List.range s.active := by
  obtain ⟨m, hm⟩ := Nat.exists_eq_add_of_lt (lt_length_of_uses h)
  have hcount : s.pathways.length - 1 = m + s.active := by omega
  have hafter : s.pathways.length - (s.active + 1) = m := by omega
  have hsplit : List.range' 1 (m + s.active) = List.range' 1 m ++ List.range' (1 + m) s.active :=
    List.range'_append_1.symm
  rw [candidates, if_pos h, hcount, hafter, hsplit, List.map_append]
  congr 1
  · rw [List.range'_eq_map_range, List.range'_eq_map_range, List.map_map]
    refine List.map_congr_left fun j hj => ?_
    have hj := List.mem_range.1 hj
    show (s.active + (1 + j)) % s.pathways.length = s.active + 1 + j
    rw [Nat.mod_eq_of_lt (by omega)]
    omega
  · -- From here on the numbers have come round.
    rw [List.range'_eq_map_range, List.map_map]
    refine (List.map_congr_left fun j hj => ?_).trans (List.map_id _)
    have hj := List.mem_range.1 hj
    have hround : s.active + (1 + m + j) = s.pathways.length + j := by omega
    show (s.active + (1 + m + j)) % s.pathways.length = j
    rw [hround, Nat.add_mod_left, Nat.mod_eq_of_lt (by omega)]

/-- The tour is made of the candidates that use the node; the active user, which is none of them,
ends it. -/
theorem tour_of_shows (h : s.shows n) :
    s.tour n = (s.candidates n).filter (s.uses n) ++ [s.active] := by
  obtain ⟨m, hm⟩ := Nat.exists_eq_add_of_lt (lt_length_of_uses h)
  have hafter : s.pathways.length - (s.active + 1) = m := by omega
  have hrange : List.range s.pathways.length =
      List.range s.active ++ s.active :: List.range' (s.active + 1) m := by
    rw [hm, List.range_eq_range', List.range_eq_range', Nat.add_assoc, ← List.range'_append_1]
    simp [List.range'_succ]
  have husers : s.users n = (List.range s.active).filter (s.uses n) ++
      s.active :: (List.range' (s.active + 1) m).filter (s.uses n) := by
    have hactive : s.uses n s.active := h
    rw [users, hrange, List.filter_append, List.filter_cons_of_pos hactive]
  rw [tour_of_users_eq h husers, candidates_of_shows h, hafter, List.filter_append]

/-- A click returns the first number of the tour. -/
theorem active_click (h : s.tour n = i :: rest) : (s.click n).active = i := by
  show ((s.candidates n).find? (s.uses n)).getD s.active = i
  rw [← List.head?_filter]
  by_cases hshows : s.shows n
  · rw [tour_of_shows hshows] at h
    rcases List.append_eq_cons_iff.1 h with ⟨hnone, hactive⟩ | ⟨others, hothers, -⟩
    · rw [hnone, List.head?_nil, Option.getD_none]
      exact (List.cons.inj hactive).1
    · rw [hothers, List.head?_cons, Option.getD_some]
  · have hcandidates : (s.candidates n).filter (s.uses n) = i :: rest := by
      rw [← h, tour, if_neg hshows, candidates, if_neg hshows, users]
    rw [hcandidates, List.head?_cons, Option.getD_some]

/-- A click takes the first number of the tour, which is the last one to come again. -/
theorem tour_click (h : s.tour n = i :: rest) : (s.click n).tour n = rest ++ [i] := by
  have hactive := active_click h
  obtain ⟨before, after, husers, rfl⟩ := exists_users_eq h
  have hshows : (s.click n).shows n := by
    rw [shows_eq_uses, hactive]
    exact mem_users.1 (husers ▸ List.mem_append_right before List.mem_cons_self)
  have hsame : (s.click n).users n = before ++ (s.click n).active :: after := by
    rw [users_click, husers, hactive]
  rw [tour_of_users_eq hshows hsame, hactive]

/-! ## Many clicks -/

/-- The numbers that `k` clicks on the edge from `n` return, one after the other. -/
def clicks (s : Selection) (n : Node) : (k : Nat) → List Nat
  | 0 => []
  | k + 1 => (s.click n).active :: (s.click n).clicks n k

/-- Clicks follow the tour. -/
theorem clicks_eq_take {k : Nat} (hk : k ≤ (s.tour n).length) :
    s.clicks n k = (s.tour n).take k := by
  induction k generalizing s with
  | zero => rw [clicks, List.take_zero]
  | succ k ih =>
    obtain ⟨i, rest, h⟩ := List.exists_cons_of_length_pos (Nat.zero_lt_of_lt hk)
    have hrest : k ≤ rest.length := by
      rw [h, List.length_cons] at hk
      omega
    have hnext := ih (s := s.click n) (by rw [tour_click h, List.length_append]; omega)
    rw [clicks, active_click h, hnext, tour_click h, List.take_append_of_le_length hrest, h,
      List.take_succ_cons]

theorem clicks_users (s : Selection) (n : Node) : s.clicks n (s.users n).length = s.tour n := by
  rw [← length_tour, clicks_eq_take (Nat.le_refl _), List.take_length]

/-- A tour starts with the first user after the active one if the edge is shown, wrapping around,
and else with the first user of all. -/
theorem head?_tour (s : Selection) (n : Node) : (s.tour n).head? =
    if s.shows n then ((s.users n).find? (s.active < ·)).or (s.users n).head?
    else (s.users n).head? := by
  unfold tour
  split
  · rw [List.head?_append, List.head?_filter]
    cases hnext : (s.users n).find? (s.active < ·) with
    | some i => rfl
    | none =>
      have hall : (s.users n).filter (· ≤ s.active) = s.users n :=
        List.filter_eq_self.2 fun i hi => by simpa using List.find?_eq_none.1 hnext i hi
      rw [hall]
  · rfl

/-- **Clicks go round.** Take any selection, reached or not, and a node with `k` users. Then `k`
clicks on its edge return each of the users once, in ascending order but for the one place where the
order comes round. They begin with the next user after the active one if that is a user itself, and
with the first user if not. -/
theorem clicks_go_round (s : Selection) (n : Node) :
    let users := s.users n
    let visited := s.clicks n users.length
    (∀ i, i ∈ users ↔ ∃ p, s.pathways[i]? = some p ∧ n ∈ p) ∧ users.Pairwise (· < ·) ∧
    visited.Perm users ∧ visited.Nodup ∧ (∃ k, visited = users.rotate k) ∧
    visited.head? =
      if s.shows n then (users.find? (s.active < ·)).or users.head? else users.head? := by
  intro users visited
  have hvisited : visited = s.tour n := clicks_users s n
  have hascending : users.Pairwise (· < ·) := pairwise_users s n
  obtain ⟨k, hk⟩ := exists_tour_eq_rotate s n
  have hperm : visited.Perm users := by
    rw [hvisited, hk]
    exact List.rotate_perm users k
  refine ⟨fun i => mem_users.trans uses_iff, hascending, hperm, ?_, ⟨k, hvisited.trans hk⟩, ?_⟩
  · exact hperm.nodup_iff.2 (hascending.imp Nat.ne_of_lt)
  · rw [hvisited]
    exact head?_tour s n

example : clicks ⟨[[1], [2], [1, 3], [1]], 2⟩ 1 3 = [3, 0, 2] := by decide

end Prereq.Selection
