import Mathlib.Data.List.Pairwise
import Mathlib.Data.List.Basic
import Mathlib.Tactic.ByContra
import Prereq.Requirement.Simplify

/-!
# The parts that survive

One pass from left to right drops the parts that are redundant beside an earlier part that stays,
or beside a later part that is not redundant in turn.

* `Requirement.survivors_sublist`, `Requirement.survivors_eq_nil_iff` : what stays, and that
  something does;
* `Requirement.survivors_pairwise` : no part that stays is redundant beside another one that stays;
* `Requirement.forall_of_survivors` : what redundancy hands down from one part to another holds of
  all parts if it holds of those that stay. The relation need not be transitive: whatever a part
  is dropped for stays, or is dropped itself for something further on.
-/

namespace Prereq.Requirement

variable {α : Type u} {redundant : α → α → Bool}

/-- The two ways in which a part is redundant when the pass comes to it. -/
def Superseded (redundant : α → α → Bool) (kept later : List α) (x : α) : Prop :=
  (∃ k ∈ kept, redundant x k) ∨ ∃ y ∈ later, redundant x y ∧ ¬ redundant y x

instance (kept later : List α) (x : α) : Decidable (Superseded redundant kept later x) :=
  inferInstanceAs (Decidable (_ ∨ _))

@[simp] theorem survivors_nil (kept : List α) : survivors redundant kept [] = [] := rfl

theorem survivors_cons (kept later : List α) (x : α) :
    survivors redundant kept (x :: later) =
      if Superseded redundant kept later x then survivors redundant kept later
      else x :: survivors redundant (x :: kept) later := by
  rw [survivors]
  refine if_congr ?_ rfl rfl
  simp [Superseded]

theorem survivors_sublist (redundant : α → α → Bool) (kept parts : List α) :
    (survivors redundant kept parts).Sublist parts := by
  induction parts generalizing kept with
  | nil => exact List.Sublist.slnil
  | cons x later ih =>
    rw [survivors_cons]
    split
    · exact (ih kept).cons x
    · exact (ih (x :: kept)).cons_cons x

theorem mem_of_mem_survivors {kept parts : List α} {x : α}
    (h : x ∈ survivors redundant kept parts) : x ∈ parts :=
  (survivors_sublist redundant kept parts).subset h

/-- The last part stays, unless an earlier one does. -/
theorem survivors_ne_nil {parts : List α} (h : parts ≠ []) :
    survivors redundant [] parts ≠ [] := by
  induction parts with
  | nil => exact absurd rfl h
  | cons x later ih =>
    rw [survivors_cons]
    split
    next hx =>
      obtain ⟨y, hy, -⟩ := hx.resolve_left (by simp)
      exact ih (List.ne_nil_of_mem hy)
    next => exact List.cons_ne_nil _ _

theorem survivors_eq_nil_iff {parts : List α} : survivors redundant [] parts = [] ↔ parts = [] :=
  ⟨fun h => by_contra fun hne => survivors_ne_nil hne h, fun h => by rw [h, survivors_nil]⟩

/-- Of two parts the earlier one stays alone if it makes the later one redundant, whether or not that
is so the other way round. -/
theorem survivors_pair (redundant : α → α → Bool) (x y : α) :
    survivors redundant [] [x, y] =
      if redundant y x then [x] else if redundant x y then [y] else [x, y] := by
  by_cases hyx : redundant y x <;> by_cases hxy : redundant x y <;>
    simp [survivors_cons, Superseded, hyx, hxy]

/-- Parts that stay are not redundant beside what was kept before them. -/
theorem not_redundant_of_mem_survivors {kept parts : List α} {x k : α}
    (hx : x ∈ survivors redundant kept parts) (hk : k ∈ kept) : ¬ redundant x k := by
  induction parts generalizing kept with
  | nil => cases hx
  | cons y later ih =>
    rw [survivors_cons] at hx
    split at hx
    next => exact ih hx hk
    next hy =>
      rcases List.mem_cons.1 hx with rfl | hx
      · exact fun h => hy (.inl ⟨k, hk, h⟩)
      · exact ih hx (List.mem_cons_of_mem y hk)

theorem survivors_pairwise (redundant : α → α → Bool) (kept parts : List α) :
    (survivors redundant kept parts).Pairwise fun x y => ¬ redundant x y ∧ ¬ redundant y x := by
  induction parts generalizing kept with
  | nil => exact List.Pairwise.nil
  | cons x later ih =>
    rw [survivors_cons]
    split
    next => exact ih kept
    next hx =>
      refine List.Pairwise.cons (fun y hy => ?_) (ih (x :: kept))
      have hyx : ¬ redundant y x := not_redundant_of_mem_survivors hy List.mem_cons_self
      exact ⟨fun hxy => hx (.inr ⟨y, mem_of_mem_survivors hy, hxy, hyx⟩), hyx⟩

/-- Where no part is redundant beside another, all of them stay. -/
theorem survivors_eq_self {kept parts : List α} (hkept : ∀ x ∈ parts, ∀ k ∈ kept, ¬ redundant x k)
    (hparts : parts.Pairwise fun x y => ¬ redundant x y ∧ ¬ redundant y x) :
    survivors redundant kept parts = parts := by
  induction parts generalizing kept with
  | nil => rfl
  | cons x later ih =>
    obtain ⟨hx, hlater⟩ := List.pairwise_cons.1 hparts
    rw [survivors_cons, if_neg, ih _ hlater]
    · intro y hy k hk
      rcases List.mem_cons.1 hk with rfl | hk
      · exact (hx y hy).2
      · exact hkept y (List.mem_cons_of_mem x hy) k hk
    · rintro (⟨k, hk, h⟩ | ⟨y, hy, h, -⟩)
      · exact hkept x List.mem_cons_self k hk h
      · exact (hx y hy).1 h

/-- Only redundancy among the parts matters. -/
theorem survivors_congr {redundant' : α → α → Bool} {kept parts : List α}
    (h : ∀ x ∈ kept ++ parts, ∀ y ∈ kept ++ parts, redundant x y = redundant' x y) :
    survivors redundant kept parts = survivors redundant' kept parts := by
  induction parts generalizing kept with
  | nil => rfl
  | cons x later ih =>
    have hx : x ∈ kept ++ x :: later := by simp
    have hsup : Superseded redundant kept later x ↔ Superseded redundant' kept later x := by
      refine or_congr ?_ ?_
      · refine exists_congr fun k => and_congr_right fun hk => ?_
        rw [h x hx k (List.mem_append_left _ hk)]
      · refine exists_congr fun y => and_congr_right fun hy => ?_
        have hy : y ∈ kept ++ x :: later := by simp [hy]
        rw [h x hx y hy, h y hy x hx]
    rw [survivors_cons, survivors_cons, if_congr hsup rfl rfl, ih, ih]
    · intro y hy z hz
      exact h y (by simp_all [or_left_comm]) z (by simp_all [or_left_comm])
    · intro y hy z hz
      exact h y (by simp_all [or_left_comm]) z (by simp_all [or_left_comm])

/-- Renaming the parts renames those that stay. -/
theorem survivors_map {β : Type v} (redundant : α → α → Bool) (f : β → α) (kept parts : List β) :
    survivors redundant (kept.map f) (parts.map f) =
      (survivors (fun x y => redundant (f x) (f y)) kept parts).map f := by
  induction parts generalizing kept with
  | nil => rfl
  | cons x later ih =>
    have hsup : Superseded redundant (kept.map f) (later.map f) (f x) ↔
        Superseded (fun x y => redundant (f x) (f y)) kept later x := by
      simp only [Superseded, List.mem_map, exists_exists_and_eq_and]
    rw [List.map_cons, survivors_cons, survivors_cons, if_congr hsup rfl rfl, ih,
      ← List.map_cons, ih]
    split <;> simp

/-- If redundancy hands a property down from the one part to the other, it is enough that the
parts which stay have it. The induction runs from the last part back: the later parts have the
property by the time a part is dropped for one of them. -/
theorem forall_of_survivors_kept {P : α → Prop} {kept parts : List α}
    (hand : ∀ x ∈ kept ++ parts, ∀ y ∈ kept ++ parts, redundant x y → P y → P x)
    (hkept : ∀ k ∈ kept, P k) (hstay : ∀ x ∈ survivors redundant kept parts, P x) :
    ∀ x ∈ parts, P x := by
  induction parts generalizing kept with
  | nil => exact nofun
  | cons x later ih =>
    have hx : x ∈ kept ++ x :: later := by simp
    rw [survivors_cons] at hstay
    split at hstay
    next hsup =>
      have hlater : ∀ y ∈ later, P y := by
        refine ih (fun y hy z hz => hand y ?_ z ?_) hkept hstay
        · exact List.mem_append.2 ((List.mem_append.1 hy).imp_right (List.mem_cons_of_mem x))
        · exact List.mem_append.2 ((List.mem_append.1 hz).imp_right (List.mem_cons_of_mem x))
      refine List.forall_mem_cons.2 ⟨?_, hlater⟩
      rcases hsup with ⟨k, hk, h⟩ | ⟨y, hy, h, -⟩
      · exact hand x hx k (List.mem_append_left _ hk) h (hkept k hk)
      · exact hand x hx y (by simp [hy]) h (hlater y hy)
    next =>
      have hPx : P x := hstay x List.mem_cons_self
      have hhand : ∀ y ∈ x :: kept ++ later, ∀ z ∈ x :: kept ++ later, redundant y z → P z → P y :=
        fun y hy z hz => hand y (by simp_all [or_left_comm]) z (by simp_all [or_left_comm])
      refine List.forall_mem_cons.2 ⟨hPx, ih hhand ?_ ?_⟩
      · exact List.forall_mem_cons.2 ⟨hPx, hkept⟩
      · exact fun y hy => hstay y (List.mem_cons_of_mem x hy)

theorem forall_of_survivors {P : α → Prop} {parts : List α}
    (hand : ∀ x ∈ parts, ∀ y ∈ parts, redundant x y → P y → P x)
    (hstay : ∀ x ∈ survivors redundant [] parts, P x) : ∀ x ∈ parts, P x :=
  forall_of_survivors_kept hand (List.forall_mem_nil P) hstay

/-- A part stays that is redundant beside no different one. -/
theorem mem_survivors {parts : List α} {x : α} (hx : x ∈ parts)
    (h : ∀ y ∈ parts, redundant x y → y = x) : x ∈ survivors redundant [] parts := by
  by_contra hgone
  have hne : ∀ y ∈ parts, y ≠ x := by
    refine forall_of_survivors (fun y _ z hz hyz hzx hyx => ?_) fun y hy hyx => hgone (hyx ▸ hy)
    exact hzx (h z hz (hyx ▸ hyz))
  exact hne x hx rfl

/-- A part that makes all different ones redundant, and is not redundant beside them, stays
alone. -/
theorem survivors_eq_singleton {parts : List α} {x : α} (hx : x ∈ parts) (hself : redundant x x)
    (hdrop : ∀ y ∈ parts, y ≠ x → redundant y x ∧ ¬ redundant x y) :
    survivors redundant [] parts = [x] := by
  have hpairwise := survivors_pairwise redundant [] parts
  have hstays : x ∈ survivors redundant [] parts := mem_survivors hx fun y hy hxy => by
    by_contra hne
    exact (hdrop y hy hne).2 hxy
  have hall : ∀ y ∈ survivors redundant [] parts, y = x := by
    intro y hy
    by_contra hne
    have hsymm : Std.Symm fun x y : α => ¬ redundant x y ∧ ¬ redundant y x := ⟨fun _ _ => And.symm⟩
    exact (hpairwise.forall hy hstays hne).1 (hdrop y (mem_of_mem_survivors hy) hne).1
  rw [List.eq_replicate_of_mem hall, List.pairwise_replicate] at hpairwise
  have hlen := hpairwise.resolve_right fun h => h.1 hself
  have hpos := List.length_pos_of_mem hstays
  rw [List.eq_replicate_of_mem hall, show (survivors redundant [] parts).length = 1 by omega]
  rfl

end Prereq.Requirement
