import Mathlib.Data.Finset.Card
import Mathlib.Data.List.Induction
import Mathlib.Data.Set.Card

/-!
# Partners of parentheses

A closing parenthesis closes the group that was opened last, and nothing if no group is open. Which
parenthesis is the partner of which can be said without a count, by the text that stands between the
two; that a stack of open groups finds the partners is shown here.

* `Text.Balanced` : every parenthesis of a text has its partner;
* `Text.Partners` : an opening and a closing parenthesis with balanced text between them;
* `Text.Pending`, `Text.level` : the groups that are open before a place, and the nesting level at a
  place, which is how many are open behind it;
* `Text.opened` : the places of the groups that a text leaves open, as a stack;
* `Text.partners_iff` : a closing parenthesis is the partner of the opening one on top of the stack;
* `Text.mem_opened_take_iff`, `Text.level_eq_length` : the stack holds the groups that are open, so
  that a level is its height.
-/

namespace Prereq.Text

variable {s t : List Char} {c : Char} {i j k : Nat}

/-! ## Balanced text -/

/-- Every parenthesis of a text has its partner. -/
inductive Balanced : List Char → Prop where
  | nil : Balanced []
  | other {c : Char} {s : List Char} (hopening : c ≠ '(') (hclosing : c ≠ ')') (rest : Balanced s) :
    Balanced (c :: s)
  | group {s t : List Char} (inner : Balanced s) (rest : Balanced t) :
    Balanced ('(' :: (s ++ ')' :: t))

theorem Balanced.append (hs : Balanced s) (ht : Balanced t) : Balanced (s ++ t) := by
  induction hs with
  | nil => exact ht
  | other hopening hclosing _ ih => exact ih.other hopening hclosing
  | group inner _ _ ih =>
    rw [List.cons_append, List.append_assoc, List.cons_append]
    exact inner.group ih

/-- The parentheses at places `i` and `j` are partners: one opens, one closes, and what stands
between them is balanced. -/
def Partners (s : List Char) (i j : Nat) : Prop :=
  i < j ∧ s[i]? = some '(' ∧ s[j]? = some ')' ∧ Balanced ((s.take j).drop (i + 1))

/-- The group that is opened at place `k` is still open before place `i`: its closing parenthesis
does not stand there yet. -/
def Pending (s : List Char) (i k : Nat) : Prop :=
  k < i ∧ s[k]? = some '(' ∧ ∀ j < i, ¬ Partners s k j

/-- The nesting level at a place: the number of groups that are open behind it. -/
noncomputable def level (s : List Char) (i : Nat) : Nat := {k | Pending s (i + 1) k}.ncard

/-! ## The stack of open groups -/

/-- The open groups after a character at place `i`. -/
def pass (c : Char) (i : Nat) (stack : List Nat) : List Nat :=
  if c = '(' then i :: stack else if c = ')' then stack.tail else stack

/-- The open groups at the end of a text that begins at place `i`. -/
def openedFrom : (i : Nat) → (stack : List Nat) → List Char → List Nat
  | _, stack, [] => stack
  | i, stack, c :: s => openedFrom (i + 1) (pass c i stack) s

/-- The places of the groups that a text leaves open, the innermost one first. -/
def opened (s : List Char) : List Nat := openedFrom 0 [] s

theorem openedFrom_append (i : Nat) (stack : List Nat) (s t : List Char) :
    openedFrom i stack (s ++ t) = openedFrom (i + s.length) (openedFrom i stack s) t := by
  induction s generalizing i stack with
  | nil => rfl
  | cons c s ih =>
    rw [List.cons_append, openedFrom, openedFrom, ih, List.length_cons]
    congr 1
    omega

theorem opened_concat (s : List Char) (c : Char) : opened (s ++ [c]) = pass c s.length (opened s) := by
  rw [opened, openedFrom_append, Nat.zero_add]
  rfl

/-- Balanced text leaves the stack as it was. -/
theorem Balanced.openedFrom (h : Balanced s) (i : Nat) (stack : List Nat) :
    openedFrom i stack s = stack := by
  induction h generalizing i stack with
  | nil => rfl
  | other hopening hclosing _ ih => rw [Text.openedFrom, pass, if_neg hopening, if_neg hclosing, ih]
  | group _ _ ihinner ihrest =>
    rw [Text.openedFrom, openedFrom_append, ihinner, Text.openedFrom, ihrest]
    rfl

theorem Balanced.opened_append (h : Balanced t) (s : List Char) :
    opened (s ++ '(' :: t) = s.length :: opened s := by
  rw [opened, openedFrom_append, Text.openedFrom, h.openedFrom, Nat.zero_add]
  rfl

/-- The opening parentheses at the places of a stack, with nothing but balanced text after each of
them up to the next one or to the end. -/
def Stacked : (stack : List Nat) → List Char → Prop
  | [], _ => True
  | i :: stack, s =>
    ∃ before inner, s = before ++ '(' :: inner ∧ before.length = i ∧ Balanced inner ∧
      Stacked stack before

theorem Stacked.append {stack : List Nat} (h : Stacked stack s) (ht : Balanced t) :
    Stacked stack (s ++ t) := by
  cases stack with
  | nil => trivial
  | cons i stack =>
    obtain ⟨before, inner, rfl, hlen, hinner, hbefore⟩ := h
    exact ⟨before, inner ++ t, by simp, hlen, hinner.append ht, hbefore⟩

theorem stacked_opened (s : List Char) : Stacked (opened s) s := by
  induction s using List.reverseRecOn with
  | nil => trivial
  | append_singleton s c ih =>
    rw [opened_concat, pass]
    split_ifs with hopening hclosing
    · subst hopening
      exact ⟨s, [], rfl, rfl, .nil, ih⟩
    · subst hclosing
      cases hstack : opened s with
      | nil => trivial
      | cons i stack =>
        -- The group on top is closed and belongs to what stands behind the next one.
        rw [hstack] at ih
        obtain ⟨before, inner, rfl, -, hinner, hbefore⟩ := ih
        rw [List.append_assoc]
        exact hbefore.append (hinner.group .nil)
    · exact ih.append (Balanced.nil.other hopening hclosing)

/-! ## Partners -/

theorem eq_append_of_getElem? (h : s[i]? = some c) : s = s.take i ++ c :: s.drop (i + 1) := by
  obtain ⟨hi, rfl⟩ := List.getElem?_eq_some_iff.1 h
  rw [← List.drop_eq_getElem_cons hi, List.take_append_drop]

theorem length_take_of_getElem? (h : s[i]? = some c) : (s.take i).length = i :=
  List.length_take_of_le (List.getElem?_eq_some_iff.1 h).1.le

theorem partners_of_opened {stack : List Nat} (hj : s[j]? = some ')')
    (h : opened (s.take j) = i :: stack) : Partners s i j := by
  have hstacked := stacked_opened (s.take j)
  rw [h] at hstacked
  obtain ⟨before, inner, hsplit, rfl, hinner, -⟩ := hstacked
  have hlt : before.length < j := by
    have hlen := congrArg List.length hsplit
    rw [length_take_of_getElem? hj, List.length_append, List.length_cons] at hlen
    omega
  refine ⟨hlt, ?_, hj, ?_⟩
  · rw [← List.getElem?_take_of_lt hlt, hsplit]
    simp
  · rw [hsplit]
    simpa using hinner

/-- A closing parenthesis is the partner of the opening one whose group is on top. -/
theorem partners_iff :
    Partners s i j ↔ s[j]? = some ')' ∧ opened (s.take j) = i :: opened (s.take i) := by
  refine ⟨?_, fun h => partners_of_opened h.1 h.2⟩
  rintro ⟨hij, hi, hj, hinner⟩
  have hlen := length_take_of_getElem? hi
  rw [← List.getElem?_take_of_lt hij] at hi
  have hsplit := eq_append_of_getElem? hi
  rw [List.take_take, Nat.min_eq_left hij.le] at hsplit
  have hopened := hinner.opened_append (s.take i)
  rw [← hsplit, hlen] at hopened
  exact ⟨hj, hopened⟩

theorem Partners.unique (hi : Partners s i j) (hk : Partners s k j) : i = k := by
  have h := (partners_iff.1 hi).2
  rw [(partners_iff.1 hk).2] at h
  exact (List.cons.inj h).1.symm

/-- A closing parenthesis lacks a partner just if no group is open. -/
theorem forall_not_partners_iff (hj : s[j]? = some ')') :
    (∀ i, ¬ Partners s i j) ↔ opened (s.take j) = [] := by
  constructor
  · intro h
    rw [List.eq_nil_iff_forall_not_mem]
    intro i hi
    obtain ⟨k, stack, hstack⟩ := List.exists_cons_of_ne_nil (List.ne_nil_of_mem hi)
    exact h k (partners_of_opened hj hstack)
  · intro h i hpartners
    rw [(partners_iff.1 hpartners).2] at h
    cases h

/-! ## Levels -/

theorem Stacked.pairwise {stack : List Nat} (h : Stacked stack s) :
    (s.length :: stack).Pairwise (· > ·) := by
  induction stack generalizing s with
  | nil => exact List.pairwise_singleton _ _
  | cons i stack ih =>
    obtain ⟨before, inner, rfl, rfl, -, hbefore⟩ := h
    have hlt : before.length < (before ++ '(' :: inner).length := by
      simp
    refine List.pairwise_cons.2 ⟨fun k hk => ?_, ih hbefore⟩
    rcases List.mem_cons.1 hk with rfl | hk
    · exact hlt
    · exact Nat.lt_trans ((List.pairwise_cons.1 (ih hbefore)).1 k hk) hlt

theorem nodup_opened (s : List Char) : (opened s).Nodup :=
  (List.pairwise_cons.1 (stacked_opened s).pairwise).2.imp Nat.ne_of_gt

theorem opened_take_succ (h : s[i]? = some c) :
    opened (s.take (i + 1)) = pass c i (opened (s.take i)) := by
  rw [List.take_add_one, h, Option.toList_some, opened_concat, length_take_of_getElem? h]

theorem pending_succ_iff (hc : s[i]? = some c) :
    Pending s (i + 1) k ↔ k = i ∧ c = '(' ∨ Pending s i k ∧ ¬ Partners s k i := by
  constructor
  · rintro ⟨hlt, hk, hno⟩
    by_cases hki : k = i
    · rw [hki, hc, Option.some.injEq] at hk
      exact .inl ⟨hki, hk⟩
    · exact .inr ⟨⟨by omega, hk, fun j hj => hno j (by omega)⟩, hno i (by omega)⟩
  · rintro (⟨rfl, rfl⟩ | ⟨⟨hlt, hk, hno⟩, hlast⟩)
    · refine ⟨by omega, hc, fun j hj hpartners => ?_⟩
      have := hpartners.1
      omega
    · refine ⟨by omega, hk, fun j hj => ?_⟩
      rcases Nat.lt_succ_iff_lt_or_eq.1 hj with hj | rfl
      · exact hno j hj
      · exact hlast

/-- The stack holds the groups that are still open. -/
theorem mem_opened_take_iff (hi : i ≤ s.length) : k ∈ opened (s.take i) ↔ Pending s i k := by
  induction i with
  | zero => simp [opened, openedFrom, Pending]
  | succ i ih =>
    have ih := ih (by omega)
    obtain ⟨c, hc⟩ : ∃ c, s[i]? = some c := ⟨_, List.getElem?_eq_getElem hi⟩
    rw [pending_succ_iff hc, ← ih, opened_take_succ hc, pass]
    have hnone : c ≠ ')' → ¬ Partners s k i := fun hne hpartners => by
      have := hpartners.2.2.1
      rw [hc, Option.some.injEq] at this
      exact hne this
    split_ifs with hopening hclosing
    · have := hnone (by rw [hopening]; decide)
      simp [hopening, this]
    · -- The partner found here is on top of the stack, and stands there once.
      subst hclosing
      cases hstack : opened (s.take i) with
      | nil => simp
      | cons m stack =>
        have htop : Partners s k i ↔ k = m :=
          ⟨fun h => h.unique (partners_of_opened hc hstack),
            fun h => h ▸ partners_of_opened hc hstack⟩
        have hnodup := nodup_opened (s.take i)
        rw [hstack, List.nodup_cons] at hnodup
        rw [or_iff_right fun h => hopening h.2, htop, List.tail_cons, List.mem_cons]
        constructor
        · intro hk
          exact ⟨.inr hk, by rintro rfl; exact hnodup.1 hk⟩
        · rintro ⟨hk, hne⟩
          exact hk.resolve_left hne
    · simp [hopening, hnone hclosing]

theorem level_eq_length (hi : i < s.length) : level s i = (opened (s.take (i + 1))).length := by
  have hset : {k | Pending s (i + 1) k} = {k | k ∈ opened (s.take (i + 1))} := by
    ext k
    exact (mem_opened_take_iff hi).symm
  rw [level, hset, ← List.coe_toFinset, Set.ncard_coe_finset,
    List.toFinset_card_of_nodup (nodup_opened _)]

/-- An opening parenthesis opens a group in those that are open before it. -/
theorem level_of_opening (hi : s[i]? = some '(') :
    level s i = (opened (s.take i)).length + 1 := by
  rw [level_eq_length (List.getElem?_eq_some_iff.1 hi).1, opened_take_succ hi]
  rfl

/-- The level of a group is the number of groups that are open where it is closed. -/
theorem Partners.level_eq (h : Partners s i j) : level s i = (opened (s.take j)).length := by
  rw [level_of_opening h.2.1, (partners_iff.1 h).2, List.length_cons]

end Prereq.Text
