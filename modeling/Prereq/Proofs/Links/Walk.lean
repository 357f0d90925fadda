import Mathlib.Data.List.Basic

/-!
# Walks that may fail

A walk takes a state through the elements of a list, one step for each, and ends with the first
error of a step.

* `Except.foldlM_eq_ok` : what the steps establish between two states, the whole walk does;
* `Except.exists_of_foldlM_eq_error` : the error of a walk is the error of a step.
-/

namespace Except

variable {ε : Type u} {α β σ : Type v} {step : σ → α → Except ε σ} {xs : List α} {s t : σ} {e : ε}

theorem map_eq_ok_iff {f : α → β} {x : Except ε α} {b : β} :
    f <$> x = .ok b ↔ ∃ a, x = .ok a ∧ f a = b := by
  cases x with
  | error e => exact ⟨nofun, nofun⟩
  | ok a => simp [Functor.map, Except.map]

theorem exists_eq_error_iff {x : Except ε α} : (∃ e, x = .error e) ↔ ¬ ∃ a, x = .ok a := by
  cases x with
  | error e => simp
  | ok a => simp

theorem map_eq_error_iff {f : α → β} {x : Except ε α} : f <$> x = .error e ↔ x = .error e := by
  cases x with
  | error d => simp [Functor.map, Except.map]
  | ok a => exact ⟨nofun, nofun⟩

/-- A relation between states that steps establish and that composes holds of the whole walk. -/
theorem foldlM_eq_ok {R : List α → σ → σ → Prop} (nil : ∀ s, R [] s s)
    (cons : ∀ x xs s t u, R [x] s t → R xs t u → R (x :: xs) s u)
    (hstep : ∀ x ∈ xs, ∀ s t, step s x = .ok t → R [x] s t) (h : xs.foldlM step s = .ok t) :
    R xs s t := by
  induction xs generalizing s with
  | nil =>
    cases h
    exact nil _
  | cons x xs ih =>
    rw [List.foldlM_cons] at h
    cases hx : step s x with
    | error e =>
      rw [hx] at h
      cases h
    | ok u =>
      rw [hx] at h
      exact cons x xs s u t (hstep x List.mem_cons_self s u hx)
        (ih (fun y hy => hstep y (List.mem_cons_of_mem x hy)) h)

/-- A walk fails where one of its steps does. -/
theorem exists_of_foldlM_eq_error (h : xs.foldlM step s = .error e) :
    ∃ x ∈ xs, ∃ t, step t x = .error e := by
  induction xs generalizing s with
  | nil => cases h
  | cons x xs ih =>
    rw [List.foldlM_cons] at h
    cases hx : step s x with
    | error d =>
      rw [hx] at h
      cases h
      exact ⟨x, List.mem_cons_self, s, hx⟩
    | ok u =>
      rw [hx] at h
      obtain ⟨y, hy, hfails⟩ := ih h
      exact ⟨y, List.mem_cons_of_mem x hy, hfails⟩

end Except
