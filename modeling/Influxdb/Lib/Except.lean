import Mathlib.Tactic.TypeStar

/-!
# Except — what a computation that succeeds has gone through

A chain of guards and steps that ends in `ok` has passed every guard, and every step has succeeded.
-/

namespace Influxdb

universe u

variable {ε : Type*} {α β : Type u} {x : Except ε α}

theorem bind_eq_ok {f : α → Except ε β} {y : β} (h : x >>= f = .ok y) : ∃ a, x = .ok a ∧ f a = .ok y := by
  cases x with
  | error err => nomatch h
  | ok a => exact ⟨a, rfl, h⟩

theorem ok_of_ite {c : Prop} [Decidable c] {err : ε} {y : α}
    (h : (if c then .error err else x) = .ok y) : x = .ok y := by
  split at h
  · nomatch h
  · exact h

theorem passed_of_ite {c : Prop} [Decidable c] {err : ε} {y : α}
    (h : (if c then .error err else x) = .ok y) : ¬c ∧ x = .ok y := by
  refine ⟨?_, ok_of_ite h⟩
  intro hc
  rw [if_pos hc] at h
  nomatch h

end Influxdb
