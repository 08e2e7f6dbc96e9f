import Mathlib.Order.Basic

/-!
# Iter — reading an iterator to its end

An iterator has `next`, which says whether there is a value, and `read`, which returns it; both may change
the state.  `collect` calls them in turn until `next` says no, and `Collects next read s l s'` that this ends
in `s'` with the values `l`.  A `Simulation` relates states that no caller can tell apart.
-/

namespace Influxdb

variable {α σ : Type*} {next : σ → Bool × σ} {read : σ → α × σ} {s s' : σ} {l : List α}

/-- The values up to the first `next` that says no, and the state then; out of fuel is `none`. -/
def collect (next : σ → Bool × σ) (read : σ → α × σ) : ℕ → σ → Option (List α × σ)
  | 0, _ => none
  | n + 1, s =>
    match next s with
    | (false, s) => some ([], s)
    | (true, s) => (collect next read n (read s).2).map fun r => ((read s).1 :: r.1, r.2)

/-- The calls end in `s'`, with the values `l`. -/
def Collects (next : σ → Bool × σ) (read : σ → α × σ) (s : σ) (l : List α) (s' : σ) : Prop :=
  ∃ N, ∀ n ≥ N, collect next read n s = some (l, s')

theorem collects_of_false (h : next s = (false, s')) : Collects next read s [] s' := by
  refine ⟨1, fun n hn => ?_⟩
  obtain ⟨n, rfl⟩ : ∃ k, n = k + 1 := ⟨n - 1, by omega⟩
  rw [collect, h]

theorem collects_of_true {t u : σ} {a : α} (h : next s = (true, t)) (hread : read t = (a, u))
    (hrest : Collects next read u l s') : Collects next read s (a :: l) s' := by
  obtain ⟨N, hN⟩ := hrest
  refine ⟨N + 1, fun n hn => ?_⟩
  obtain ⟨n, rfl⟩ : ∃ k, n = k + 1 := ⟨n - 1, by omega⟩
  rw [collect, h]
  simp only
  rw [hread, hN n (by omega)]
  rfl

/-- Iterators in related states say the same and return the same, and stay related. -/
structure Simulation (next : σ → Bool × σ) (read : σ → α × σ) (R : σ → σ → Prop) : Prop where
  next_eq : ∀ {s t}, R s t → (next s).1 = (next t).1
  next_rel : ∀ {s t}, R s t → R (next s).2 (next t).2
  read_eq : ∀ {s t}, R s t → (next s).1 = true → (read (next s).2).1 = (read (next t).2).1
  read_rel : ∀ {s t}, R s t → (next s).1 = true → R (read (next s).2).2 (read (next t).2).2

theorem collect_of_some {N n : ℕ} {r : List α × σ} (h : collect next read N s = some r) (hn : r.1.length < n) :
    collect next read n s = some r := by
  induction N generalizing s r n with
  | zero => exact absurd h (by simp [collect])
  | succ N ih =>
    obtain ⟨n, rfl⟩ : ∃ k, n = k + 1 := ⟨n - 1, by omega⟩
    rw [collect] at h ⊢
    rcases hs : next s with ⟨_ | _, t⟩
    · rw [hs] at h
      exact h
    · rw [hs] at h
      obtain ⟨r', hr', rfl⟩ := Option.map_eq_some_iff.mp h
      rw [List.length_cons] at hn
      simp only
      rw [ih hr' (by omega)]
      rfl

theorem Collects.collect_eq (h : Collects next read s l s') {n : ℕ} (hn : l.length < n) :
    collect next read n s = some (l, s') := by
  obtain ⟨N, hN⟩ := h
  exact collect_of_some (hN N (Nat.le_refl N)) hn

end Influxdb
