import Mathlib.Order.Basic

/-!
# Drain — calling a producer until it has nothing left

A producer `next` answers a list and its new state.  `drain next n s` are its answers from `s` up to
the first empty one, with at most `n` calls.  `Drains next s out` says that the calls end with the
answers `out`, and `Yields next s l` that the answers put together are `l`.
-/

namespace Influxdb

variable {α σ τ : Type*} {next : σ → List α × σ} {s : σ} {out : List (List α)} {l : List α} {I : σ → Prop}
variable {next' : τ → List α × τ}

/-- The answers up to the first empty one; out of fuel is `none`. -/
def drain (next : σ → List α × σ) : ℕ → σ → Option (List (List α))
  | 0, _ => none
  | n + 1, s => if (next s).1 = [] then some [] else (drain next n (next s).2).map ((next s).1 :: ·)

/-- The calls end, with the answers `out`. -/
def Drains (next : σ → List α × σ) (s : σ) (out : List (List α)) : Prop :=
  ∃ N, ∀ n ≥ N, drain next n s = some out

/-- The calls end, and their answers put together are `l`. -/
def Yields (next : σ → List α × σ) (s : σ) (l : List α) : Prop :=
  ∃ out, Drains next s out ∧ out.flatten = l

/-- The states in which `next` is called. -/
inductive Calls (next : σ → List α × σ) : σ → σ → Prop
  | refl (s : σ) : Calls next s s
  | step {s s' : σ} : (next s).1 ≠ [] → Calls next (next s).2 s' → Calls next s s'

theorem Drains.unique {out' : List (List α)} (h : Drains next s out) (h' : Drains next s out') : out = out' := by
  obtain ⟨N, hN⟩ := h
  obtain ⟨N', hN'⟩ := h'
  have h1 := hN (N + N') (by omega)
  rw [hN' (N + N') (by omega)] at h1
  exact (Option.some.inj h1).symm

theorem drains_iff_of_ne (h : (next s).1 ≠ []) :
    Drains next s out ↔ ∃ more, out = (next s).1 :: more ∧ Drains next (next s).2 more := by
  constructor
  · rintro ⟨N, hN⟩
    have h1 := hN (N + 1) (by omega)
    rw [drain, if_neg h, Option.map_eq_some_iff] at h1
    obtain ⟨more, -, rfl⟩ := h1
    refine ⟨more, rfl, N, fun n hn => ?_⟩
    have h2 := hN (n + 1) (by omega)
    rw [drain, if_neg h, Option.map_eq_some_iff] at h2
    obtain ⟨more', h3, h4⟩ := h2
    rw [h3, (List.cons.inj h4).2]
  · rintro ⟨more, rfl, N, hN⟩
    refine ⟨N + 1, fun n hn => ?_⟩
    obtain ⟨n, rfl⟩ : ∃ k, n = k + 1 := ⟨n - 1, by omega⟩
    rw [drain, if_neg h, hN n (by omega)]
    rfl

theorem drain_map {f : σ → τ} (hI : ∀ s, I s → I (next s).2)
    (hf : ∀ s, I s → next' (f s) = ((next s).1, f (next s).2)) : ∀ n {s : σ}, I s → drain next' n (f s) = drain next n s
  | 0, _, _ => rfl
  | n + 1, s, hs => by
    rw [drain, drain, hf s hs]
    rw [drain_map hI hf n (hI s hs)]

theorem Yields.unique {l' : List α} (h : Yields next s l) (h' : Yields next s l') : l = l' := by
  obtain ⟨out, h1, rfl⟩ := h
  obtain ⟨out', h2, rfl⟩ := h'
  rw [h1.unique h2]

theorem yields_of_nil (h : (next s).1 = []) : Yields next s [] := by
  refine ⟨[], ⟨1, fun n hn => ?_⟩, rfl⟩
  obtain ⟨n, rfl⟩ : ∃ k, n = k + 1 := ⟨n - 1, by omega⟩
  rw [drain, if_pos h]

theorem yields_iff_of_ne (h : (next s).1 ≠ []) :
    Yields next s l ↔ ∃ more, l = (next s).1 ++ more ∧ Yields next (next s).2 more := by
  constructor
  · rintro ⟨out, hout, rfl⟩
    obtain ⟨more, rfl, hmore⟩ := (drains_iff_of_ne h).mp hout
    exact ⟨more.flatten, rfl, more, hmore, rfl⟩
  · rintro ⟨_, rfl, more, hmore, rfl⟩
    exact ⟨_, (drains_iff_of_ne h).mpr ⟨more, rfl, hmore⟩, rfl⟩

theorem yields_map {f : σ → τ} (hI : ∀ s, I s → I (next s).2)
    (hf : ∀ s, I s → next' (f s) = ((next s).1, f (next s).2)) (hs : I s) : Yields next' (f s) l ↔ Yields next s l := by
  unfold Yields Drains
  simp only [drain_map hI hf _ hs]

theorem Calls.invariant (hI : ∀ s, I s → I (next s).2) {s' : σ} (h : Calls next s s') (hs : I s) : I s' := by
  induction h with
  | refl s => exact hs
  | step _ _ ih => exact ih (hI _ hs)

/-- A producer whose calls answer the first of the elements left, some of them if there are any, yields
them all. -/
theorem yields_of_step {R : σ → List α}
    (hstep : ∀ s, I s → R s = (next s).1 ++ R (next s).2 ∧ I (next s).2 ∧ ((next s).1 = [] → R s = []))
    (hs : I s) : Yields next s (R s) := by
  generalize hn : (R s).length = n
  induction n using Nat.strongRecOn generalizing s with
  | ind n ih =>
    obtain ⟨h1, h2, h3⟩ := hstep s hs
    by_cases hnil : (next s).1 = []
    · rw [h3 hnil]
      exact yields_of_nil hnil
    · refine (yields_iff_of_ne hnil).mpr ⟨_, h1, ih _ ?_ h2 rfl⟩
      have hpos := List.length_pos_iff.mpr hnil
      rw [← hn, h1, List.length_append]
      omega

end Influxdb
