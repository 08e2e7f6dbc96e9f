import Mathlib.Data.List.Infix

/-!
# Histories — what holds throughout a history

A history is a list of operations, each of which takes a state to the next.  If a step from a right state leads to a right
state precisely when it meets a condition, then all states of a history are right precisely if all its steps meet the
condition.
-/

namespace Influxdb

variable {σ ι : Type*} {step : σ → ι → σ} {Inv Right : σ → Prop} {Allowed : ι → Prop} {Meets : σ → ι → Prop} {s : σ}

theorem inv_foldl (hstep : ∀ s i, Allowed i → Inv s → Inv (step s i)) {is : List ι} (hall : ∀ i ∈ is, Allowed i)
    (hinv : Inv s) : Inv (is.foldl step s) := by
  induction is generalizing s with
  | nil => exact hinv
  | cons i is ih =>
    exact ih (List.forall_mem_cons.mp hall).2 (hstep s i (hall i List.mem_cons_self) hinv)

/-- **All states are right iff all steps meet the condition.** -/
theorem right_throughout_iff (hstep : ∀ s i, Allowed i → Inv s → Inv (step s i))
    (hright : ∀ s i, Allowed i → Inv s → Right s → (Right (step s i) ↔ Meets s i)) {is : List ι}
    (hall : ∀ i ∈ is, Allowed i) (hinv : Inv s) (h₀ : Right s) : (∀ pre, pre <+: is → Right (pre.foldl step s)) ↔
      ∀ pre i, pre ++ [i] <+: is → Meets (pre.foldl step s) i := by
  have hkey : ∀ pre i, pre ++ [i] <+: is → Right (pre.foldl step s) →
      (Right ((pre ++ [i]).foldl step s) ↔ Meets (pre.foldl step s) i) := by
    intro pre i hpre hr
    have hmem : ∀ j ∈ pre ++ [i], Allowed j := fun j hj => hall j (hpre.subset hj)
    rw [List.foldl_append]
    refine hright _ i (hmem i (by simp)) ?_ hr
    exact inv_foldl hstep (List.forall_mem_append.mp hmem).1 hinv
  constructor
  · intro h pre i hpre
    exact (hkey pre i hpre (h pre ((List.prefix_append pre [i]).trans hpre))).mp (h _ hpre)
  · intro h pre
    induction pre using List.reverseRecOn with
    | nil => exact fun _ => h₀
    | append_singleton pre i ih =>
      intro hpre
      have hr := ih ((List.prefix_append pre [i]).trans hpre)
      exact (hkey pre i hpre hr).mpr (h pre i hpre)

theorem meets_throughout_nil : ∀ pre i, pre ++ [i] <+: ([] : List ι) → Meets (pre.foldl step s) i := by
  intro pre i hpre
  exact absurd (List.prefix_nil.mp hpre) (by simp)

theorem meets_throughout_cons {i : ι} {is : List ι} (h : Meets s i)
    (hrest : ∀ pre j, pre ++ [j] <+: is → Meets (pre.foldl step (step s i)) j) :
    ∀ pre j, pre ++ [j] <+: i :: is → Meets (pre.foldl step s) j := by
  intro pre j hpre
  cases pre with
  | nil =>
    obtain ⟨rfl, -⟩ := List.cons_prefix_cons.mp hpre
    exact h
  | cons i' pre =>
    obtain ⟨rfl, htail⟩ := List.cons_prefix_cons.mp hpre
    exact hrest pre j htail

end Influxdb
