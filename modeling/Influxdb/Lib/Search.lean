import Influxdb.Lib.Timed

/-!
# Search — binary search over a range of positions

`searchLoop left n lo hi` halves the window `[lo, hi)`: a midpoint with `left` moves the lower end past
it, any other moves the upper end down to it.  When `left` holds exactly below a position `k`, the
search ends at `k`; for an arbitrary predicate it still ends where the predicate holds, or at the end.
-/

namespace Influxdb

/-- The halving loop, with fuel for the width of the window. -/
def searchLoop (left : ℕ → Bool) : ℕ → ℕ → ℕ → ℕ
  | 0, lo, _ => lo
  | n + 1, lo, hi =>
    if lo < hi then
      let mid := (lo + hi) / 2
      if left mid then searchLoop left n (mid + 1) hi else searchLoop left n lo mid
    else lo

/-- The smallest position below `n` at which `f` holds, for a monotone `f`; `n` if there is none. -/
def sortSearch (n : ℕ) (f : ℕ → Bool) : ℕ := searchLoop (fun i => !f i) n 0 n

theorem searchLoop_eq {left : ℕ → Bool} {len k : ℕ} (h : ∀ i < len, left i = true ↔ i < k) :
    ∀ n lo hi, hi - lo ≤ n → lo ≤ k → k ≤ hi → hi ≤ len → searchLoop left n lo hi = k
  | 0, lo, hi, hn, h1, h2, _ => by
    rw [searchLoop]; omega
  | n + 1, lo, hi, hn, h1, h2, h3 => by
    rw [searchLoop]
    by_cases hlt : lo < hi
    · rw [if_pos hlt]
      have hiff := h ((lo + hi) / 2) (by omega)
      by_cases ht : left ((lo + hi) / 2) = true
      · have := hiff.mp ht
        simp only [ht, if_true]
        exact searchLoop_eq h n _ _ (by omega) (by omega) h2 h3
      · have := mt hiff.mpr ht
        simp only [ht]
        exact searchLoop_eq h n _ _ (by omega) h1 (by omega) (by omega)
    · rw [if_neg hlt]; omega

theorem sortSearch_eq {n k : ℕ} {f : ℕ → Bool} (hk : k ≤ n) (h : ∀ i < n, f i = true ↔ k ≤ i) : sortSearch n f = k := by
  refine searchLoop_eq (fun i hi => ?_) n 0 n le_rfl (Nat.zero_le k) hk le_rfl
  have := h i hi
  rw [Bool.not_eq_true', ← Bool.not_eq_true, this, not_le]

theorem sortSearch_stops (n : ℕ) (f : ℕ → Bool) : sortSearch n f < n → f (sortSearch n f) = true := by
  have key : ∀ k lo hi, hi - lo ≤ k → lo ≤ hi → hi ≤ n → (hi < n → f hi = true) →
      searchLoop (fun i => !f i) k lo hi < n → f (searchLoop (fun i => !f i) k lo hi) = true := by
    intro k
    induction k with
    | zero =>
      intro lo hi hk hle _ hf hlt
      rw [searchLoop] at hlt ⊢
      have heq : lo = hi := by omega
      rw [heq] at hlt ⊢
      exact hf hlt
    | succ k ih =>
      intro lo hi hk hle hn hf
      rw [searchLoop]
      split_ifs with hlt
      · cases hmid : f ((lo + hi) / 2) with
        | true =>
          simp only [hmid, Bool.not_true, Bool.false_eq_true, if_false]
          exact ih lo _ (by omega) (by omega) (by omega) fun _ => hmid
        | false =>
          simp only [hmid, Bool.not_false, if_true]
          exact ih _ hi (by omega) (by omega) hn hf
      · intro hlo
        have heq : lo = hi := by omega
        rw [heq] at hlo ⊢
        exact hf hlo
  exact key n 0 n (by omega) (Nat.zero_le n) le_rfl fun h => absurd h (lt_irrefl n)

namespace Timed

variable {T V : Type*} [LinearOrder T] {l : List (T × V)}

/-- On an ascending list the search for the first time from `v` on skips the pairs before `v`. -/
theorem sortSearch_ge (h : Asc l) {v : T} {f : ℕ → Bool} (hf : ∀ i, (hi : i < l.length) → f i = decide (v ≤ l[i].1)) :
    sortSearch l.length f = below l v := by
  refine sortSearch_eq (below_le l v) fun i hi => ?_
  rw [hf i hi, decide_eq_true_eq, ← not_lt, h.getElem_lt_iff hi, not_lt]

end Timed

end Influxdb
