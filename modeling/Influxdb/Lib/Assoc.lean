import Mathlib.Algebra.Ring.Nat
import Mathlib.Data.List.Nodup

/-!
# Assoc — association lists with weights

A finite map as a list of pairs; the first pair with a key counts.  The weight of a list is the sum of the weights of its
pairs; storing a value and removing a key change it by the weights of the values involved.
-/

namespace Influxdb.Assoc

open List Prod

variable {K V : Type*} [DecidableEq K] {l : List (K × V)} {k k' : K} {v v' : V} {w : K → V → ℕ}

def get (k : K) : List (K × V) → Option V
  | [] => none
  | p :: l => if p.1 = k then some p.2 else get k l

/-- Store a value, in the place of the one that is there. -/
def put (k : K) (v : V) : List (K × V) → List (K × V)
  | [] => [(k, v)]
  | p :: l => if p.1 = k then (k, v) :: l else p :: put k v l

def erase (k : K) (l : List (K × V)) : List (K × V) := l.filter fun p => p.1 ≠ k

variable (f : V → V)

def mapValues (l : List (K × V)) : List (K × V) := l.map fun p => (p.1, f p.2)

def weight (w : K → V → ℕ) (l : List (K × V)) : ℕ := (l.map fun p => w p.1 p.2).sum

theorem get_cons (p : K × V) (l : List (K × V)) (k : K) : get k (p :: l) = if p.1 = k then some p.2 else get k l := rfl

@[simp] theorem get_nil (k : K) : get k ([] : List (K × V)) = none := rfl

@[simp] theorem get_put_self (k : K) (v : V) (l : List (K × V)) : get k (put k v l) = some v := by
  induction l with
  | nil => rw [put, get_cons, if_pos rfl]
  | cons p l ih =>
    rw [put]
    split_ifs with h
    · rw [get_cons, if_pos rfl]
    · rw [get_cons, if_neg h, ih]

theorem get_put_of_ne (h : k' ≠ k) (v : V) (l : List (K × V)) : get k' (put k v l) = get k' l := by
  induction l with
  | nil => rw [put, get_cons, if_neg (Ne.symm h)]
  | cons p l ih =>
    rw [put]
    split_ifs with hp
    · rw [get_cons, get_cons, if_neg (Ne.symm h), if_neg (hp ▸ Ne.symm h)]
    · rw [get_cons, get_cons, ih]

theorem mem_of_get (h : get k l = some v) : (k, v) ∈ l := by
  induction l with
  | nil => cases h
  | cons p l ih =>
    rw [get_cons] at h
    by_cases hp : p.1 = k
    · rw [if_pos hp] at h
      obtain rfl := hp
      cases h
      exact mem_cons_self
    · rw [if_neg hp] at h
      exact mem_cons_of_mem p (ih h)

theorem get_eq_none : get k l = none ↔ k ∉ l.map fst := by
  induction l with
  | nil => simp
  | cons p l ih =>
    rw [get_cons, map_cons, mem_cons]
    by_cases h : p.1 = k
    · simp [h]
    · rw [if_neg h, ih]
      simp [Ne.symm h]

theorem put_of_not_mem (h : k ∉ l.map fst) (v : V) : put k v l = l ++ [(k, v)] := by
  induction l with
  | nil => rfl
  | cons p l ih =>
    rw [map_cons, mem_cons, not_or] at h
    rw [put, if_neg (Ne.symm h.1), ih h.2, cons_append]

theorem mem_keys_put (k' : K) (v : V) (l : List (K × V)) : k ∈ (put k' v l).map fst ↔ k = k' ∨ k ∈ l.map fst := by
  induction l with
  | nil => simp [put]
  | cons p l ih =>
    rw [put]
    split_ifs with h
    · simp [h]
    · rw [map_cons, mem_cons, ih, map_cons, mem_cons]
      exact or_left_comm

theorem nodup_put (h : (l.map fst).Nodup) (k : K) (v : V) : ((put k v l).map fst).Nodup := by
  induction l with
  | nil => simp [put]
  | cons p l ih =>
    rw [map_cons, nodup_cons] at h
    rw [put]
    split_ifs with hk
    · rw [map_cons, nodup_cons]
      exact ⟨hk ▸ h.1, h.2⟩
    · rw [map_cons, nodup_cons, mem_keys_put, not_or]
      exact ⟨⟨hk, h.1⟩, ih h.2⟩

theorem mem_put {p : K × V} (h : p ∈ put k v l) : p = (k, v) ∨ p ∈ l := by
  induction l with
  | nil => exact .inl (mem_singleton.mp h)
  | cons q l ih =>
    rw [put] at h
    split_ifs at h with hk
    · exact (mem_cons.mp h).imp_right (mem_cons_of_mem q)
    · rcases mem_cons.mp h with rfl | h
      · exact .inr mem_cons_self
      · exact (ih h).imp_right (mem_cons_of_mem q)

theorem get_eq_some_iff (h : (l.map fst).Nodup) : get k l = some v ↔ (k, v) ∈ l := by
  refine ⟨mem_of_get, fun hmem => ?_⟩
  induction l with
  | nil => cases hmem
  | cons p l ih =>
    obtain ⟨hp, hl⟩ := nodup_cons.mp h
    rw [get_cons]
    rcases mem_cons.mp hmem with rfl | hmem
    · exact if_pos rfl
    · have hne : p.1 ≠ k := fun heq => hp (heq ▸ mem_map_of_mem hmem)
      rw [if_neg hne]
      exact ih hl hmem

theorem get_eq_of_perm {l' : List (K × V)} (h : (l.map fst).Nodup) (hp : l'.Perm l) (k : K) : get k l' = get k l := by
  have h' : (l'.map fst).Nodup := (hp.map fst).nodup_iff.mpr h
  refine Option.ext fun v => ?_
  rw [get_eq_some_iff h', get_eq_some_iff h, hp.mem_iff]

theorem get_foldl_put {l m : List (K × V)} (h : (l.map fst).Nodup) (k : K) :
    get k (l.foldl (fun m p => put p.1 p.2 m) m) = (get k l).or (get k m) := by
  induction l generalizing m with
  | nil => rfl
  | cons p l ih =>
    obtain ⟨hp, hl⟩ := nodup_cons.mp h
    rw [foldl_cons, ih hl, get_cons]
    by_cases hk : p.1 = k
    · subst hk
      rw [get_eq_none.mpr hp, if_pos rfl, get_put_self]
      rfl
    · rw [if_neg hk, get_put_of_ne (Ne.symm hk)]

theorem erase_cons (k : K) (p : K × V) (l : List (K × V)) :
    erase k (p :: l) = if p.1 = k then erase k l else p :: erase k l := by
  rw [erase, filter_cons, ← erase]
  by_cases h : p.1 = k <;> simp [h]

theorem get_filter (q : K → Bool) (l : List (K × V)) (k : K) :
    get k (l.filter fun p => q p.1) = if q k then get k l else none := by
  induction l with
  | nil => split_ifs <;> rfl
  | cons p l ih =>
    rw [filter_cons, get_cons]
    by_cases hk : p.1 = k
    · subst hk
      by_cases hq : q p.1 = true
      · rw [if_pos hq, if_pos hq, get_cons, if_pos rfl, if_pos rfl]
      · rw [if_neg hq, if_neg hq, ih, if_neg hq]
    · rw [if_neg hk]
      by_cases hq : q p.1 = true
      · rw [if_pos hq, get_cons, if_neg hk, ih]
      · rw [if_neg hq, ih]

theorem get_erase (k k' : K) (l : List (K × V)) : get k' (erase k l) = if k' = k then none else get k' l := by
  rw [erase, get_filter fun x => decide (x ≠ k)]
  by_cases hk : k' = k <;> simp [hk]

theorem get_mapValues (l : List (K × V)) (k : K) : get k (mapValues f l) = (get k l).map f := by
  induction l with
  | nil => rfl
  | cons p l ih =>
    rw [mapValues, map_cons, ← mapValues, get_cons, get_cons, ih]
    split_ifs <;> rfl

/-! ## Weights -/

omit [DecidableEq K] in
theorem weight_cons (w : K → V → ℕ) (p : K × V) (l : List (K × V)) : weight w (p :: l) = w p.1 p.2 + weight w l := by
  rw [weight, map_cons, sum_cons, weight]

theorem weight_put_of_none (h : get k l = none) : weight w (put k v l) = weight w l + w k v := by
  rw [put_of_not_mem (get_eq_none.mp h), weight, map_append, sum_append, ← weight]
  rfl

theorem weight_put_of_some (h : get k l = some v') : weight w (put k v l) + w k v' = weight w l + w k v := by
  induction l with
  | nil => nomatch h
  | cons p l ih =>
    rw [get_cons] at h
    split_ifs at h with hk
    · cases h
      subst hk
      rw [put, if_pos rfl, weight_cons, weight_cons]
      simp only
      omega
    · have hrest := ih h
      rw [put, if_neg hk, weight_cons, weight_cons]
      omega

theorem weight_erase_le (k : K) (l : List (K × V)) : weight w (erase k l) ≤ weight w l := by
  induction l with
  | nil => exact le_rfl
  | cons p l ih =>
    rw [erase_cons, weight_cons]
    split_ifs
    · omega
    · rw [weight_cons]
      omega

theorem weight_erase (h : get k l = some v) : weight w (erase k l) + w k v ≤ weight w l := by
  induction l with
  | nil => nomatch h
  | cons p l ih =>
    rw [get_cons] at h
    rw [erase_cons, weight_cons]
    split_ifs at h with hk
    · cases h
      subst hk
      have hle := weight_erase_le (w := w) p.1 l
      rw [if_pos rfl]
      omega
    · have hrest := ih h
      rw [if_neg hk, weight_cons]
      omega

omit [DecidableEq K] in
theorem weight_mapValues_le (hf : ∀ k v, w k (f v) ≤ w k v) (l : List (K × V)) :
    weight w (mapValues f l) ≤ weight w l := by
  induction l with
  | nil => exact le_rfl
  | cons p l ih =>
    have := hf p.1 p.2
    rw [mapValues, map_cons, ← mapValues, weight_cons, weight_cons]
    simp only
    omega

end Influxdb.Assoc
