import Influxdb.Lib.Assoc
import Mathlib.Algebra.Order.BigOperators.Group.List
import Mathlib.Algebra.Order.Group.Nat

/-!
# MergeGroups — merging sorted maps into groups

An iterator over several sorted lists of pairs: it finds the least key among the heads, hands out the values that the lists
have for it, in the order of the lists, and moves those lists on.  Of strictly increasing lists it makes a strictly
increasing list of groups, and the group of a key holds what each list has for the key (`get_mergeGroups`).
-/

namespace Influxdb

open List Assoc

variable {K : Type*} [LinearOrder K] {α : Type*} {k k' : K} {l : List (K × α)} {ls : List (List (K × α))}

/-- The keys of a map increase strictly. -/
def Increasing (l : List (K × α)) : Prop := l.Pairwise fun p q => p.1 < q.1

theorem Increasing.nodup (h : Increasing l) : (l.map Prod.fst).Nodup :=
  pairwise_map.mpr (h.imp fun hlt => ne_of_lt hlt)

/-- The lesser of a key that is there or not and the first key of a list. -/
def lesserHead (m : Option K) : List (K × α) → Option K
  | [] => m
  | p :: _ => if m.all fun k => p.1 < k then some p.1 else m

/-- The least key among the heads. -/
def leastHead (ls : List (List (K × α))) : Option K := ls.foldl lesserHead none

/-- The value at the head of a list, if its key is `k`. -/
def headOf (k : K) : List (K × α) → Option α
  | [] => none
  | p :: _ => if p.1 = k then some p.2 else none

/-- A list without its head, if the key of that is `k`. -/
def tailOf (k : K) : List (K × α) → List (K × α)
  | [] => []
  | p :: l => if p.1 = k then l else p :: l

/-- The groups that `n` calls of the iterator hand out. -/
def mergeSteps : ℕ → List (List (K × α)) → List (K × List α)
  | 0, _ => []
  | n + 1, ls =>
    match leastHead ls with
    | none => []
    | some k => (k, ls.filterMap (headOf k)) :: mergeSteps n (ls.map (tailOf k))

def mergeGroups (ls : List (List (K × α))) : List (K × List α) := mergeSteps (ls.map length).sum ls

/-! ## One call -/

theorem foldl_lesserHead_none {m : Option K} (h : ls.foldl lesserHead m = none) : m = none ∧ ∀ l ∈ ls, l = [] := by
  induction ls generalizing m with
  | nil => exact ⟨h, forall_mem_nil _⟩
  | cons l ls ih =>
    obtain ⟨hm, hls⟩ := ih h
    cases l with
    | nil => exact ⟨hm, forall_mem_cons.mpr ⟨rfl, hls⟩⟩
    | cons p l =>
      rw [lesserHead] at hm
      cases m with
      | none => simp at hm
      | some k => by_cases hlt : p.1 < k <;> simp [hlt] at hm

theorem foldl_lesserHead_some {m : Option K} (h : ls.foldl lesserHead m = some k) :
    (m = some k ∨ ∃ l ∈ ls, l.head?.map Prod.fst = some k) ∧ (∀ k' ∈ m, k ≤ k') ∧
      ∀ l ∈ ls, ∀ k' ∈ l.head?.map Prod.fst, k ≤ k' := by
  induction ls generalizing m with
  | nil =>
    obtain rfl : m = some k := h
    exact ⟨.inl rfl, fun k' hk => le_of_eq (Option.some.inj hk), forall_mem_nil _⟩
  | cons l ls ih =>
    obtain ⟨hfrom, hm, hls⟩ := ih h
    cases l with
    | nil =>
      refine ⟨hfrom.imp_right exists_mem_cons_of_exists, hm, ?_⟩
      exact forall_mem_cons.mpr ⟨fun k' hk => absurd hk (by simp), hls⟩
    | cons p l =>
      rw [lesserHead] at hfrom hm
      by_cases hless : (m.all fun k => p.1 < k) = true
      · rw [if_pos hless] at hfrom hm
        have hkp : k ≤ p.1 := hm p.1 rfl
        refine ⟨.inr ((exists_mem_cons_iff _ _ _).mpr hfrom), ?_, forall_mem_cons.mpr ⟨?_, hls⟩⟩
        · intro k' hk'
          obtain rfl : m = some k' := hk'
          exact hkp.trans (le_of_lt (by simpa using hless))
        · intro k' hk'
          obtain rfl : p.1 = k' := by simpa using hk'
          exact hkp
      · rw [if_neg hless] at hfrom hm
        refine ⟨hfrom.imp_right exists_mem_cons_of_exists, hm, forall_mem_cons.mpr ⟨?_, hls⟩⟩
        intro k' hk'
        obtain rfl : p.1 = k' := by simpa using hk'
        cases m with
        | none => exact absurd rfl hless
        | some k'' =>
          have hle : k'' ≤ p.1 := by simpa using hless
          exact (hm k'' rfl).trans hle

theorem headOf_eq_get (hl : Increasing l) (hk : ∀ k' ∈ l.head?.map Prod.fst, k ≤ k') : headOf k l = get k l := by
  cases l with
  | nil => rfl
  | cons p l =>
    rw [headOf, get_cons]
    split_ifs with hp
    · rfl
    · rw [eq_comm, get_eq_none]
      intro hmem
      obtain ⟨q, hq, rfl⟩ := mem_map.mp hmem
      exact absurd ((pairwise_cons.mp hl).1 q hq) (not_lt.mpr (hk p.1 rfl))

theorem increasing_tailOf (hl : Increasing l) (k : K) : Increasing (tailOf k l) := by
  cases l with
  | nil => exact hl
  | cons p l =>
    rw [tailOf]
    split_ifs
    · exact (pairwise_cons.mp hl).2
    · exact hl

theorem get_tailOf_of_ne (h : k' ≠ k) (l : List (K × α)) : get k' (tailOf k l) = get k' l := by
  cases l with
  | nil => rfl
  | cons p l =>
    rw [tailOf]
    split_ifs with hp
    · rw [get_cons, if_neg (hp ▸ Ne.symm h)]
    · rfl

theorem lt_of_mem_tailOf (hl : Increasing l) (hk : ∀ k' ∈ l.head?.map Prod.fst, k ≤ k') {p : K × α}
    (hp : p ∈ tailOf k l) : k < p.1 := by
  cases l with
  | nil => cases hp
  | cons q l =>
    rw [tailOf] at hp
    split_ifs at hp with hq
    · exact hq ▸ (pairwise_cons.mp hl).1 p hp
    · have hlt : k < q.1 := lt_of_le_of_ne (hk q.1 rfl) (Ne.symm hq)
      rcases mem_cons.mp hp with rfl | hp
      · exact hlt
      · exact hlt.trans ((pairwise_cons.mp hl).1 p hp)

omit [LinearOrder K] in
theorem sum_length_pos {l : List (K × α)} (hl : l ∈ ls) (hne : l ≠ []) : 0 < (ls.map length).sum := by
  have hmem : l.length ∈ ls.map length := mem_map_of_mem hl
  have hle := le_sum_of_mem hmem
  have := length_pos_iff.mpr hne
  omega

theorem length_tailOf_le (k : K) (l : List (K × α)) : (tailOf k l).length ≤ l.length := by
  cases l with
  | nil => exact le_rfl
  | cons p l =>
    rw [tailOf]
    split_ifs
    · exact Nat.le_succ _
    · exact le_rfl

theorem sum_length_tailOf_lt (h : ∃ l ∈ ls, l.head?.map Prod.fst = some k) :
    ((ls.map (tailOf k)).map length).sum < (ls.map length).sum := by
  induction ls with
  | nil =>
    obtain ⟨l, hl, -⟩ := h
    cases hl
  | cons l ls ih =>
    have hle : ((ls.map (tailOf k)).map length).sum ≤ (ls.map length).sum := by
      rw [map_map]
      exact sum_le_sum fun l _ => length_tailOf_le k l
    have hl := length_tailOf_le k l
    simp only [map_cons, sum_cons]
    obtain ⟨l', hl', hk⟩ := h
    rcases mem_cons.mp hl' with rfl | hl'
    · cases l' with
      | nil => cases hk
      | cons p l' =>
        have hp : p.1 = k := by simpa using hk
        rw [tailOf, if_pos hp, length_cons]
        omega
    · have := ih ⟨l', hl', hk⟩
      omega

/-! ## All calls -/

/-- What the lists have for a key, in their order. -/
def groupOf (k : K) (ls : List (List (K × α))) : List α := ls.filterMap (get k)

theorem groupOf_eq_nil_of_lt (h : ∀ l ∈ ls, ∀ p ∈ l, k < p.1) : groupOf k ls = [] := by
  rw [groupOf, filterMap_eq_nil_iff]
  intro l hl
  rw [get_eq_none]
  intro hmem
  obtain ⟨p, hp, hpk⟩ := mem_map.mp hmem
  exact absurd (h l hl p hp) (hpk ▸ lt_irrefl _)

theorem mergeSteps_spec {n : ℕ} (hinc : ∀ l ∈ ls, Increasing l) (hn : (ls.map length).sum ≤ n) :
    Increasing (mergeSteps n ls) ∧ ∀ k, get k (mergeSteps n ls) = if groupOf k ls = [] then none else some (groupOf k ls) := by
  have hempty : ∀ {ls : List (List (K × α))}, (∀ l ∈ ls, l = []) → ∀ k, none =
      if groupOf k ls = [] then none else some (groupOf k ls) := fun hnil k =>
    (if_pos (groupOf_eq_nil_of_lt fun l hl p hp => absurd (hnil l hl ▸ hp) not_mem_nil)).symm
  induction n generalizing ls with
  | zero =>
    have hnil : ∀ l ∈ ls, l = [] := by
      intro l hl
      by_contra hne
      have := sum_length_pos hl hne
      omega
    exact ⟨Pairwise.nil, hempty hnil⟩
  | succ n ih =>
    rw [mergeSteps]
    cases hk : leastHead ls with
    | none => exact ⟨Pairwise.nil, hempty (foldl_lesserHead_none hk).2⟩
    | some k =>
      obtain ⟨hfrom, -, hle⟩ := foldl_lesserHead_some hk
      have hfrom : ∃ l ∈ ls, l.head?.map Prod.fst = some k := hfrom.resolve_left (by simp)
      have hinc' : ∀ l ∈ ls.map (tailOf k), Increasing l := by
        refine forall_mem_map.mpr fun l' hl' => ?_
        exact increasing_tailOf (hinc l' hl') k
      have hlt : ∀ l ∈ ls.map (tailOf k), ∀ p ∈ l, k < p.1 := by
        refine forall_mem_map.mpr fun l' hl' p hp => ?_
        exact lt_of_mem_tailOf (hinc l' hl') (hle l' hl') hp
      obtain ⟨hinc₁, hget⟩ := ih hinc' (by have := sum_length_tailOf_lt hfrom; omega)
      have hgroup : ls.filterMap (headOf k) = groupOf k ls :=
        filterMap_congr fun l hl => headOf_eq_get (hinc l hl) (hle l hl)
      refine ⟨pairwise_cons.mpr ⟨fun p hp => ?_, hinc₁⟩, ?_⟩
      · by_contra hpk
        have hnil : groupOf p.1 (ls.map (tailOf k)) = [] :=
          groupOf_eq_nil_of_lt fun l hl q hq => (not_lt.mp hpk).trans_lt (hlt l hl q hq)
        have hnone := hget p.1
        rw [if_pos hnil, get_eq_none] at hnone
        exact hnone (mem_map_of_mem hp)
      · intro k'
        rw [get_cons]
        by_cases heq : k = k'
        · subst heq
          have hne : groupOf k ls ≠ [] := by
            obtain ⟨l, hl, hlk⟩ := hfrom
            cases l with
            | nil => cases hlk
            | cons q l =>
              have hq : get k (q :: l) = some q.2 := by
                rw [get_cons, if_pos (by simpa using hlk)]
              exact ne_nil_of_mem (mem_filterMap.mpr ⟨q :: l, hl, hq⟩)
          rw [if_pos rfl, if_neg hne, hgroup]
        · have hrest : groupOf k' (ls.map (tailOf k)) = groupOf k' ls := by
            rw [groupOf, filterMap_map, groupOf]
            exact filterMap_congr fun l _ => get_tailOf_of_ne (Ne.symm heq) l
          rw [if_neg heq, hget, hrest]

theorem increasing_mergeGroups (hinc : ∀ l ∈ ls, Increasing l) : Increasing (mergeGroups ls) :=
  (mergeSteps_spec hinc (Nat.le_refl _)).1

/-- **The group of a key** holds what each list has for it. -/
theorem get_mergeGroups (hinc : ∀ l ∈ ls, Increasing l) (k : K) :
    get k (mergeGroups ls) = if groupOf k ls = [] then none else some (groupOf k ls) :=
  (mergeSteps_spec hinc (Nat.le_refl _)).2 k

end Influxdb
