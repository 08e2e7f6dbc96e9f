import Influxdb.Lib.Search

/-!
# ArrayValues — `tsdb/cursors/arrayvalues.gen.go`

`FloatArray` and its four siblings are one template over the value type: two parallel slices, here a
list of pairs.  `search`, `FindRange`, `Exclude`, `Include` and `Merge` as the template has them, and
for ascending arrays what they compute: `Exclude` and `Include` are filters on the time
(`exclude_eq`, `include_eq`) and `Merge` is the overlay of its argument (`merge_eq`).
-/

namespace Influxdb.Cursors

open List Timed

variable {V : Type*} {p : Int × V}

/-- A timestamped value array (`FloatArray`, `IntegerArray`, ...). -/
abbrev ValueArray (V : Type*) := List (Int × V)

namespace ValueArray

variable (a : ValueArray V)

/-- `MinTime`; the source panics on an empty array. -/
def minTime : Int := (a.head?.map (·.1)).getD 0

/-- `MaxTime`; the source panics on an empty array. -/
def maxTime : Int := (a.getLast?.map (·.1)).getD 0

def timeAt (i : ℕ) : Int := (a[i]?.map (·.1)).getD 0

/-- Binary search for the position where `v` would be inserted. -/
def search (v : Int) : ℕ :=
  searchLoop (fun mid => a.timeAt mid < v) a.length 0 a.length

variable (min max : Int)

/-- `FindRange`; `none` is the source's `(-1, -1)`. -/
def findRange : Option (ℕ × ℕ) :=
  if a.length = 0 ∨ min > max then none
  else if a.maxTime < min ∨ a.minTime > max then none
  else some (a.search min, a.search max)

/-- `Exclude`: drop the values in `[min, max]`. -/
def exclude : ValueArray V :=
  match a.findRange min max with
  | none => a
  | some (rmin, rmax) =>
    if rmax < a.length then
      let rmax := if a.timeAt rmax = max then rmax + 1 else rmax
      let rest := a.length - rmax
      if rest > 0 then a.take rmin ++ a.drop rmax else a.take rmin
    else a.take rmin

/-- `Include`: keep the values in `[min, max]`. -/
def «include» : ValueArray V :=
  match a.findRange min max with
  | none => []
  | some (rmin, rmax) =>
    let rmax := if rmax < a.length ∧ a.timeAt rmax = max then rmax + 1 else rmax
    (a.drop rmin).take (rmax - rmin)

/-- The interleaving loop of `Merge`, on what is left of both arrays. -/
def mergeLoop : ValueArray V → ValueArray V → ValueArray V
  | [], b => b
  | p :: a, [] => p :: a
  | p :: a, q :: b =>
    if p.1 < q.1 then p :: mergeLoop a (q :: b)
    else if p.1 = q.1 then q :: mergeLoop a b
    else q :: mergeLoop (p :: a) b
termination_by a b => a.length + b.length

/-- `Merge` overlays `b` on top of `a`. -/
def merge (a b : ValueArray V) : ValueArray V :=
  if a.length = 0 then b
  else if b.length = 0 then a
  else if a.maxTime < b.minTime then a ++ b
  else if b.maxTime < a.minTime then b ++ a
  else mergeLoop a b

/-! ## Accessors -/

variable {a b : ValueArray V} {min max : Int}

theorem minTime_eq_head (h : a ≠ []) : a.minTime = (a.head h).1 := by
  cases a with
  | nil => exact absurd rfl h
  | cons p a => rfl

theorem maxTime_eq_getLast (h : a ≠ []) : a.maxTime = (a.getLast h).1 := by
  unfold maxTime
  rw [getLast?_eq_getLast_of_ne_nil h]
  rfl

theorem timeAt_eq {i : ℕ} (h : i < a.length) : a.timeAt i = a[i].1 := by
  unfold timeAt
  rw [getElem?_eq_getElem h]
  rfl

theorem minTime_mem (h : a ≠ []) : ∃ v, (a.minTime, v) ∈ a :=
  ⟨(a.head h).2, by rw [minTime_eq_head h]; exact head_mem h⟩

theorem maxTime_mem (h : a ≠ []) : ∃ v, (a.maxTime, v) ∈ a :=
  ⟨(a.getLast h).2, by rw [maxTime_eq_getLast h]; exact getLast_mem h⟩

variable (ha : Asc a)
include ha

theorem minTime_le (hp : p ∈ a) : a.minTime ≤ p.1 := by
  rw [minTime_eq_head (ne_nil_of_mem hp)]
  exact ha.head_le _ hp

theorem le_maxTime (hp : p ∈ a) : p.1 ≤ a.maxTime := by
  rw [maxTime_eq_getLast (ne_nil_of_mem hp)]
  exact ha.le_getLast _ hp

theorem minTime_le_maxTime (h : a ≠ []) : a.minTime ≤ a.maxTime := by
  obtain ⟨v, hv⟩ := minTime_mem h
  exact le_maxTime ha hv

theorem minTime_eq_of_mem {x : Int} {v : V} (hm : (x, v) ∈ a) (hle : ∀ p ∈ a, x ≤ p.1) : a.minTime = x := by
  obtain ⟨w, hw⟩ := minTime_mem (ne_nil_of_mem hm)
  exact le_antisymm (minTime_le ha hm) (hle _ hw)

theorem maxTime_eq_of_mem {x : Int} {v : V} (hm : (x, v) ∈ a) (hle : ∀ p ∈ a, p.1 ≤ x) : a.maxTime = x := by
  obtain ⟨w, hw⟩ := maxTime_mem (ne_nil_of_mem hm)
  exact le_antisymm (hle _ hw) (le_maxTime ha hm)

/-! ## Search -/

theorem search_eq (v : Int) : a.search v = below a v := by
  refine searchLoop_eq (fun i hi => ?_) _ _ _ (by omega) (by omega) (below_le a v) le_rfl
  rw [decide_eq_true_eq, timeAt_eq hi]
  exact ha.getElem_lt_iff hi v

/-! ## Exclude and Include -/

theorem below_succ_eq (max : Int) : below a (max + 1) =
      if below a max < a.length ∧ a.timeAt (below a max) = max then below a max + 1 else below a max := by
  induction a with
  | nil => rfl
  | cons p a ih =>
    obtain ⟨h1, h2⟩ := asc_cons.mp ha
    have ih := ih h2
    rw [below_cons, below_cons]
    by_cases hp : p.1 < max
    · -- the head is before `max`: the position is one further than in the tail
      simp only [hp, show p.1 < max + 1 by omega, if_true, length_cons]
      rw [ih]
      by_cases hlen : below a max < a.length
      · have e : timeAt (p :: a) (below a max + 1) = timeAt a (below a max) := rfl
        simp only [hlen, true_and, e, show below a max + 1 < a.length + 1 by omega]
        split_ifs <;> omega
      · simp only [hlen, false_and, if_false, show ¬ below a max + 1 < a.length + 1 by omega]
    · have hl : ∀ q ∈ a, max + 1 ≤ q.1 := fun q hq => by have := h1 q hq; omega
      rw [below_eq_zero hl, below_eq_zero fun q hq => by have := hl q hq; omega]
      simp only [hp, if_false, length_cons, Nat.add_zero]
      have e : timeAt (p :: a) 0 = p.1 := rfl
      simp only [e, Nat.zero_lt_succ, true_and]
      by_cases hm : p.1 = max
      · simp [hm, show max < max + 1 by omega]
      · simp [hm, show ¬ p.1 < max + 1 by omega]

theorem findRange_eq_some {r : ℕ × ℕ} (h : a.findRange min max = some r) :
    min ≤ max ∧ r = (below a min, below a max) := by
  unfold findRange at h
  split_ifs at h with h1 h2
  rw [search_eq ha, search_eq ha] at h
  exact ⟨by omega, (Option.some.inj h).symm⟩

theorem findRange_eq_none (h : a.findRange min max = none) (hp : p ∈ a) : ¬ (min ≤ p.1 ∧ p.1 ≤ max) := by
  have h5 := minTime_le ha hp
  have h6 := le_maxTime ha hp
  unfold findRange at h
  split_ifs at h with h1 h2
  · rcases h1 with h1 | h1
    · exact absurd (length_eq_zero_iff.mp h1) (ne_nil_of_mem hp)
    · omega
  · omega

theorem exclude_of_some (h : a.findRange min max = some (below a min, below a max)) :
    a.exclude min max = a.take (below a min) ++ a.drop (below a (max + 1)) := by
  unfold exclude
  simp only [h]
  rw [below_succ_eq ha]
  by_cases hlen : below a max < a.length
  · simp only [hlen, if_true, true_and]
    split_ifs with h1 h2 h2
    · rfl
    · rw [drop_of_length_le (by omega), append_nil]
    · rfl
    · omega
  · rw [if_neg hlen, if_neg (by tauto), drop_of_length_le (by omega), append_nil]

/-- **`Exclude`** keeps the values outside of `[min, max]`. -/
theorem exclude_eq (min max : Int) : a.exclude min max = a.filter (fun p => ¬ (min ≤ p.1 ∧ p.1 ≤ max)) := by
  cases h : a.findRange min max with
  | none =>
    have e : a.exclude min max = a := by unfold exclude; simp only [h]
    rw [e, eq_comm, filter_eq_self]
    exact fun p hp => decide_eq_true (findRange_eq_none ha h hp)
  | some r =>
    obtain ⟨hmm, rfl⟩ := findRange_eq_some ha h
    rw [exclude_of_some ha h, ha.take_below, ha.drop_below]
    have hasc : Asc (a.filter (fun p => p.1 < min) ++ a.filter (fun p => max + 1 ≤ p.1)) := by
      refine asc_append.mpr ⟨ha.filter _, ha.filter _, fun p hp q hq => ?_⟩
      simp only [mem_filter, decide_eq_true_eq] at hp hq
      omega
    refine hasc.ext (ha.filter _) fun t => ?_
    rw [valueAt_append, valueAt_filter (fun t => t < min), valueAt_filter (fun t => max + 1 ≤ t),
      valueAt_filter (fun t => ¬ (min ≤ t ∧ t ≤ max))]
    by_cases h1 : t < min
    · simp [h1, show ¬ max + 1 ≤ t by omega]
    · by_cases h2 : max + 1 ≤ t
      · simp [h1, h2, show max < t by omega]
      · simp [h1, h2, show min ≤ t by omega, show t ≤ max by omega]

/-- **`Include`** keeps the values inside of `[min, max]`. -/
theorem include_eq (min max : Int) : a.include min max = a.filter (fun p => min ≤ p.1 ∧ p.1 ≤ max) := by
  unfold ValueArray.include
  cases h : a.findRange min max with
  | none =>
    symm
    rw [filter_eq_nil_iff]
    intro p hp
    simpa using findRange_eq_none ha h hp
  | some r =>
    obtain ⟨hmm, rfl⟩ := findRange_eq_some ha h
    simp only
    rw [← below_succ_eq ha, ← drop_take, ha.take_below]
    have e : below a min = below (a.filter fun p => p.1 < max + 1) min := by
      unfold below
      rw [countP_filter]
      refine countP_congr fun p _ => ?_
      simp only [decide_eq_true_eq, Bool.and_eq_true]
      omega
    rw [e, (ha.filter _).drop_below, filter_filter]
    refine filter_congr fun p _ => ?_
    simp only [← Bool.decide_and, decide_eq_decide]
    omega

omit ha

/-! ## Merge -/

theorem mergeLoop_eq (a b : ValueArray V) : mergeLoop a b = overlay a b := by
  fun_induction mergeLoop a b with
  | case1 b => rw [overlay_nil_left]
  | case2 p a => rw [overlay_nil_right]
  | case3 p a q b h ih => rw [overlay_cons_cons, if_pos h, ih]
  | case4 p a q b h1 h2 ih => rw [overlay_cons_cons, if_neg h1, if_pos h2, ih]
  | case5 p a q b h1 h2 ih => rw [overlay_cons_cons, if_neg h1, if_neg h2, ih]

/-- Lists one behind the other are overlaid by appending. -/
theorem append_eq_overlay (ha : Asc a) (hb : Asc b) :
    (if a.maxTime < b.minTime then a ++ b else if b.maxTime < a.minTime then b ++ a else overlay a b) = overlay a b := by
  split_ifs with h1 h2
  · exact (overlay_of_lt fun p hp q hq => by
      have := le_maxTime ha hp; have := minTime_le hb hq; omega).symm
  · exact (overlay_of_gt fun p hp q hq => by
      have := minTime_le ha hp; have := le_maxTime hb hq; omega).symm
  · rfl

/-- **`Merge`** is the overlay of `b` on `a`. -/
theorem merge_eq (ha : Asc a) (hb : Asc b) : a.merge b = overlay a b := by
  rw [merge, mergeLoop_eq, append_eq_overlay ha hb]
  split_ifs with h1 h2
  · rw [length_eq_zero_iff.mp h1, overlay_nil_left]
  · rw [length_eq_zero_iff.mp h2, overlay_nil_right]
  · rfl

end ValueArray

end Influxdb.Cursors
