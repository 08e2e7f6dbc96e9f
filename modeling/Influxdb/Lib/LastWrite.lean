import Influxdb.Lib.Timed

/-!
# LastWrite — logs of timestamped writes

In a log the value of a time is the one written last.  Stable sorting and dropping all but the last write of a time do
not change it, and after both the log is ascending.
-/

namespace Influxdb.Timed

open List

variable {T V : Type*} [LinearOrder T] {l a b : List (T × V)} {t : T}

/-- The value written last at time `t`. -/
def lastWrite (l : List (T × V)) (t : T) : Option V := (l.filter fun p => p.1 = t).getLast?.map (·.2)

@[simp] theorem lastWrite_nil (t : T) : lastWrite ([] : List (T × V)) t = none := rfl

theorem lastWrite_append (a b : List (T × V)) (t : T) : lastWrite (a ++ b) t = (lastWrite b t).or (lastWrite a t) := by
  rw [lastWrite, filter_append, getLast?_append, lastWrite, lastWrite, Option.map_or]

theorem lastWrite_cons (p : T × V) (l : List (T × V)) (t : T) :
    lastWrite (p :: l) t = (lastWrite l t).or (if p.1 = t then some p.2 else none) := by
  rw [← singleton_append, lastWrite_append]
  congr 1
  unfold lastWrite
  split_ifs with h
  · simp [h]
  · simp [h]

theorem lastWrite_filter (P : T → Bool) (l : List (T × V)) (t : T) :
    lastWrite (l.filter fun p => P p.1) t = if P t then lastWrite l t else none := by
  unfold lastWrite
  rw [filter_filter]
  split_ifs with h
  · congr 2
    refine filter_congr fun p _ => ?_
    by_cases hp : p.1 = t
    · simp [hp, h]
    · simp [hp]
  · have hnil : (l.filter fun p => decide (p.1 = t) && P p.1) = [] := by
      refine filter_eq_nil_iff.mpr fun p _ hp => h ?_
      rw [Bool.and_eq_true, decide_eq_true_eq] at hp
      rw [← hp.1]
      exact hp.2
    rw [hnil]
    rfl

theorem lastWrite_eq_none : lastWrite l t = none ↔ ∀ p ∈ l, p.1 ≠ t := by
  simp [lastWrite]

theorem Asc.lastWrite (h : Asc l) (t : T) : lastWrite l t = valueAt l t := by
  induction l with
  | nil => rfl
  | cons p l ih =>
    obtain ⟨hp, hl⟩ := asc_cons.mp h
    rw [lastWrite_cons, ih hl, valueAt_cons]
    by_cases heq : p.1 = t
    · have hnone : valueAt l t = none := valueAt_eq_none.mpr fun q hq => heq ▸ (hp q hq).ne'
      rw [if_pos heq, if_pos heq, hnone, Option.none_or]
    · rw [if_neg heq, if_neg heq, Option.or_none]

/-! ## Sorting -/

/-- The log in the order of its times; writes of one time stay in order. -/
def sortStable (l : List (T × V)) : List (T × V) := l.mergeSort fun p q => decide (p.1 ≤ q.1)

theorem sortStable_perm (l : List (T × V)) : (sortStable l).Perm l := mergeSort_perm _ _

theorem pairwise_sortStable (l : List (T × V)) : (sortStable l).Pairwise fun p q => p.1 ≤ q.1 := by
  have h := @List.pairwise_mergeSort _ (fun p q : T × V => p.1 ≤ q.1)
    (fun a b c hab hbc => decide_eq_true ((of_decide_eq_true hab).trans (of_decide_eq_true hbc)))
    (fun a b => by simpa using le_total a.1 b.1) l
  exact h.imp fun h => of_decide_eq_true h

/-- **Stable sorting** does not change the last writes. -/
theorem lastWrite_sortStable (l : List (T × V)) (t : T) : lastWrite (sortStable l) t = lastWrite l t := by
  have hsub : (l.filter fun p => p.1 = t).Sublist (sortStable l) := by
    refine sublist_mergeSort ?_ ?_ ?_ filter_sublist
    · exact fun a b c hab hbc => decide_eq_true ((of_decide_eq_true hab).trans (of_decide_eq_true hbc))
    · exact fun a b => by simpa using le_total a.1 b.1
    · refine pairwise_of_forall_mem_list fun p hp q hq => ?_
      simp only [mem_filter, decide_eq_true_eq] at hp hq
      exact decide_eq_true (hp.2.trans hq.2.symm).le
  have heq : (sortStable l).filter (fun p => p.1 = t) = l.filter fun p => p.1 = t := by
    refine (Sublist.eq_of_length ?_ ?_).symm
    · have hfilter := hsub.filter fun p : T × V => decide (p.1 = t)
      simpa only [filter_filter, Bool.and_self] using hfilter
    · exact ((sortStable_perm l).filter _).length_eq.symm
  rw [lastWrite, heq, lastWrite]

/-! ## Dropping earlier writes -/

/-- Keep the last write of every run of equal times; `p` is the write at hand. -/
def dedupLoop (p : T × V) : List (T × V) → List (T × V)
  | [] => [p]
  | q :: l => if q.1 ≠ p.1 then p :: dedupLoop q l else dedupLoop q l

theorem lastWrite_dedupLoop (l : List (T × V)) : ∀ p, (p :: l).Pairwise (fun p q => p.1 ≤ q.1) →
    ∀ t, lastWrite (dedupLoop p l) t = lastWrite (p :: l) t := by
  induction l with
  | nil => exact fun p _ t => rfl
  | cons q l ih =>
    intro p hsorted t
    obtain ⟨hp, hl⟩ := pairwise_cons.mp hsorted
    rw [dedupLoop]
    split_ifs with hne
    · rw [lastWrite_cons, ih q hl, ← lastWrite_cons]
    · rw [ih q hl, lastWrite_cons p, lastWrite_cons q, not_not.mp hne]
      split_ifs with ht
      · cases lastWrite l t <;> rfl
      · rw [Option.or_none, Option.or_none]

theorem mem_dedupLoop {x : T × V} : ∀ {l : List (T × V)} {p : T × V}, x ∈ dedupLoop p l → x ∈ p :: l
  | [], _, h => h
  | q :: l, p, h => by
    rw [dedupLoop] at h
    split_ifs at h
    · rcases mem_cons.mp h with rfl | h
      · exact mem_cons_self
      · exact mem_cons_of_mem _ (mem_dedupLoop h)
    · exact mem_cons_of_mem _ (mem_dedupLoop h)

theorem asc_dedupLoop : ∀ {l : List (T × V)} {p : T × V}, (p :: l).Pairwise (fun p q => p.1 ≤ q.1) → Asc (dedupLoop p l)
  | [], p, _ => asc_singleton p
  | q :: l, p, hsorted => by
    obtain ⟨hp, hl⟩ := pairwise_cons.mp hsorted
    rw [dedupLoop]
    split_ifs with hne
    · refine asc_cons.mpr ⟨fun x hx => ?_, asc_dedupLoop hl⟩
      have hpq : p.1 < q.1 := lt_of_le_of_ne (hp q mem_cons_self) (Ne.symm hne)
      rcases mem_cons.mp (mem_dedupLoop hx) with rfl | hx
      · exact hpq
      · exact hpq.trans_le ((pairwise_cons.mp hl).1 x hx)
    · exact asc_dedupLoop hl

theorem dedupLoop_sublist : ∀ (l : List (T × V)) (p : T × V), (dedupLoop p l).Sublist (p :: l)
  | [], p => Sublist.refl _
  | q :: l, p => by
    rw [dedupLoop]
    split_ifs
    · exact (dedupLoop_sublist l q).cons_cons p
    · exact (dedupLoop_sublist l q).cons p

end Influxdb.Timed
