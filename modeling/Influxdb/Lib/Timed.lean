import Mathlib.Data.List.Sort

/-!
# Timed — strictly ascending timed lists as finite maps

A series is a list of pairs `(time, value)`, strictly ascending in time (`Asc`).  `valueAt l t` is the
map it stands for, and an ascending list is determined by that map (`Asc.ext`).  `overlay a b` is the
right-biased merge of two series and `lastOf ls` the last-write-wins map of a list of series.  Windows
of a series are filters on the time, and `below l v` turns such a filter into a position.
-/

namespace Influxdb.Timed

open List

variable {T V : Type*} [LinearOrder T] {p : T × V}

variable (l : List (T × V))

/-- Strictly ascending in time. -/
def Asc : Prop := l.Pairwise (fun p q => p.1 < q.1)

instance (l : List (T × V)) : Decidable (Asc l) := inferInstanceAs (Decidable (l.Pairwise _))

/-- The value carried by the first pair with time `t`. -/
def valueAt (t : T) : Option V := (l.find? (fun p => p.1 = t)).map (·.2)

/-- Last-write-wins: the value of the last list of `ls` that has one at `t`. -/
def lastOf (ls : List (List (T × V))) (t : T) : Option V := ls.reverse.findSome? (valueAt · t)

/-- Number of pairs before time `v`. -/
def below (v : T) : ℕ := l.countP (fun p => p.1 < v)

/-! ## Ascending lists -/

section Ascending

variable {l a b : List (T × V)}

@[simp] theorem asc_nil : Asc ([] : List (T × V)) := Pairwise.nil

@[simp] theorem asc_singleton (p : T × V) : Asc [p] := pairwise_singleton _ p

theorem asc_cons : Asc (p :: l) ↔ (∀ q ∈ l, p.1 < q.1) ∧ Asc l := pairwise_cons

theorem Asc.lt_of_mem_cons {t : T} (h : Asc (p :: l)) (ht : t < p.1) {x : T × V} (hx : x ∈ p :: l) : t < x.1 := by
  rcases mem_cons.mp hx with rfl | hx
  · exact ht
  · exact ht.trans ((asc_cons.mp h).1 x hx)

theorem asc_append : Asc (a ++ b) ↔ Asc a ∧ Asc b ∧ ∀ p ∈ a, ∀ q ∈ b, p.1 < q.1 :=
  pairwise_append

theorem Asc.filter (h : Asc l) (P : T × V → Bool) : Asc (l.filter P) := Pairwise.filter P h

theorem Asc.sublist (h : Asc b) (hs : a.Sublist b) : Asc a := Pairwise.sublist hs h

theorem Asc.take (h : Asc l) (n : ℕ) : Asc (l.take n) := h.sublist (take_sublist n l)

theorem Asc.drop (h : Asc l) (n : ℕ) : Asc (l.drop n) := h.sublist (drop_sublist n l)

theorem Asc.head_le (h : Asc l) (hne : l ≠ []) (hp : p ∈ l) : (l.head hne).1 ≤ p.1 := by
  cases l with
  | nil => exact absurd rfl hne
  | cons q l =>
    rcases mem_cons.mp hp with rfl | hp
    · exact le_rfl
    · exact ((asc_cons.mp h).1 p hp).le

theorem Asc.le_getLast (h : Asc l) (hne : l ≠ []) (hp : p ∈ l) : p.1 ≤ (l.getLast hne).1 := by
  obtain ⟨i, hi, rfl⟩ := getElem_of_mem hp
  rw [getLast_eq_getElem]
  rcases (Nat.le_sub_one_of_lt hi).lt_or_eq with hlt | rfl
  · exact (pairwise_iff_getElem.mp h i _ hi (by omega) hlt).le
  · exact le_rfl

end Ascending

/-! ## The map of a list -/

section ValueAt

variable {l a b : List (T × V)} {t : T} {v : V}

@[simp] theorem valueAt_nil (t : T) : valueAt ([] : List (T × V)) t = none := rfl

theorem valueAt_cons (p : T × V) (l : List (T × V)) (t : T) :
    valueAt (p :: l) t = if p.1 = t then some p.2 else valueAt l t := by
  unfold valueAt
  rw [find?_cons]
  by_cases h : p.1 = t <;> simp [h]

theorem valueAt_append (a b : List (T × V)) (t : T) : valueAt (a ++ b) t = (valueAt a t).or (valueAt b t) := by
  induction a with
  | nil => simp
  | cons p a ih =>
    rw [cons_append, valueAt_cons, valueAt_cons, ih]
    split <;> simp

theorem mem_of_valueAt (h : valueAt l t = some v) : (t, v) ∈ l := by
  obtain ⟨p, hp, rfl⟩ := Option.map_eq_some_iff.mp h
  have h1 : p.1 = t := by simpa using find?_some hp
  rw [← h1]
  exact mem_of_find?_eq_some hp

theorem valueAt_eq_none : valueAt l t = none ↔ ∀ p ∈ l, p.1 ≠ t := by
  simp [valueAt]

theorem Asc.valueAt_of_mem (h : Asc l) (hm : (t, v) ∈ l) : valueAt l t = some v := by
  induction l with
  | nil => cases hm
  | cons p l ih =>
    obtain ⟨h1, h2⟩ := asc_cons.mp h
    rw [valueAt_cons]
    rcases mem_cons.mp hm with rfl | hm
    · simp
    · rw [if_neg (h1 _ hm).ne, ih h2 hm]

theorem Asc.mem_iff (h : Asc l) : (t, v) ∈ l ↔ valueAt l t = some v :=
  ⟨h.valueAt_of_mem, mem_of_valueAt⟩

theorem Asc.ext (ha : Asc a) (hb : Asc b) (h : ∀ t, valueAt a t = valueAt b t) : a = b := by
  have hmem : ∀ p, p ∈ a ↔ p ∈ b := fun p => by
    rw [show p = (p.1, p.2) from rfl, ha.mem_iff, hb.mem_iff, h]
  have hnd : ∀ {c : List (T × V)}, Asc c → c.Nodup := fun hc =>
    Pairwise.imp (fun hpq hne => absurd (congrArg Prod.fst hne) hpq.ne) hc
  refine Perm.eq_of_pairwise ?_ ha hb ((perm_ext_iff_of_nodup (hnd ha) (hnd hb)).mpr hmem)
  intro p q _ _ hpq hqp
  exact absurd hpq hqp.asymm

theorem valueAt_filter (P : T → Bool) (l : List (T × V)) (t : T) :
    valueAt (l.filter (fun p => P p.1)) t = if P t then valueAt l t else none := by
  rw [valueAt, find?_filter]
  have hfind : ∀ p : T × V, decide (P p.1 = true ∧ decide (p.1 = t) = true) = (P t && decide (p.1 = t)) := by
    intro p
    by_cases ht : p.1 = t <;> simp [ht]
  simp only [hfind]
  cases P t <;> simp [valueAt]

end ValueAt

/-! ## Right-biased merge -/

section Overlay

/-- `b` laid over `a`: the merge of two ascending lists, `b` winning on equal times. -/
def overlay : List (T × V) → List (T × V) → List (T × V)
  | [], b => b
  | p :: a, [] => p :: a
  | p :: a, q :: b =>
    if p.1 < q.1 then p :: overlay a (q :: b)
    else if p.1 = q.1 then q :: overlay a b
    else q :: overlay (p :: a) b
termination_by a b => a.length + b.length

variable {a b : List (T × V)}

@[simp] theorem overlay_nil_left (b : List (T × V)) : overlay [] b = b := by rw [overlay]

@[simp] theorem overlay_nil_right (a : List (T × V)) : overlay a [] = a := by
  cases a <;> rw [overlay]

theorem overlay_cons_cons (p : T × V) (a : List (T × V)) (q : T × V) (b : List (T × V)) : overlay (p :: a) (q :: b) =
      if p.1 < q.1 then p :: overlay a (q :: b)
      else if p.1 = q.1 then q :: overlay a b else q :: overlay (p :: a) b := by
  rw [overlay]

theorem mem_overlay {x : T × V} : ∀ {a b : List (T × V)}, x ∈ overlay a b → x ∈ a ∨ x ∈ b
  | [], b, h => .inr (by simpa using h)
  | p :: a, [], h => .inl (by simpa using h)
  | p :: a, q :: b, h => by
    rw [overlay_cons_cons] at h
    split_ifs at h with h1 h2
    · rcases mem_cons.mp h with rfl | h
      · exact .inl mem_cons_self
      · exact (mem_overlay h).imp (mem_cons_of_mem _) id
    · rcases mem_cons.mp h with rfl | h
      · exact .inr mem_cons_self
      · exact (mem_overlay h).imp (mem_cons_of_mem _) (mem_cons_of_mem _)
    · rcases mem_cons.mp h with rfl | h
      · exact .inr mem_cons_self
      · exact (mem_overlay h).imp id (mem_cons_of_mem _)
termination_by a b => a.length + b.length

theorem Asc.overlay : ∀ {a b : List (T × V)}, Asc a → Asc b → Asc (overlay a b)
  | [], b, _, hb => by simpa using hb
  | p :: a, [], ha, _ => by simpa using ha
  | p :: a, q :: b, ha, hb => by
    obtain ⟨ha1, ha2⟩ := asc_cons.mp ha
    obtain ⟨hb1, hb2⟩ := asc_cons.mp hb
    rw [overlay_cons_cons]
    split_ifs with h1 h2
    · refine asc_cons.mpr ⟨fun x hx => ?_, ha2.overlay hb⟩
      exact (mem_overlay hx).elim (ha1 x) (hb.lt_of_mem_cons h1)
    · refine asc_cons.mpr ⟨fun x hx => ?_, ha2.overlay hb2⟩
      rcases mem_overlay hx with hx | hx
      · exact h2 ▸ ha1 x hx
      · exact hb1 x hx
    · have h3 : q.1 < p.1 := lt_of_le_of_ne (not_lt.mp h1) (Ne.symm h2)
      refine asc_cons.mpr ⟨fun x hx => ?_, ha.overlay hb2⟩
      exact (mem_overlay hx).elim (ha.lt_of_mem_cons h3) (hb1 x)
termination_by a b => a.length + b.length

theorem valueAt_overlay : ∀ {a b : List (T × V)}, Asc a → Asc b → ∀ t,
    valueAt (Timed.overlay a b) t = (valueAt b t).or (valueAt a t)
  | [], b, _, _, t => by simp
  | p :: a, [], _, _, t => by simp
  | p :: a, q :: b, ha, hb, t => by
    obtain ⟨ha1, ha2⟩ := asc_cons.mp ha
    obtain ⟨hb1, hb2⟩ := asc_cons.mp hb
    rw [overlay_cons_cons]
    split_ifs with h1 h2
    · -- `p` is the first pair of both lists
      rw [valueAt_cons, valueAt_overlay ha2 hb t, valueAt_cons p]
      by_cases hp : p.1 = t
      · have hnone : valueAt (q :: b) t = none := valueAt_eq_none.mpr fun x hx =>
          (hp ▸ hb.lt_of_mem_cons h1 hx).ne'
        rw [if_pos hp, if_pos hp, hnone, Option.none_or]
      · rw [if_neg hp, if_neg hp]
    · rw [valueAt_cons, valueAt_overlay ha2 hb2 t, valueAt_cons q, valueAt_cons p]
      by_cases hq : q.1 = t
      · simp [hq]
      · simp [hq, h2]
    · rw [valueAt_cons, valueAt_overlay ha hb2 t, valueAt_cons q]
      by_cases hq : q.1 = t <;> simp [hq]
termination_by a b => a.length + b.length

theorem overlay_of_lt : ∀ {a b : List (T × V)}, (∀ p ∈ a, ∀ q ∈ b, p.1 < q.1) → Timed.overlay a b = a ++ b
  | [], b, _ => by simp
  | p :: a, [], _ => by simp
  | p :: a, q :: b, h => by
    rw [overlay_cons_cons, if_pos (h p mem_cons_self q mem_cons_self), overlay_of_lt (forall_mem_cons.mp h).2]
    rfl

theorem overlay_of_gt : ∀ {a b : List (T × V)}, (∀ p ∈ a, ∀ q ∈ b, q.1 < p.1) → Timed.overlay a b = b ++ a
  | [], b, _ => by simp
  | p :: a, [], _ => by simp
  | p :: a, q :: b, h => by
    have hq := h p mem_cons_self q mem_cons_self
    rw [overlay_cons_cons, if_neg hq.asymm, if_neg hq.ne',
      overlay_of_gt fun x hx y hy => h x hx y (mem_cons_of_mem _ hy)]
    rfl

end Overlay

/-! ## Last write wins -/

section LastOf

variable {ls : List (List (T × V))} {t : T} {v : V}

@[simp] theorem lastOf_nil (t : T) : lastOf ([] : List (List (T × V))) t = none := rfl

theorem lastOf_append (as bs : List (List (T × V))) (t : T) : lastOf (as ++ bs) t = (lastOf bs t).or (lastOf as t) := by
  unfold lastOf
  rw [reverse_append, findSome?_append]

theorem lastOf_cons (l : List (T × V)) (ls : List (List (T × V))) (t : T) :
    lastOf (l :: ls) t = (lastOf ls t).or (valueAt l t) := by
  rw [show l :: ls = [l] ++ ls from rfl, lastOf_append]
  congr 1
  simp [lastOf, findSome?_singleton]

theorem lastOf_eq_none : lastOf ls t = none ↔ ∀ l ∈ ls, valueAt l t = none := by
  simp [lastOf, findSome?_eq_none_iff]

theorem lastOf_swap {a b : List (T × V)} (as bs : List (List (T × V))) (h : valueAt a t = none ∨ valueAt b t = none) :
    lastOf (as ++ a :: b :: bs) t = lastOf (as ++ b :: a :: bs) t := by
  simp only [lastOf_append, lastOf_cons]
  rcases h with h | h <;> simp [h]

end LastOf

/-! ## Positions -/

section Below

variable {l : List (T × V)} {v : T}

theorem below_le (l : List (T × V)) (v : T) : below l v ≤ l.length := countP_le_length

theorem below_cons (p : T × V) (l : List (T × V)) (v : T) :
    below (p :: l) v = below l v + if p.1 < v then 1 else 0 := by
  unfold below
  rw [countP_cons]
  simp

theorem below_eq_zero (h : ∀ p ∈ l, v ≤ p.1) : below l v = 0 := by
  unfold below
  rw [countP_eq_zero]
  intro p hp
  simpa using h p hp

theorem filter_ge_eq_self (h : ∀ p ∈ l, v ≤ p.1) : l.filter (fun p => v ≤ p.1) = l := by
  rw [filter_eq_self]
  intro p hp
  simpa using h p hp

theorem Asc.filter_append_filter (h : Asc l) (v : T) :
    l.filter (fun p => p.1 < v) ++ l.filter (fun p => v ≤ p.1) = l := by
  induction l with
  | nil => rfl
  | cons p l ih =>
    obtain ⟨h1, h2⟩ := asc_cons.mp h
    by_cases hp : p.1 < v
    · rw [filter_cons_of_pos (by simpa using hp), filter_cons_of_neg (by simpa using hp), cons_append, ih h2]
    · -- every later pair is also at or after `v`
      have hl : ∀ q ∈ p :: l, v ≤ q.1 :=
        forall_mem_cons.mpr ⟨not_lt.mp hp, fun q hq => (not_lt.mp hp).trans (h1 q hq).le⟩
      rw [filter_eq_nil_iff.mpr (by simpa using hl), filter_ge_eq_self hl, nil_append]

theorem Asc.take_below (h : Asc l) (v : T) : l.take (below l v) = l.filter (fun p => p.1 < v) :=
  (congrArg (List.take _) (h.filter_append_filter v)).symm.trans (take_left' countP_eq_length_filter.symm)

theorem Asc.drop_below (h : Asc l) (v : T) : l.drop (below l v) = l.filter (fun p => v ≤ p.1) :=
  (congrArg (List.drop _) (h.filter_append_filter v)).symm.trans (drop_left' countP_eq_length_filter.symm)

theorem Asc.getElem_lt_iff (h : Asc l) {i : ℕ} (hi : i < l.length) (v : T) : l[i].1 < v ↔ i < below l v := by
  constructor
  · intro hlt
    by_contra hge
    have hmem : l[i] ∈ l.drop (below l v) := mem_drop_iff_getElem.mpr
      ⟨i - below l v, by omega, by congr 1; omega⟩
    rw [h.drop_below v, mem_filter] at hmem
    exact absurd hlt (not_lt.mpr (by simpa using hmem.2))
  · intro hlt
    have hmem : l[i] ∈ l.take (below l v) := mem_take_iff_getElem.mpr
      ⟨i, by omega, rfl⟩
    rw [h.take_below v, mem_filter] at hmem
    simpa using hmem.2

end Below

end Influxdb.Timed
