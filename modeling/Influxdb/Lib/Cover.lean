import Influxdb.Lib.Timed

/-!
# Cover — a series that agrees with a map on a region of times

`Covers acc F P` says that the series `acc` holds the values of the map `F` at the times in `P` and
nothing else.  A reader that walks over overlapping series in windows keeps such a fact about what it
has produced so far: laying the windows `Q` of all the series over `acc`, in their order of priority,
extends the covered region from `P` to `P ∪ Q` (`Covers.foldl_overlay`).
-/

namespace Influxdb.Timed

open List

variable {T V : Type*} [LinearOrder T] {ls : List (List (T × V))} {a b : List (T × V)}

/-- The values of `F` in the region `P`, as a series. -/
structure Covers (acc : List (T × V)) (F : T → Option V) (P : T → Prop) : Prop where
  asc : Asc acc
  valueAt_of_mem : ∀ t, P t → valueAt acc t = F t
  valueAt_of_not_mem : ∀ t, ¬ P t → valueAt acc t = none

section Fold

theorem Asc.foldl_overlay {acc : List (T × V)} (hacc : Asc acc)
    (hls : ∀ l ∈ ls, Asc l) : Asc (ls.foldl Timed.overlay acc) := by
  induction ls generalizing acc with
  | nil => exact hacc
  | cons l ls ih =>
    exact ih (hacc.overlay (hls l mem_cons_self)) (forall_mem_cons.mp hls).2

theorem valueAt_foldl_overlay {acc : List (T × V)} (hacc : Asc acc)
    (hls : ∀ l ∈ ls, Asc l) (t : T) : valueAt (ls.foldl overlay acc) t = (lastOf ls t).or (valueAt acc t) := by
  induction ls generalizing acc with
  | nil => simp
  | cons l ls ih =>
    have hl := hls l mem_cons_self
    rw [foldl_cons, ih (hacc.overlay hl) (forall_mem_cons.mp hls).2,
      valueAt_overlay hacc hl, lastOf_cons, Option.or_assoc]

theorem lastOf_map_filter (Q : T → Bool) (ls : List (List (T × V))) (t : T) :
    lastOf (ls.map (fun l => l.filter (fun p => Q p.1))) t = if Q t then lastOf ls t else none := by
  induction ls with
  | nil => simp
  | cons l ls ih =>
    rw [map_cons, lastOf_cons, lastOf_cons, ih, valueAt_filter]
    split_ifs <;> simp

/-- Series with earlier times in front are merged on their own. -/
theorem overlay_append_append : ∀ {a b a' b' : List (T × V)}, (∀ p ∈ a, ∀ q ∈ b', p.1 < q.1) →
    (∀ q ∈ b, ∀ p ∈ a', q.1 < p.1) → overlay (a ++ a') (b ++ b') = overlay a b ++ overlay a' b'
  | [], [], _, _, _, _ => by simp
  | [], q :: b, [], _, _, _ => by simp
  | [], q :: b, p :: a', b', ha, hb => by
    have hlt := hb q mem_cons_self p mem_cons_self
    have ih := overlay_append_append (a := []) ha (forall_mem_cons.mp hb).2
    rw [overlay_nil_left, nil_append] at ih ⊢
    rw [cons_append, overlay_cons_cons, if_neg hlt.not_gt, if_neg hlt.ne', ih, cons_append]
  | p :: a, [], a', [], _, _ => by simp
  | p :: a, [], a', q :: b', ha, hb => by
    have ih := overlay_append_append (b := []) (forall_mem_cons.mp ha).2 hb
    rw [overlay_nil_right, nil_append] at ih ⊢
    rw [cons_append, overlay_cons_cons, if_pos (ha p mem_cons_self q mem_cons_self), ih, cons_append]
  | p :: a, q :: b, a', b', ha, hb => by
    have ih₁ := overlay_append_append (b := q :: b) (forall_mem_cons.mp ha).2 hb
    have ih₂ := overlay_append_append (forall_mem_cons.mp ha).2 (forall_mem_cons.mp hb).2
    have ih₃ := overlay_append_append (a := p :: a) ha (forall_mem_cons.mp hb).2
    rw [cons_append] at ih₁ ih₃
    rw [cons_append, cons_append, overlay_cons_cons, overlay_cons_cons, ih₁, ih₂, ih₃]
    split_ifs <;> rfl

theorem overlay_append_left {c : List (T × V)} (h : ∀ p ∈ a, ∀ q ∈ c, p.1 < q.1) : overlay (a ++ b) c = a ++ overlay b c := by
  simpa using overlay_append_append (b := []) h (forall_mem_nil _)

theorem foldl_overlay_append_left
    (h : ∀ p ∈ a, ∀ l ∈ ls, ∀ q ∈ l, p.1 < q.1) : ls.foldl overlay (a ++ b) = a ++ ls.foldl overlay b := by
  induction ls generalizing b with
  | nil => rfl
  | cons l ls ih =>
    rw [foldl_cons, foldl_cons, overlay_append_left fun p hp => h p hp l mem_cons_self,
      ih fun p hp m hm => h p hp m (mem_cons_of_mem _ hm)]

theorem foldl_overlay_of_nil (h : ∀ l ∈ ls, l = []) (a : List (T × V)) : ls.foldl overlay a = a := by
  induction ls with
  | nil => rfl
  | cons l ls ih =>
    rw [foldl_cons, h l mem_cons_self, overlay_nil_right, ih (forall_mem_cons.mp h).2]

theorem filter_overlay (ha : Asc a) (hb : Asc b) (P : T → Bool) :
    (overlay a b).filter (fun p => P p.1) = overlay (a.filter (fun p => P p.1)) (b.filter (fun p => P p.1)) := by
  refine Asc.ext ((ha.overlay hb).filter _) ((ha.filter _).overlay (hb.filter _)) fun t => ?_
  rw [valueAt_overlay (ha.filter _) (hb.filter _), valueAt_filter, valueAt_filter, valueAt_filter,
    valueAt_overlay ha hb]
  cases P t <;> rfl

/-- In a window, a merge shows its second list alone if that has every time of the first one. -/
theorem filter_overlay_eq_right_iff (ha : Asc a) (hb : Asc b) (P : T → Bool) :
    (overlay a b).filter (fun p => P p.1) = b.filter (fun p => P p.1) ↔ ∀ p ∈ a, P p.1 = true → ∃ q ∈ b, q.1 = p.1 := by
  constructor
  · intro heq p hp hP
    by_contra hno
    have hb' : valueAt b p.1 = none := valueAt_eq_none.mpr fun q hq hqp => hno ⟨q, hq, hqp⟩
    have hval := valueAt_overlay ha hb p.1
    rw [hb', Option.none_or, ha.valueAt_of_mem hp] at hval
    have hmem : (p.1, p.2) ∈ (overlay a b).filter (fun p => P p.1) :=
      mem_filter.mpr ⟨mem_of_valueAt hval, hP⟩
    rw [heq] at hmem
    exact hno ⟨p, (mem_filter.mp hmem).1, rfl⟩
  · intro h
    refine Asc.ext ((ha.overlay hb).filter _) (hb.filter _) fun t => ?_
    rw [valueAt_filter, valueAt_filter, valueAt_overlay ha hb]
    cases hP : P t with
    | false => rfl
    | true =>
      cases hv : valueAt b t with
      | some v => rfl
      | none =>
        have ha' : valueAt a t = none := valueAt_eq_none.mpr fun p hp hpt => by
          obtain ⟨q, hq, hqp⟩ := h p hp (hpt ▸ hP)
          exact valueAt_eq_none.mp hv q hq (hqp.trans hpt)
        rw [ha', Option.or_none]

theorem overlay_concat_concat {p q : T × V} (ha : Asc (a ++ [p])) (hb : Asc (b ++ [q])) :
    overlay (a ++ [p]) (b ++ [q]) = if q.1 < p.1 then overlay a (b ++ [q]) ++ [p]
      else if p.1 = q.1 then overlay a b ++ [q] else overlay (a ++ [p]) b ++ [q] := by
  have hend {l : List (T × V)} {x : T × V} (h : Asc (l ++ [x])) : ∀ r ∈ l, r.1 < x.1 :=
    fun r hr => (asc_append.mp h).2.2 r hr x mem_cons_self
  have hlast {l : List (T × V)} {x : T × V} (h : Asc (l ++ [x])) : ∀ r ∈ l ++ [x], r.1 ≤ x.1 :=
    forall_mem_append.mpr ⟨fun r hr => (hend h r hr).le, by simp⟩
  split_ifs with h1 h2
  · rw [← append_nil (b ++ [q]), overlay_append_append (fun _ _ => forall_mem_nil _), overlay_nil_right, append_nil]
    exact fun r hr => forall_mem_singleton.mpr ((hlast hb r hr).trans_lt h1)
  · rw [overlay_append_append, overlay_cons_cons, if_neg h2.not_lt, if_pos h2, overlay_nil_left]
    · exact fun r hr => forall_mem_singleton.mpr (h2 ▸ hend ha r hr)
    · exact fun r hr => forall_mem_singleton.mpr (h2 ▸ hend hb r hr)
  · rw [← append_nil (a ++ [p]), overlay_append_append ?_ (fun _ _ => forall_mem_nil _), overlay_nil_left, append_nil]
    exact fun r hr => forall_mem_singleton.mpr ((hlast ha r hr).trans_lt (lt_of_le_of_ne (not_lt.mp h1) h2))

end Fold

namespace Covers

variable {acc : List (T × V)} {F : T → Option V} {P : T → Prop}

theorem nil (h : ∀ t, ¬ P t) : Covers ([] : List (T × V)) F P :=
  ⟨asc_nil, fun t ht => absurd ht (h t), fun _ _ => rfl⟩

theorem congr (h : Covers acc F P) {F' : T → Option V} {P' : T → Prop} (hP : ∀ t, P t ↔ P' t)
    (hF : ∀ t, P t → F t = F' t) : Covers acc F' P' where
  asc := h.asc
  valueAt_of_mem t ht := (h.valueAt_of_mem t ((hP t).mpr ht)).trans (hF t ((hP t).mpr ht))
  valueAt_of_not_mem t ht := h.valueAt_of_not_mem t fun hp => ht ((hP t).mp hp)

theorem grow (h : Covers acc F P) {P' : T → Prop} (hP : ∀ t, P t → P' t)
    (hF : ∀ t, P' t → ¬ P t → F t = none) : Covers acc F P' where
  asc := h.asc
  valueAt_of_mem t ht := by
    by_cases hp : P t
    · exact h.valueAt_of_mem t hp
    · rw [h.valueAt_of_not_mem t hp, hF t ht hp]
  valueAt_of_not_mem t ht := h.valueAt_of_not_mem t fun hp => ht (hP t hp)

theorem mem_region (h : Covers acc F P) {p : T × V} (hp : p ∈ acc) : P p.1 := by
  by_contra hn
  exact valueAt_eq_none.mp (h.valueAt_of_not_mem p.1 hn) p hp rfl

/-- **One window.**  Laying the parts of `ls` in `Q` over a series that covers `P` covers both. -/
theorem foldl_overlay (h : Covers acc (lastOf ls) P) (Q : T → Bool) (hls : ∀ l ∈ ls, Asc l) :
    Covers ((ls.map (fun l => l.filter (fun p => Q p.1))).foldl overlay acc) (lastOf ls)
      (fun t => P t ∨ Q t = true) := by
  have hasc : ∀ m ∈ ls.map (fun l => l.filter (fun p => Q p.1)), Asc m := by
    refine forall_mem_map.mpr fun l hl => ?_
    exact (hls l hl).filter _
  have hval : ∀ t, valueAt ((ls.map (fun l => l.filter (fun p => Q p.1))).foldl overlay acc) t =
      if Q t then (lastOf ls t).or (valueAt acc t) else valueAt acc t := fun t => by
    rw [valueAt_foldl_overlay h.asc hasc, lastOf_map_filter]
    split_ifs <;> simp
  refine ⟨h.asc.foldl_overlay hasc, fun t ht => ?_, fun t ht => ?_⟩
  · rw [hval]
    by_cases hp : P t
    · rw [h.valueAt_of_mem t hp]; simp
    · rw [h.valueAt_of_not_mem t hp, if_pos (ht.resolve_left hp)]; simp
  · rw [hval, if_neg fun hq => ht (.inr hq), h.valueAt_of_not_mem t fun hp => ht (.inl hp)]

theorem append {b : List (T × V)} {Q : T → Prop} (h : Covers acc F P) (hb : Covers b F Q)
    (hlt : ∀ s t, P s → Q t → s < t) : Covers (acc ++ b) F (fun t => P t ∨ Q t) where
  asc := asc_append.mpr ⟨h.asc, hb.asc, fun _ hp _ hq => hlt _ _ (h.mem_region hp) (hb.mem_region hq)⟩
  valueAt_of_mem t ht := by
    rw [valueAt_append]
    by_cases hp : P t
    · have hq : ¬ Q t := fun hq => (hlt t t hp hq).false
      rw [h.valueAt_of_mem t hp, hb.valueAt_of_not_mem t hq, Option.or_none]
    · rw [h.valueAt_of_not_mem t hp, hb.valueAt_of_mem t (ht.resolve_left hp), Option.none_or]
  valueAt_of_not_mem t ht := by
    rw [valueAt_append, h.valueAt_of_not_mem t fun hp => ht (.inl hp),
      hb.valueAt_of_not_mem t fun hq => ht (.inr hq), Option.none_or]

end Covers

end Influxdb.Timed
