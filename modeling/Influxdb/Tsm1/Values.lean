import Influxdb.Tsm1.CacheStore

/-!
# Values — merging lists of values (`encoding.gen.go`)

`Merge` frees both lists of overwritten values before it overlays them, because old files may hold some, but not if one of
them is empty.  So it deduplicates precisely if a list that stands alone has nothing to deduplicate.
-/

namespace Influxdb.Tsm1.Values

open List Cursors Timed

/-- The interleaving loop of `Merge`, on what is left of both lists. -/
def mergeLoop : ValueArray Value → ValueArray Value → ValueArray Value
  | [], b => b
  | p :: a, [] => p :: a
  | p :: a, q :: b =>
    if p.1 < q.1 then p :: mergeLoop a (q :: b)
    else if p.1 = q.1 then mergeLoop a (q :: b)
    else q :: mergeLoop (p :: a) b
termination_by a b => a.length + b.length

def merge (a b : ValueArray Value) : ValueArray Value :=
  if a.length = 0 then b
  else if b.length = 0 then a
  else
    let a := deduplicate a
    let b := deduplicate b
    if a.maxTime < b.minTime then a ++ b
    else if b.maxTime < a.minTime then b ++ a
    else mergeLoop a b

variable {a b : ValueArray Value}

/-- A value of `a` that is overwritten is dropped before the one of `b` is taken. -/
theorem mergeLoop_eq (ha : Asc a) : mergeLoop a b = overlay a b := by
  fun_induction mergeLoop a b with
  | case1 b => rw [overlay_nil_left]
  | case2 p a => rw [overlay_nil_right]
  | case3 p a q b hlt ih => rw [overlay_cons_cons, if_pos hlt, ih (asc_cons.mp ha).2]
  | case4 p a q b hlt heq ih =>
    obtain ⟨hp, ha⟩ := asc_cons.mp ha
    rw [overlay_cons_cons, if_neg hlt, if_pos heq, ih ha]
    cases a with
    | nil => rw [overlay_nil_left, overlay_nil_left]
    | cons x a =>
      have hx : q.1 < x.1 := heq ▸ hp x mem_cons_self
      rw [overlay_cons_cons, if_neg hx.asymm, if_neg hx.ne']
  | case5 p a q b hlt hne ih => rw [overlay_cons_cons, if_neg hlt, if_neg hne, ih ha]

theorem deduplicate_eq_self_iff : deduplicate a = a ↔ Asc a := by
  obtain ⟨hasc, hlast⟩ := deduplicate_spec a
  refine ⟨fun h => h ▸ hasc, fun h => hasc.ext h fun t => ?_⟩
  rw [← hasc.lastWrite, hlast, h.lastWrite]

theorem merge_of_ne_nil (ha : a ≠ []) (hb : b ≠ []) : merge a b = deduplicate (a ++ b) := by
  obtain ⟨hasca, hlasta⟩ := deduplicate_spec a
  obtain ⟨hascb, hlastb⟩ := deduplicate_spec b
  obtain ⟨hasc, hlast⟩ := deduplicate_spec (a ++ b)
  rw [merge, if_neg (by simpa using ha), if_neg (by simpa using hb)]
  dsimp only
  rw [mergeLoop_eq hasca, ValueArray.append_eq_overlay hasca hascb]
  refine (hasca.overlay hascb).ext hasc fun t => ?_
  rw [valueAt_overlay hasca hascb, ← hasc.lastWrite, hlast, lastWrite_append, ← hlasta, ← hlastb, hasca.lastWrite,
    hascb.lastWrite]

/-- **`Merge` is `Deduplicate` of both lists** precisely if a list that stands alone is strictly ascending. -/
theorem merge_eq_deduplicate_iff (a b : ValueArray Value) :
    merge a b = deduplicate (a ++ b) ↔ (a = [] → Asc b) ∧ (b = [] → Asc a) := by
  by_cases ha : a = []
  · subst ha
    refine Iff.trans ?_ (iff_self_and.mpr fun _ _ => asc_nil)
    rw [merge, if_pos length_nil, nil_append, eq_comm, deduplicate_eq_self_iff, forall_prop_of_true rfl]
  by_cases hb : b = []
  · subst hb
    rw [merge, if_neg (by simpa using ha), if_pos length_nil, append_nil, eq_comm, deduplicate_eq_self_iff]
    simp [ha]
  · exact iff_of_true (merge_of_ne_nil ha hb) ⟨fun h => absurd h ha, fun h => absurd h hb⟩

/-- A list with a time twice, merged with none. -/
theorem merge_keeps_duplicates : merge [] [(1, .boolean true), (1, .boolean false)] = [(1, .boolean true), (1, .boolean false)] ∧
    ¬Asc (merge [] [(1, .boolean true), (1, .boolean false)]) := by
  decide

end Influxdb.Tsm1.Values
