import Influxdb.Tsm1.AscendingCursor

/-!
# DescendingCursor — the descending cursor is exact

`rest c` are the points a cursor has still to return, in ascending order.  Every round of every loop of
`Next` takes the last of them (`mergeOne_spec`, `drainTSMOne_spec`, `drainCacheOne_spec`), so the calls
return them all in descending order.  With both cursors, `array_cursors_exact_iff` says when a query gets
the merge of blocks and cache in its window.
-/

namespace Influxdb.Tsm1

open List Cursors Timed Option Nat

variable {V : Type*} {p : Int × V}
variable {a : ValueArray V} {one : DescendingCursor V → Option ((Int × V) × DescendingCursor V)}

namespace DescendingCursor

variable (c : DescendingCursor V)

/-- The points of the blocks not used up. -/
def tsmRest : ValueArray V :=
  c.keyCursor.reverse.flatten ++ c.tsmValues.take c.tsmPos

/-- The points of the cache not used up. -/
def cacheRest : ValueArray V := c.cacheValues.take c.cachePos

/-- The points the cursor has still to return. -/
def rest : ValueArray V := overlay c.tsmRest c.cacheRest

/-- Both sides are ascending, and the current block has points left unless all blocks are used up. -/
structure Ok (c : DescendingCursor V) : Prop where
  asc_cache : Asc c.cacheValues
  cachePos_le : c.cachePos ≤ c.cacheValues.length
  asc_tsm : Asc (c.keyCursor.reverse.flatten ++ c.tsmValues)
  tsmPos_le : c.tsmPos ≤ c.tsmValues.length
  blocks_ne : ∀ b ∈ c.keyCursor, b ≠ []
  ready : 0 < c.tsmPos ∨ c.keyCursor = []

/-- The settings of a cursor that no call changes. -/
def SameEnd (c c' : DescendingCursor V) : Prop := c'.stop = c.stop ∧ c'.cap = c.cap

theorem SameEnd.trans {a b c : DescendingCursor V} (h : SameEnd a b) (h' : SameEnd b c) : SameEnd a c :=
  ⟨h'.1.trans h.1, h'.2.trans h.2⟩

variable {c c' : DescendingCursor V}

theorem Ok.asc_tsmRest (h : c.Ok) : Asc c.tsmRest := by
  obtain ⟨h1, h2, h3⟩ := asc_append.mp h.asc_tsm
  exact asc_append.mpr ⟨h1, h2.take _, fun p hp q hq => h3 p hp q (mem_of_mem_take hq)⟩

theorem Ok.asc_cacheRest (h : c.Ok) : Asc c.cacheRest := h.asc_cache.take _

theorem Ok.asc_rest (h : c.Ok) : Asc c.rest := h.asc_tsmRest.overlay h.asc_cacheRest

/-! ## Steps -/

theorem valueBefore_eq_some {n : ℕ} (h : valueBefore a n = some p) : 0 < n ∧ a.take n = a.take (n - 1) ++ [p] := by
  cases n with
  | zero => cases h
  | succ n =>
    obtain ⟨hlt, rfl⟩ := List.getElem?_eq_some_iff.mp h
    exact ⟨succ_pos n, by rw [Nat.add_sub_cancel, take_succ_eq_append_getElem hlt]⟩

theorem valueBefore_eq_none {n : ℕ} (hn : n ≤ a.length) (h : valueBefore a n = none) : n = 0 := by
  cases n with
  | zero => rfl
  | succ n => exact absurd (getElem?_eq_none_iff.mp h) (by omega)

theorem refill_spec (hc : Asc c.cacheValues) (hp : c.cachePos ≤ c.cacheValues.length)
    (ht : Asc (c.keyCursor.reverse.flatten ++ c.tsmValues)) (hle : c.tsmPos ≤ c.tsmValues.length)
    (hb : ∀ b ∈ c.keyCursor, b ≠ []) : c.refill.Ok ∧ c.refill.tsmRest = c.tsmRest ∧ c.refill.cacheRest = c.cacheRest ∧
      SameEnd c c.refill := by
  unfold refill
  split_ifs with h
  · obtain ⟨h1, -, -⟩ := asc_append.mp ht
    unfold nextTSM tsmRest
    cases hk : c.keyCursor with
    | nil => exact ⟨⟨hc, hp, by simp, by simp, by simp, .inr rfl⟩, by simp [h], rfl, rfl, rfl⟩
    | cons b bs =>
      rw [hk] at h1 hb
      refine ⟨⟨hc, hp, by simpa using h1, le_rfl, (forall_mem_cons.mp hb).2,
        .inl ?_⟩, by simp [h], rfl, rfl, rfl⟩
      simpa using length_pos_iff.mpr (hb b mem_cons_self)
  · exact ⟨⟨hc, hp, ht, hle, hb, .inl (Nat.pos_of_ne_zero h)⟩, rfl, rfl, rfl, rfl⟩

theorem tsmRest_concat {t : Int × V} (h : valueBefore c.tsmValues c.tsmPos = some t) :
    c.tsmRest = tsmRest { c with tsmPos := c.tsmPos - 1 } ++ [t] := by
  rw [tsmRest, (valueBefore_eq_some h).2, ← append_assoc]
  rfl

theorem cacheRest_concat (h : valueBefore c.cacheValues c.cachePos = some p) :
    c.cacheRest = cacheRest { c with cachePos := c.cachePos - 1 } ++ [p] := by
  rw [cacheRest, (valueBefore_eq_some h).2]
  rfl

/-- A round moves to earlier positions and reads the next block if it has to. -/
theorem Ok.refill (h : c.Ok) {i j : ℕ} (hc : c' = { c with cachePos := i, tsmPos := j }) (hi : i ≤ c.cachePos)
    (hj : j ≤ c.tsmPos) (hr : c.rest = c'.rest ++ [p]) :
    c.rest = c'.refill.rest ++ [p] ∧ c'.refill.Ok ∧ SameEnd c c'.refill := by
  subst hc
  obtain ⟨h1, h2, h3, h4⟩ := refill_spec (c := { c with cachePos := i, tsmPos := j })
    h.asc_cache (hi.trans h.cachePos_le) h.asc_tsm (hj.trans h.tsmPos_le) h.blocks_ne
  refine ⟨?_, h1, h4⟩
  rw [hr, rest, rest, h2, h3]

theorem mergeOne_spec (h : c.Ok) (hm : c.mergeOne = some (p, c')) : c.rest = c'.rest ++ [p] ∧ c'.Ok ∧ SameEnd c c' := by
  unfold mergeOne at hm
  cases ht : valueBefore c.tsmValues c.tsmPos with
  | none => simp [ht] at hm
  | some t =>
    cases hq : valueBefore c.cacheValues c.cachePos with
    | none => simp [ht, hq] at hm
    | some q =>
      simp only [ht, hq] at hm
      have hrest := overlay_concat_concat (tsmRest_concat ht ▸ h.asc_tsmRest)
        (cacheRest_concat hq ▸ h.asc_cacheRest)
      rw [← tsmRest_concat ht, ← cacheRest_concat hq] at hrest
      split_ifs at hm with h1 h2
      · cases hm
        rw [if_neg (by omega), if_pos h1.symm] at hrest
        exact h.refill rfl (sub_le _ _) (sub_le _ _) hrest
      · cases hm
        rw [if_neg (by omega), if_neg (by omega)] at hrest
        exact h.refill rfl (sub_le _ _) le_rfl hrest
      · cases hm
        rw [if_pos (by omega)] at hrest
        exact h.refill rfl le_rfl (sub_le _ _) hrest

theorem drainTSMOne_spec (h : c.Ok) (hc : c.cacheRest = []) (hm : c.drainTSMOne = some (p, c')) :
    c.rest = c'.rest ++ [p] ∧ (c'.Ok ∧ c'.cacheRest = []) ∧ SameEnd c c' := by
  obtain ⟨t, ht, heq⟩ := map_eq_some_iff.mp hm
  cases heq
  obtain ⟨h3, h4, h5, h6⟩ := refill_spec (c := { c with tsmPos := c.tsmPos - 1 })
    h.asc_cache h.cachePos_le h.asc_tsm ((sub_le _ _).trans h.tsmPos_le) h.blocks_ne
  have hc' := h5.trans hc
  refine ⟨?_, ⟨h3, hc'⟩, h6⟩
  rw [rest, rest, hc, hc', overlay_nil_right, overlay_nil_right, h4, tsmRest_concat ht]

theorem drainCacheOne_spec (h : c.Ok) (ht : c.tsmRest = []) (hm : c.drainCacheOne = some (p, c')) :
    c.rest = c'.rest ++ [p] ∧ (c'.Ok ∧ c'.tsmRest = []) ∧ SameEnd c c' := by
  obtain ⟨q, hq, heq⟩ := map_eq_some_iff.mp hm
  cases heq
  have ht' : tsmRest { c with cachePos := c.cachePos - 1 } = [] := ht
  refine ⟨?_, ⟨⟨h.asc_cache, (sub_le _ _).trans h.cachePos_le, h.asc_tsm, h.tsmPos_le, h.blocks_ne,
    h.ready⟩, ht'⟩, rfl, rfl⟩
  rw [rest, rest, ht, ht', overlay_nil_left, overlay_nil_left, cacheRest_concat hq]

/-- A loop has taken the last of the remaining points. -/
structure Takes (c : DescendingCursor V) (r : ValueArray V × DescendingCursor V) : Prop where
  rest : c.rest = r.2.rest ++ r.1.reverse
  ok : r.2.Ok
  same : SameEnd c r.2

theorem Ok.takes_nil (h : c.Ok) : Takes c ([], c) := ⟨by simp, h, rfl, rfl⟩

theorem loop_of_none (h : one c = none) (n : ℕ) : loop one n c = ([], c) := by
  cases n with
  | zero => rfl
  | succ n => rw [loop, h]

theorem loop_spec {I : DescendingCursor V → Prop} (hok : ∀ c, I c → c.Ok)
    (hone : ∀ c c' p, I c → one c = some (p, c') → c.rest = c'.rest ++ [p] ∧ I c' ∧ SameEnd c c') :
    ∀ n {c : DescendingCursor V}, I c → Takes c (loop one n c) ∧ I (loop one n c).2 ∧ (loop one n c).1.length ≤ n ∧
        ((loop one n c).1.length < n → one (loop one n c).2 = none)
  | 0, c, h => ⟨(hok c h).takes_nil, h, le_rfl, fun hlt => absurd hlt (not_lt_zero _)⟩
  | n + 1, c, h => by
    unfold loop
    cases hm : one c with
    | none => exact ⟨(hok c h).takes_nil, h, zero_le _, fun _ => hm⟩
    | some r =>
      obtain ⟨p, c₁⟩ := r
      obtain ⟨h1, h2, h3⟩ := hone c c₁ p h hm
      obtain ⟨h4, h5, h6, h7⟩ := loop_spec hok hone n h2
      refine ⟨⟨by simp [h1, h4.rest], h4.ok, h3.trans h4.same⟩, h5, by simpa using h6, fun hlt => ?_⟩
      exact h7 (by simpa using hlt)

/-! ## One call -/

theorem tsmRest_eq_nil (h : c.Ok) (hd : c.drainTSMOne = none) : c.tsmRest = [] := by
  have h0 := valueBefore_eq_none h.tsmPos_le (map_eq_none_iff.mp hd)
  rw [tsmRest, h0, h.ready.resolve_left (by omega)]
  rfl

theorem cacheRest_eq_nil (h : c.Ok) (hd : c.drainCacheOne = none) : c.cacheRest = [] := by
  have h0 := valueBefore_eq_none h.cachePos_le (map_eq_none_iff.mp hd)
  rw [cacheRest, h0, take_zero]

theorem mergeOne_eq_none (h : c.Ok) (hm : c.mergeOne = none) : c.drainTSMOne = none ∨ c.cacheRest = [] := by
  unfold mergeOne at hm
  cases ht : valueBefore c.tsmValues c.tsmPos with
  | none => exact .inl (map_eq_none_iff.mpr ht)
  | some t =>
    cases hq : valueBefore c.cacheValues c.cachePos with
    | none => exact .inr (cacheRest_eq_nil h (map_eq_none_iff.mpr hq))
    | some q =>
      simp only [ht, hq] at hm
      split_ifs at hm

theorem drainTSM_spec (h : c.Ok) (n : ℕ) (hc : n = 0 ∨ c.drainTSMOne = none ∨ c.cacheRest = []) :
    Takes c (loop drainTSMOne n c) ∧ ((loop drainTSMOne n c).1.length < n → (loop drainTSMOne n c).2.tsmRest = []) := by
  rcases hc with rfl | hd | hc
  · exact ⟨h.takes_nil, fun hlt => absurd hlt (not_lt_zero _)⟩
  · rw [loop_of_none hd]
    exact ⟨h.takes_nil, fun _ => tsmRest_eq_nil h hd⟩
  · obtain ⟨h1, h2, -, h4⟩ := loop_spec (I := fun c => c.Ok ∧ c.cacheRest = []) (fun _ hI => hI.1)
      (fun c c' p hI => drainTSMOne_spec hI.1 hI.2) n ⟨h, hc⟩
    exact ⟨h1, fun hlt => tsmRest_eq_nil h2.1 (h4 hlt)⟩

theorem drainCache_spec (h : c.Ok) (n : ℕ) (ht : n = 0 ∨ c.tsmRest = []) : Takes c (loop drainCacheOne n c) ∧
      ((loop drainCacheOne n c).1.length < n → (loop drainCacheOne n c).2.rest = []) := by
  rcases ht with rfl | ht
  · exact ⟨h.takes_nil, fun hlt => absurd hlt (not_lt_zero _)⟩
  · obtain ⟨h1, h2, -, h4⟩ := loop_spec (I := fun c => c.Ok ∧ c.tsmRest = []) (fun _ hI => hI.1)
      (fun c c' p hI => drainCacheOne_spec hI.1 hI.2) n ⟨h, ht⟩
    refine ⟨h1, fun hlt => ?_⟩
    rw [rest, h2.2, cacheRest_eq_nil h2.1 (h4 hlt), overlay_nil_left]

/-- **One call** takes the last of the remaining points, some of them if there are any. -/
theorem fill_spec (h : c.Ok) (hcap : 0 < c.cap) : Takes c c.fill ∧ (c.fill.1 = [] → c.rest = []) := by
  unfold fill
  obtain ⟨h1, -, h4, h5⟩ := loop_spec (fun _ hI => hI) (fun _ _ _ hI => mergeOne_spec hI) c.cap h
  generalize loop mergeOne c.cap c = r₁ at h1 h4 h5
  obtain ⟨res₁, c₁⟩ := r₁
  simp only at h4 h5 ⊢
  rw [← h1.same.2] at h4 h5 hcap
  obtain ⟨g1, g4⟩ := drainTSM_spec h1.ok (c₁.cap - res₁.length) <| by
    by_cases hlt : res₁.length < c₁.cap
    · exact .inr (mergeOne_eq_none h1.ok (h5 hlt))
    · exact .inl (by omega)
  generalize loop drainTSMOne (c₁.cap - res₁.length) c₁ = r₂ at g1 g4
  obtain ⟨res₂, c₂⟩ := r₂
  simp only at g4 ⊢
  rw [← g1.same.2] at g4 hcap
  obtain ⟨k1, k4⟩ := drainCache_spec g1.ok (c₂.cap - (res₁.length + res₂.length)) <| by
    by_cases hlt : res₂.length < c₂.cap - res₁.length
    · exact .inr (g4 hlt)
    · exact .inl (by omega)
  generalize loop drainCacheOne (c₂.cap - (res₁.length + res₂.length)) c₂ = r₃ at k1 k4
  obtain ⟨res₃, c₃⟩ := r₃
  simp only at k4 ⊢
  have hrest : c.rest = c₃.rest ++ (res₁ ++ res₂ ++ res₃).reverse := by
    rw [h1.rest, g1.rest, k1.rest]
    simp
  refine ⟨⟨hrest, k1.ok, (h1.same.trans g1.same).trans k1.same⟩, fun hnil => ?_⟩
  obtain ⟨hnil', hn3⟩ := append_eq_nil_iff.mp hnil
  obtain ⟨hn1, hn2⟩ := append_eq_nil_iff.mp hnil'
  rw [hrest, hnil, k4 (by rw [hn1, hn2, hn3]; simpa using hcap)]
  rfl

/-! ## Successive calls -/

theorem next_fst (h : Asc c.fill.1.reverse) (hs : SameEnd c c.fill.2) :
    c.next.1 = c.fill.1.filter (fun p => c.stop ≤ p.1) := by
  have hp : c.fill.1.Pairwise
      fun p q => decide (p.1 < c.fill.2.stop) = true → decide (q.1 < c.fill.2.stop) = true := by
    refine Pairwise.imp (fun {p q} hlt hgt => ?_) (pairwise_reverse.mp h)
    rw [decide_eq_true_eq] at hgt ⊢
    exact lt_trans hlt hgt
  have : c.next.1 = c.fill.1.rdropWhile (fun p => p.1 < c.fill.2.stop) := rfl
  rw [this, rdropWhile_eq_filter hp, hs.1]
  exact filter_congr fun p _ => by rw [← decide_not, decide_eq_decide, not_lt]

/-- **The calls return the remaining points from the end time on, each once and from the last to the
first.** -/
theorem yields_rest (h : c.Ok) (hcap : 0 < c.cap) : Yields next c (c.rest.filter (fun p => c.stop ≤ p.1)).reverse := by
  refine yields_of_step (I := fun c : DescendingCursor V => c.Ok ∧ 0 < c.cap)
    (R := fun c : DescendingCursor V => (c.rest.filter (fun p => c.stop ≤ p.1)).reverse) ?_ ⟨h, hcap⟩
  rintro c ⟨h, hcap⟩
  obtain ⟨⟨h1, h2, h3⟩, h4⟩ := fill_spec h hcap
  have hasc : Asc (c.fill.2.rest ++ c.fill.1.reverse) := h1 ▸ h.asc_rest
  have hnext := next_fst (asc_append.mp hasc).2.1 h3
  have hsnd : c.next.2 = c.fill.2 := rfl
  refine ⟨?_, ⟨h2, h3.2 ▸ hcap⟩, fun hnil => ?_⟩
  · rw [hsnd, hnext, h1, filter_append, reverse_append, h3.1, filter_reverse, reverse_reverse]
  · by_cases hfill : c.fill.1 = []
    · simp [h4 hfill]
    · -- the call ends before the end time, so all that is left comes before it
      obtain ⟨p, hp⟩ := exists_mem_of_ne_nil _ hfill
      rw [hnext] at hnil
      have hpast : p.1 < c.stop := by simpa using filter_eq_nil_iff.mp hnil p hp
      rw [h1, filter_append, filter_reverse, hnil, reverse_nil, append_nil, reverse_eq_nil_iff, filter_eq_nil_iff]
      intro q hq
      simpa using lt_trans ((asc_append.mp hasc).2.2 q hq p (mem_reverse.mpr hp)) hpast

/-! ## A new cursor -/

/-- The current block is used up although the key cursor may have more: the cursor never gets there. -/
def Stuck (c : DescendingCursor V) : Prop := c.tsmPos = 0

/-- The cursor without the blocks it never reads. -/
def detach (c : DescendingCursor V) : DescendingCursor V := { c with keyCursor := [] }

theorem fill_of_stuck (h : c.Stuck) : c.fill = loop drainCacheOne c.cap c := by
  have hv : valueBefore c.tsmValues c.tsmPos = none := by rw [h]; rfl
  have hm : c.mergeOne = none := by rw [mergeOne, hv]
  have hd : c.drainTSMOne = none := map_eq_none_iff.mpr hv
  unfold fill
  rw [loop_of_none hm]
  simp only
  rw [loop_of_none hd]
  simp

theorem drainCacheOne_detach (c : DescendingCursor V) :
    c.detach.drainCacheOne = c.drainCacheOne.map fun r => (r.1, r.2.detach) := by
  rw [drainCacheOne, drainCacheOne, Option.map_map]
  rfl

theorem loop_drainCacheOne_detach : ∀ (n : ℕ) (c : DescendingCursor V),
    loop drainCacheOne n c.detach = ((loop drainCacheOne n c).1, (loop drainCacheOne n c).2.detach) ∧
    (loop drainCacheOne n c).2.tsmPos = c.tsmPos
  | 0, c => ⟨rfl, rfl⟩
  | n + 1, c => by
    rw [loop, loop, drainCacheOne_detach]
    cases hd : c.drainCacheOne with
    | none => exact ⟨rfl, rfl⟩
    | some r =>
      obtain ⟨q, -, rfl⟩ := map_eq_some_iff.mp hd
      obtain ⟨h1, h2⟩ := loop_drainCacheOne_detach n { c with cachePos := c.cachePos - 1 }
      simp only [map_some]
      rw [h1]
      exact ⟨rfl, h2⟩

theorem next_detach (h : c.Stuck) : c.detach.next = (c.next.1, c.next.2.detach) := by
  have h' : c.detach.Stuck := h
  unfold next
  rw [fill_of_stuck h, fill_of_stuck h', show c.detach.cap = c.cap from rfl, (loop_drainCacheOne_detach c.cap c).1]
  rfl

theorem Stuck.next (h : c.Stuck) : c.next.2.Stuck := by
  have hsnd : c.next.2 = c.fill.2 := rfl
  rw [hsnd, fill_of_stuck h]
  exact (loop_drainCacheOne_detach c.cap c).2.trans h

theorem Stuck.yields (h : c.Stuck) (hc : Asc c.cacheValues) (hp : c.cachePos ≤ c.cacheValues.length)
    (ht : Asc c.tsmValues) (hcap : 0 < c.cap) :
    Yields DescendingCursor.next c (c.cacheRest.filter (fun p => c.stop ≤ p.1)).reverse := by
  rw [← yields_map (fun _ => Stuck.next) (fun _ => next_detach) h]
  have hok : c.detach.Ok := ⟨hc, hp, by simpa [detach] using ht, by
    rw [detach, h]; exact zero_le _, forall_mem_nil _, .inr rfl⟩
  have hrest : c.detach.rest = c.cacheRest := by
    have htsm : c.detach.tsmRest = [] := by
      rw [tsmRest, detach, h]
      rfl
    rw [rest, htsm, overlay_nil_left]
    rfl
  have hy := yields_rest hok hcap
  rw [hrest] at hy
  exact hy

section Reset

variable (cap : ℕ) (lo hi : Int) {cache : ValueArray V} {blocks : List (ValueArray V)}

theorem filter_lt_succ (l : ValueArray V) : l.filter (fun p => p.1 < hi + 1) = l.filter (fun p => p.1 ≤ hi) :=
  filter_congr fun p _ => by rw [decide_eq_decide, Int.lt_add_one_iff]

theorem asc_getLastD (hb : Asc blocks.flatten) : Asc (blocks.getLastD []) := by
  rcases eq_nil_or_concat' blocks with rfl | ⟨bs, b, rfl⟩
  · exact asc_nil
  · rw [flatten_concat] at hb
    simpa using (asc_append.mp hb).2.1

theorem reset_pos (hc : Asc cache) (hb : Asc blocks.flatten) :
    (reset cap hi lo cache blocks.reverse).cachePos = below cache (hi + 1) ∧
      (reset cap hi lo cache blocks.reverse).tsmPos = below (blocks.getLastD []) (hi + 1) := by
  have hsearch : ∀ {l : ValueArray V}, Asc l →
      sortSearch l.length (fun i => l.timeAt i > hi) = below l (hi + 1) := fun hl =>
    sortSearch_ge hl fun i hi => by
      rw [ValueArray.timeAt_eq hi, decide_eq_decide, gt_iff_lt, Int.add_one_le_iff]
  refine ⟨hsearch hc, ?_⟩
  rw [← hsearch (asc_getLastD hb)]
  unfold reset
  rw [headD_eq_head?_getD, head?_reverse, ← getLastD_eq_getLast?]

theorem reset_spec (hc : Asc cache) (hb : Asc blocks.flatten) (hne : ∀ b ∈ blocks, b ≠ [])
    (hstart : ∃ p ∈ blocks.getLastD [], p.1 ≤ hi) :
    (reset cap hi lo cache blocks.reverse).Ok ∧ (reset cap hi lo cache blocks.reverse).rest =
      (overlay blocks.flatten cache).filter (fun p => p.1 ≤ hi) := by
  obtain ⟨h1, h2⟩ := reset_pos cap lo hi hc hb
  rcases eq_nil_or_concat' blocks with rfl | ⟨bs, b, rfl⟩
  · obtain ⟨p, hp, -⟩ := hstart
    cases hp
  · obtain ⟨p, hp, hhi⟩ := hstart
    have hp : p ∈ b := by simpa using hp
    have hlast : (bs ++ [b]).getLastD [] = b := by simp
    have hrev : (bs ++ [b]).reverse = b :: bs.reverse := by simp
    rw [hlast, hrev] at h2
    rw [hrev] at h1 ⊢
    have hflat : (bs ++ [b]).flatten = bs.flatten ++ b := by simp
    rw [hflat] at hb ⊢
    obtain ⟨hasc', hasc, hlt⟩ := asc_append.mp hb
    have hearlier : bs.flatten.filter (fun q => q.1 ≤ hi) = bs.flatten :=
      filter_eq_self.mpr fun q hq => by simpa using (hlt q hq p hp).le.trans hhi
    have hkey : (bs.reverse).reverse.flatten = bs.flatten := by rw [reverse_reverse]
    refine ⟨⟨hc, h1 ▸ below_le _ _, ?_, h2 ▸ below_le _ _, fun d hd => hne d ?_, .inl ?_⟩, ?_⟩
    · exact hkey.symm ▸ hb
    · exact mem_append_left _ (mem_reverse.mp hd)
    · obtain ⟨i, hi', rfl⟩ := getElem_of_mem hp
      have := (hasc.getElem_lt_iff hi' (hi + 1)).mp (by omega)
      rw [h2]
      omega
    · rw [rest, tsmRest, cacheRest, h1, h2, filter_overlay hb hc (fun t => t ≤ hi)]
      congr 1
      · show (bs.reverse).reverse.flatten ++ b.take (below b (hi + 1)) = _
        rw [hkey, hasc.take_below, filter_lt_succ, filter_append, hearlier]
      · exact (hc.take_below (hi + 1)).trans (filter_lt_succ hi cache)

/-- **A new descending cursor** returns the merge of blocks and cache in the window exactly if and only
if the newest block has a point in or before the window or no block has a point in the window that the
cache lacks. -/
theorem yields_reset_iff (hc : Asc cache) (hb : Asc blocks.flatten) (hne : ∀ b ∈ blocks, b ≠ []) (hcap : 0 < cap) :
    Yields next (reset cap hi lo cache blocks.reverse)
        ((overlay blocks.flatten cache).filter (fun p => lo ≤ p.1 ∧ p.1 ≤ hi)).reverse ↔
      (∃ p ∈ blocks.getLastD [], p.1 ≤ hi) ∨ ∀ p ∈ blocks.flatten, lo ≤ p.1 → p.1 ≤ hi → ∃ q ∈ cache, q.1 = p.1 := by
  by_cases hstart : ∃ p ∈ blocks.getLastD [], p.1 ≤ hi
  · obtain ⟨hok, hrest⟩ := reset_spec cap lo hi hc hb hne hstart
    rw [iff_true_right (.inl hstart), filter_window, ← hrest]
    exact yields_rest hok hcap
  · -- the newest block is after the window, so the cursor is stuck
    obtain ⟨h1, h2⟩ := reset_pos cap lo hi hc hb
    have hstuck : (reset cap hi lo cache blocks.reverse).Stuck := by
      rw [Stuck, h2, below_eq_zero]
      intro p hp
      by_contra hlt
      exact hstart ⟨p, hp, by omega⟩
    have htsm : Asc (reset cap hi lo cache blocks.reverse).tsmValues := by
      show Asc (blocks.reverse.headD [])
      rw [headD_eq_head?_getD, head?_reverse, ← getLastD_eq_getLast?]
      exact asc_getLastD hb
    have hy : Yields next (reset cap hi lo cache blocks.reverse)
        (cache.filter (fun p => lo ≤ p.1 ∧ p.1 ≤ hi)).reverse := by
      rw [filter_window, ← filter_lt_succ, ← hc.take_below, ← h1]
      exact hstuck.yields hc (h1 ▸ below_le _ _) htsm hcap
    rw [or_iff_right hstart]
    exact yields_overlay_iff reverse_injective hb hc hy

end Reset

end DescendingCursor

/-! ## Both directions -/

section Query

variable (lo hi : Int) (cache : ValueArray V) (blocks : List (ValueArray V))

/-- The points of the blocks and of the cache in a window, where the cache wins. -/
def mergedWindow : ValueArray V := (overlay blocks.flatten cache).filter (fun p => lo ≤ p.1 ∧ p.1 ≤ hi)

/-- Successive calls of `Next` return the points of the window, each once: the ascending cursor in
ascending order, and the descending cursor, which gets the blocks from the newest to the oldest, in
descending order. -/
def MergeExact : Prop :=
  Asc (mergedWindow lo hi cache blocks) ∧
    Yields AscendingCursor.next (AscendingCursor.reset defaultMaxPointsPerBlock lo hi cache blocks)
      (mergedWindow lo hi cache blocks) ∧
    Yields DescendingCursor.next (DescendingCursor.reset defaultMaxPointsPerBlock hi lo cache blocks.reverse)
      (mergedWindow lo hi cache blocks).reverse

/-- The cache has a point at every time of the window at which a block has one. -/
def CacheShadows : Prop := ∀ p ∈ blocks.flatten, lo ≤ p.1 → p.1 ≤ hi → ∃ q ∈ cache, q.1 = p.1

/-- **Both cursors are exact if and only if** the first block that each of them gets reaches into its side
of the window, or the cache hides all the blocks there, and the ascending cursor is never called inside
of a block that it copies as a whole. -/
theorem array_cursors_exact_iff {lo hi : Int} {cache : ValueArray V} {blocks : List (ValueArray V)}
    (hc : Asc cache) (hb : Asc blocks.flatten) (hne : ∀ b ∈ blocks, b ≠ []) : MergeExact lo hi cache blocks ↔
      ((∃ p ∈ blocks.headD [], lo ≤ p.1) ∨ CacheShadows lo hi cache blocks) ∧
      ((∃ p ∈ blocks.getLastD [], p.1 ≤ hi) ∨ CacheShadows lo hi cache blocks) ∧ ∀ c, Calls AscendingCursor.next
        (AscendingCursor.reset defaultMaxPointsPerBlock lo hi cache blocks) c → ¬ c.Repeats := by
  have hcap : 0 < defaultMaxPointsPerBlock := by decide
  have hasc : Asc (mergedWindow lo hi cache blocks) := (hb.overlay hc).filter _
  have h1 := AscendingCursor.yields_reset_iff defaultMaxPointsPerBlock lo hi hc hb hne hcap
  have h2 := DescendingCursor.yields_reset_iff defaultMaxPointsPerBlock lo hi hc hb hne hcap
  unfold MergeExact
  rw [and_iff_right hasc]
  constructor
  · rintro ⟨hup, hdown⟩
    exact ⟨(h1.mp hup).1, h2.mp hdown, (h1.mp hup).2⟩
  · rintro ⟨hfirst, hlast, hcalls⟩
    exact ⟨h1.mpr ⟨hfirst, hcalls⟩, h2.mpr hlast⟩

/-- A cached point inside of two blocks, all of it read in one call. -/
theorem array_cursors_exact_two_blocks : MergeExact 1 4 [(2, 20)] [[(1, 1), (2, 2)], [(3, 3), (5, 5)]] := by
  refine (array_cursors_exact_iff (by decide) (by decide) (by decide)).mpr
    ⟨.inl ⟨(1, 1), by decide, by decide⟩, .inl ⟨(3, 3), by decide, by decide⟩, fun c hc => ?_⟩
  cases hc with
  | refl => decide +kernel
  | step _ hc =>
    cases hc with
    | refl => decide +kernel
    | step _ hc =>
      cases hc with
      | refl => decide +kernel
      | step hne _ => exact absurd (by decide +kernel) hne

/-- A block of 1000 points from time 1 on. -/
def fullBlock : ValueArray ℕ := (range 1000).map fun i : ℕ => ((i : Int) + 1, i)

theorem asc_fullBlock : Asc [fullBlock].flatten := by
  rw [flatten_singleton]
  refine pairwise_map.mpr (Pairwise.imp (fun {i j} hij => ?_) pairwise_lt_range)
  omega

/-- The cursor over a cached point and a full block behind it. -/
def pointAndBlock : AscendingCursor ℕ :=
  AscendingCursor.reset defaultMaxPointsPerBlock 0 1000 [(0, 0)] [fullBlock]

/-- With one cached point before a full block, the first call ends inside of the block and the second
one returns the whole block again. -/
theorem array_cursor_repeats_block : ¬ MergeExact 0 1000 [(0, 0)] [fullBlock] := by
  intro h
  have hne : ∀ b ∈ [fullBlock], b ≠ [] := by decide +kernel
  have hcalls := ((AscendingCursor.yields_reset_iff defaultMaxPointsPerBlock 0 1000
    (asc_singleton (0, 0)) asc_fullBlock hne (by decide)).mp h.2.1).2
  have hfirst : pointAndBlock.next.1 ≠ [] := by decide +kernel
  have hrepeats : pointAndBlock.next.2.Repeats := by decide +kernel
  exact hcalls pointAndBlock.next.2 (.step hfirst (.refl _)) hrepeats

end Query

end Influxdb.Tsm1
