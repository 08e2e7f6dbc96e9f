import Influxdb.Tsm1.ArrayCursor

/-!
# AscendingCursor — when the ascending cursor is exact

`rest c` are the points a cursor has still to return.  A call of `Next` returns the first of them and
leaves the others (`fill_spec`), except when it copies a whole block of which some points are
already used up (`Rewinds`).  So a cursor returns its points exactly if and only if no call before
the last one rewinds to a point up to the end time (`exact_iff`).
-/

namespace Influxdb.Tsm1

open List Cursors Timed

variable {V : Type*} {p : Int × V}

theorem filter_window (lo hi : Int) (l : ValueArray V) : l.filter (fun p => lo ≤ p.1 ∧ p.1 ≤ hi) =
    (l.filter (fun p => p.1 ≤ hi)).filter (fun p => lo ≤ p.1) := by
  simp only [filter_filter, Bool.decide_and]

/-- Calls that return what the cache has in a window return the merge with the blocks, if it hides them there. -/
theorem yields_overlay_iff {σ : Type*} {next : σ → ValueArray V × σ} {s : σ} {lo hi : Int} {a b : ValueArray V}
    {f : ValueArray V → ValueArray V} (hf : f.Injective) (ha : Asc a) (hb : Asc b)
    (h : Yields next s (f (b.filter (fun p => lo ≤ p.1 ∧ p.1 ≤ hi)))) :
    Yields next s (f ((overlay a b).filter (fun p => lo ≤ p.1 ∧ p.1 ≤ hi))) ↔
      ∀ p ∈ a, lo ≤ p.1 → p.1 ≤ hi → ∃ q ∈ b, q.1 = p.1 := by
  have hshadow := filter_overlay_eq_right_iff ha hb (fun t => lo ≤ t ∧ t ≤ hi)
  simp only [decide_eq_true_eq, and_imp] at hshadow
  rw [← hshadow]
  exact ⟨fun h' => hf (h'.unique h), fun heq => heq ▸ h⟩

namespace AscendingCursor

variable (c : AscendingCursor V)

/-- The points of the blocks not used up. -/
def tsmRest : ValueArray V :=
  c.tsmValues.drop c.tsmPos ++ c.keyCursor.flatten

/-- The points of the cache not used up. -/
def cacheRest : ValueArray V := c.cacheValues.drop c.cachePos

/-- The points the cursor has still to return. -/
def rest : ValueArray V := overlay c.tsmRest c.cacheRest

/-- Both sides are ascending, and the current block has points left unless all blocks are used up. -/
structure Ok (c : AscendingCursor V) : Prop where
  asc_cache : Asc c.cacheValues
  asc_tsm : Asc (c.tsmValues ++ c.keyCursor.flatten)
  blocks_ne : ∀ b ∈ c.keyCursor, b ≠ []
  ready : c.tsmPos < c.tsmValues.length ∨ c.keyCursor = []

/-- The settings of a cursor that no call changes. -/
def SameEnd (c c' : AscendingCursor V) : Prop := c'.stop = c.stop ∧ c'.cap = c.cap

theorem SameEnd.trans {a b c : AscendingCursor V} (h : SameEnd a b) (h' : SameEnd b c) : SameEnd a c :=
  ⟨h'.1.trans h.1, h'.2.trans h.2⟩

variable {c c' : AscendingCursor V}

theorem Ok.asc_tsmRest (h : c.Ok) : Asc c.tsmRest := by
  obtain ⟨h1, h2, h3⟩ := asc_append.mp h.asc_tsm
  exact asc_append.mpr ⟨h1.drop _, h2, fun p hp => h3 p (mem_of_mem_drop hp)⟩

theorem Ok.asc_cacheRest (h : c.Ok) : Asc c.cacheRest := h.asc_cache.drop _

theorem Ok.asc_rest (h : c.Ok) : Asc c.rest := h.asc_tsmRest.overlay h.asc_cacheRest

/-! ## Steps -/

section

variable (hc : Asc c.cacheValues) (ht : Asc (c.tsmValues ++ c.keyCursor.flatten)) (hb : ∀ b ∈ c.keyCursor, b ≠ [])

include hc ht hb

theorem nextTSM_spec : c.nextTSM.Ok ∧ c.nextTSM.tsmRest = c.keyCursor.flatten := by
  obtain ⟨-, h2, -⟩ := asc_append.mp ht
  unfold nextTSM tsmRest
  cases hk : c.keyCursor with
  | nil => exact ⟨⟨hc, by simp, by simp, .inr rfl⟩, by simp⟩
  | cons b bs =>
    rw [hk] at h2 hb
    refine ⟨⟨hc, by simpa using h2, (forall_mem_cons.mp hb).2, .inl ?_⟩, by simp⟩
    simpa using length_pos_iff.mpr (hb b mem_cons_self)

theorem refill_spec : c.refill.Ok ∧ c.refill.tsmRest = c.tsmRest ∧ c.refill.cacheRest = c.cacheRest ∧
    SameEnd c c.refill := by
  unfold refill
  split_ifs with h
  · obtain ⟨h1, h2⟩ := nextTSM_spec hc ht hb
    refine ⟨h1, ?_, rfl, rfl, rfl⟩
    rw [h2, tsmRest, drop_of_length_le h, nil_append]
  · exact ⟨⟨hc, ht, hb, .inl (by omega)⟩, rfl, rfl, rfl, rfl⟩

end

theorem tsmRest_cons {t : Int × V} (h : c.tsmValues[c.tsmPos]? = some t) :
    c.tsmRest = t :: tsmRest { c with tsmPos := c.tsmPos + 1 } := by
  obtain ⟨hlt, rfl⟩ := List.getElem?_eq_some_iff.mp h
  rw [tsmRest, drop_eq_getElem_cons hlt]
  rfl

theorem cacheRest_cons (h : c.cacheValues[c.cachePos]? = some p) :
    c.cacheRest = p :: cacheRest { c with cachePos := c.cachePos + 1 } := by
  obtain ⟨hlt, rfl⟩ := List.getElem?_eq_some_iff.mp h
  rw [cacheRest, drop_eq_getElem_cons hlt]
  rfl

/-- A round moves on and reads the next block if it has to. -/
theorem Ok.refill (h : c.Ok) {i j : ℕ} (hc : c' = { c with cachePos := i, tsmPos := j })
    (hr : c.rest = p :: c'.rest) : c.rest = p :: c'.refill.rest ∧ c'.refill.Ok ∧ SameEnd c c'.refill := by
  subst hc
  obtain ⟨h1, h2, h3, h4⟩ := refill_spec (c := { c with cachePos := i, tsmPos := j }) h.asc_cache h.asc_tsm h.blocks_ne
  refine ⟨?_, h1, h4⟩
  rw [hr, rest, rest, h2, h3]

theorem mergeOne_spec (h : c.Ok) (hm : c.mergeOne = some (p, c')) : c.rest = p :: c'.rest ∧ c'.Ok ∧ SameEnd c c' := by
  unfold mergeOne at hm
  cases ht : c.tsmValues[c.tsmPos]? with
  | none => simp [ht] at hm
  | some t =>
    cases hq : c.cacheValues[c.cachePos]? with
    | none => simp [ht, hq] at hm
    | some q =>
      simp only [ht, hq] at hm
      have hrest : c.rest = overlay (t :: tsmRest { c with tsmPos := c.tsmPos + 1 })
          (q :: cacheRest { c with cachePos := c.cachePos + 1 }) := by
        rw [rest, tsmRest_cons ht, cacheRest_cons hq]
      rw [overlay_cons_cons] at hrest
      split_ifs at hm with h1 h2
      · cases hm
        rw [if_neg (by omega), if_pos h1.symm] at hrest
        exact h.refill rfl hrest
      · cases hm
        rw [if_neg (by omega), if_neg (by omega), ← tsmRest_cons ht] at hrest
        exact h.refill rfl hrest
      · cases hm
        rw [if_pos (by omega), ← cacheRest_cons hq] at hrest
        exact h.refill rfl hrest

theorem mergeOne_eq_none (hm : c.mergeOne = none) : c.tsmValues.length ≤ c.tsmPos ∨ c.cacheRest = [] := by
  unfold mergeOne at hm
  cases ht : c.tsmValues[c.tsmPos]? with
  | none => exact .inl (getElem?_eq_none_iff.mp ht)
  | some t =>
    cases hq : c.cacheValues[c.cachePos]? with
    | none => exact .inr (drop_of_length_le (getElem?_eq_none_iff.mp hq))
    | some q =>
      simp only [ht, hq] at hm
      split_ifs at hm

theorem mergeLoop_spec : ∀ n {c c' : AscendingCursor V} {res : ValueArray V}, c.Ok → mergeLoop n c = (res, c') →
    c.rest = res ++ c'.rest ∧ c'.Ok ∧ SameEnd c c' ∧ (res.length < n → c'.mergeOne = none) ∧ (res = [] → c' = c)
  | 0, c, c', res, h, hloop => by
    cases hloop
    exact ⟨rfl, h, ⟨rfl, rfl⟩, fun hlt => absurd hlt (Nat.not_lt_zero _), fun _ => rfl⟩
  | n + 1, c, c', res, h, hloop => by
    rw [mergeLoop] at hloop
    cases hm : c.mergeOne with
    | none =>
      rw [hm] at hloop
      cases hloop
      exact ⟨rfl, h, ⟨rfl, rfl⟩, fun _ => hm, fun _ => rfl⟩
    | some r =>
      obtain ⟨p, c₁⟩ := r
      obtain ⟨h1, h2, h3⟩ := mergeOne_spec h hm
      obtain ⟨h4, h5, h6, h7, -⟩ := mergeLoop_spec n h2 rfl
      rw [hm] at hloop
      cases hloop
      refine ⟨by simp only [h1, h4, cons_append], h5, h3.trans h6, ?_, by simp⟩
      intro hlt
      exact h7 (by simpa using hlt)

/-! ## One call -/

/-- The call copies the whole current block although points of it are used up: the cache is used up, the
position is inside of the block and the block fits into the result. -/
def Rewinds (c : AscendingCursor V) : Prop :=
  c.cacheValues.length ≤ c.cachePos ∧ 0 < c.tsmPos ∧ c.tsmPos < c.tsmValues.length ∧
    c.tsmValues.length ≤ c.cap

/-- What is copied from the current block, when the whole-block copy is not taken by mistake. -/
theorem copyTSM_spec (h : c.Ok) {pos : ℕ} {res : ValueArray V} (hm : c.mergeOne = none) (hpos : pos < c.cap)
    (hr : pos = 0 → ¬ c.Rewinds) (hcopy : c.copyTSM pos = (res, c')) :
    c.rest = res ++ c'.rest ∧ c'.Ok ∧ SameEnd c c' ∧ (res = [] → c' = c ∧ c.tsmRest = []) ∧ (res ≠ [] → c'.cacheRest = []) := by
  rw [copyTSM] at hcopy
  by_cases hlt : c.tsmPos < c.tsmValues.length
  · rw [if_pos hlt] at hcopy
    have hcache : c.cacheRest = [] := (mergeOne_eq_none hm).resolve_left (by omega)
    have hrest : c.rest = c.tsmRest := by rw [rest, hcache, overlay_nil_right]
    by_cases hs : pos = 0 ∧ c.cap ≥ c.tsmValues.length
    · -- the whole block, from its start
      rw [if_pos hs] at hcopy
      cases hcopy
      have h0 : c.tsmPos = 0 := by
        by_contra hne
        refine hr hs.1 ⟨?_, by omega, hlt, hs.2⟩
        exact drop_eq_nil_iff.mp hcache
      obtain ⟨h1, h2⟩ := nextTSM_spec h.asc_cache h.asc_tsm h.blocks_ne
      have hc' : c.nextTSM.cacheRest = [] := hcache
      refine ⟨?_, h1, ⟨rfl, rfl⟩, ?_, fun _ => hc'⟩
      · rw [hrest, rest, h2, hc', overlay_nil_right, tsmRest, h0, drop_zero]
      · intro hnil
        rw [hnil] at hlt
        simp at hlt
    · rw [if_neg hs] at hcopy
      cases hcopy
      have hne : (c.tsmValues.drop c.tsmPos).take (c.cap - pos) ≠ [] := by
        rw [← length_pos_iff, length_take, length_drop]
        omega
      obtain ⟨h1, h2, h3, h4⟩ := refill_spec (c := { c with
        tsmPos := c.tsmPos + ((c.tsmValues.drop c.tsmPos).take (c.cap - pos)).length })
        h.asc_cache h.asc_tsm h.blocks_ne
      have hc' := h3.trans hcache
      refine ⟨?_, h1, h4, fun hnil => absurd hnil hne, fun _ => hc'⟩
      rw [hrest, rest, h2, hc', overlay_nil_right, tsmRest, tsmRest]
      rw [← drop_drop, ← append_assoc, take_append_drop_length]
  · rw [if_neg hlt] at hcopy
    cases hcopy
    have hk : c.keyCursor = [] := h.ready.resolve_left hlt
    refine ⟨rfl, h, ⟨rfl, rfl⟩, fun _ => ⟨rfl, ?_⟩, fun hne => absurd rfl hne⟩
    rw [tsmRest, hk, drop_of_length_le (by omega)]
    rfl

theorem copyCache_spec (h : c.Ok) (pos : ℕ) (ht : c.tsmRest = [] ∨ c.cacheRest = []) :
    c.rest = (c.copyCache pos).1 ++ (c.copyCache pos).2.rest ∧ (c.copyCache pos).2.Ok ∧
      SameEnd c (c.copyCache pos).2 := by
  refine ⟨?_, { h with }, rfl, rfl⟩
  have hcache : (c.copyCache pos).1 ++ (c.copyCache pos).2.cacheRest = c.cacheRest := by
    rw [copyCache, cacheRest, cacheRest, ← drop_drop]
    exact take_append_drop_length _ _
  have htsm : (c.copyCache pos).2.tsmRest = c.tsmRest := rfl
  rw [rest, rest, htsm]
  rcases ht with ht | ht
  · rw [ht, overlay_nil_left, overlay_nil_left, hcache]
  · rw [ht] at hcache ⊢
    obtain ⟨h1, h2⟩ := append_eq_nil_iff.mp hcache
    rw [h1, h2, nil_append]

/-- **One call** returns the first of the remaining points, some of them if there are any. -/
theorem fill_spec (h : c.Ok) (hcap : 0 < c.cap) (hr : ¬ c.Rewinds) :
    c.rest = c.fill.1 ++ c.fill.2.rest ∧ c.fill.2.Ok ∧ SameEnd c c.fill.2 ∧ (c.fill.1 = [] → c.rest = []) := by
  rcases hloop : mergeLoop c.cap c with ⟨res₁, c₁⟩
  obtain ⟨h1, h2, h3, h5, h6⟩ := mergeLoop_spec c.cap h hloop
  simp only [fill, hloop]
  split_ifs with hlen
  · rw [h3.2] at hlen
    have hr₁ : res₁.length = 0 → ¬ c₁.Rewinds := fun h0 => h6 (length_eq_zero_iff.mp h0) ▸ hr
    rcases hcopy : c₁.copyTSM res₁.length with ⟨res₂, c₂⟩
    obtain ⟨g1, g2, g3, g5, g6⟩ := copyTSM_spec h2 (h5 hlen) (h3.2 ▸ hlen) hr₁ hcopy
    have hside : c₂.tsmRest = [] ∨ c₂.cacheRest = [] := by
      by_cases hres : res₂ = []
      · obtain ⟨e1, e2⟩ := g5 hres
        exact .inl (e1 ▸ e2)
      · exact .inr (g6 hres)
    obtain ⟨k1, k2, k3⟩ := copyCache_spec g2 (res₁.length + res₂.length) hside
    refine ⟨by rw [h1, g1, k1]; simp, k2, (h3.trans g3).trans k3, ?_⟩
    -- an empty result leaves nothing
    intro hnil
    obtain ⟨hnil, hn3⟩ := append_eq_nil_iff.mp hnil
    obtain ⟨hn1, hn2⟩ := append_eq_nil_iff.mp hnil
    obtain ⟨e1, e2⟩ := g5 hn2
    have hc2 : c₂.cacheRest = [] := by
      rw [copyCache, take_eq_nil_iff] at hn3
      refine hn3.resolve_left ?_
      rw [g3.2, h3.2, hn1, hn2]
      simp only [length_nil]
      omega
    rw [h1, hn1, nil_append, ← e1, rest, hc2, overlay_nil_right, e1, e2]
  · refine ⟨h1, h2, h3, fun (hnil : res₁ = []) => ?_⟩
    rw [h3.2, hnil] at hlen
    simp only [length_nil] at hlen
    omega

theorem mergeLoop_of_none (hm : c.mergeOne = none) (n : ℕ) : mergeLoop n c = ([], c) := by
  cases n with
  | zero => rfl
  | succ n => rw [mergeLoop, hm]

theorem fill_of_rewinds (hr : c.Rewinds) : c.fill.1 = c.tsmValues ∧ SameEnd c c.fill.2 := by
  obtain ⟨h1, h2, h3, h4⟩ := hr
  have hm : c.mergeOne = none := by
    unfold mergeOne
    rw [getElem?_eq_none_iff.mpr h1]
    cases c.tsmValues[c.tsmPos]? <;> rfl
  have hcopy : c.copyTSM 0 = (c.tsmValues, c.nextTSM) := by
    rw [copyTSM, if_pos h3, if_pos ⟨rfl, h4⟩]
  have hcache : ∀ n, (c.nextTSM.copyCache n).1 = [] := fun n => by
    have : c.cacheValues.drop c.cachePos = [] := drop_of_length_le h1
    simp [copyCache, nextTSM, this]
  unfold fill
  rw [mergeLoop_of_none hm]
  simp only [length_nil, hcopy]
  rw [if_pos (by omega)]
  exact ⟨by simp [hcache], rfl, rfl⟩

/-! ## Successive calls -/

theorem next_snd (c : AscendingCursor V) : c.next.2 = c.fill.2 := rfl

theorem next_fst (h : Asc c.fill.1) (hs : SameEnd c c.fill.2) : c.next.1 = c.fill.1.filter (fun p => p.1 ≤ c.stop) := by
  have hp : c.fill.1.Pairwise
      fun p q => decide (p.1 > c.fill.2.stop) = true → decide (q.1 > c.fill.2.stop) = true := by
    refine List.Pairwise.imp (fun {p q} hlt hgt => ?_) h
    rw [decide_eq_true_eq] at hgt ⊢
    exact hgt.trans hlt
  have : c.next.1 = c.fill.1.rdropWhile (fun p => p.1 > c.fill.2.stop) := rfl
  rw [this, rdropWhile_eq_filter hp, hs.1]
  exact filter_congr fun p _ => by rw [← decide_not, decide_eq_decide, gt_iff_lt, not_lt]

/-- The call returns a point up to the end time that is used up. -/
def Repeats (c : AscendingCursor V) : Prop :=
  c.Rewinds ∧ ∃ p ∈ c.tsmValues.take c.tsmPos, p.1 ≤ c.stop

instance decidableRepeats (c : AscendingCursor V) : Decidable c.Repeats :=
  inferInstanceAs (Decidable ((_ ∧ _) ∧ _))

/-- The calls end, and return the remaining points up to the end time. -/
def Exact (c : AscendingCursor V) : Prop := Yields next c (c.rest.filter (fun p => p.1 ≤ c.stop))

theorem Ok.take_lt_rest (h : c.Ok) (hc : c.cacheValues.length ≤ c.cachePos) {q : Int × V}
    (hp : p ∈ c.tsmValues.take c.tsmPos) (hq : q ∈ c.rest) : p.1 < q.1 := by
  have hasc := h.asc_tsm
  rw [← take_append_drop c.tsmPos c.tsmValues, append_assoc] at hasc
  rw [rest, cacheRest, drop_of_length_le hc, overlay_nil_right] at hq
  exact (asc_append.mp hasc).2.2 p hp q hq

theorem Rewinds.asc_fill (h : c.Ok) (hr : c.Rewinds) : Asc c.fill.1 := by
  rw [(fill_of_rewinds hr).1]
  exact (asc_append.mp h.asc_tsm).1

/-- A call that rewinds past the end time returns nothing, and nothing is left up to the end time. -/
theorem Rewinds.next_eq_nil (h : c.Ok) (hr : c.Rewinds) (hn : ¬ c.Repeats) :
    c.next.1 = [] ∧ c.rest.filter (fun p => p.1 ≤ c.stop) = [] := by
  have hlate : ∀ p ∈ c.tsmValues.take c.tsmPos, c.stop < p.1 := fun p hp => by
    by_contra hle
    exact hn ⟨hr, p, hp, not_lt.mp hle⟩
  obtain ⟨h1, h2, h3, -⟩ := id hr
  have h0 : (c.tsmValues.take c.tsmPos) ≠ [] := by
    rw [← length_pos_iff, length_take]
    omega
  obtain ⟨p₀, hp₀⟩ := exists_mem_of_ne_nil _ h0
  have hrest : ∀ q ∈ c.rest, c.stop < q.1 := fun q hq =>
    (hlate p₀ hp₀).trans (h.take_lt_rest h1 hp₀ hq)
  have hdrop : ∀ q ∈ c.tsmValues.drop c.tsmPos, q ∈ c.rest := fun q hq => by
    rw [rest, cacheRest, drop_of_length_le h1, overlay_nil_right]
    exact mem_append_left _ hq
  constructor
  · rw [next_fst (Rewinds.asc_fill h hr) (fill_of_rewinds hr).2, (fill_of_rewinds hr).1]
    refine filter_eq_nil_iff.mpr fun q hq => ?_
    rw [← take_append_drop c.tsmPos c.tsmValues] at hq
    rcases mem_append.mp hq with hq | hq
    · simpa using hlate q hq
    · simpa using hrest q (hdrop q hq)
  · exact filter_eq_nil_iff.mpr fun q hq => by simpa using hrest q hq

theorem next_spec (h : c.Ok) (hcap : 0 < c.cap) (hr : ¬ c.Rewinds) :
    c.rest.filter (fun p => p.1 ≤ c.stop) = c.next.1 ++ c.next.2.rest.filter (fun p => p.1 ≤ c.next.2.stop) ∧
      (c.next.1 = [] → c.rest.filter (fun p => p.1 ≤ c.stop) = []) ∧
      (c.next.1 ≠ [] → c.next.2.rest.length < c.rest.length) ∧ c.next.2.Ok ∧ SameEnd c c.next.2 := by
  obtain ⟨h1, h2, h3, h4⟩ := fill_spec h hcap hr
  have hasc : Asc (c.fill.1 ++ c.fill.2.rest) := h1 ▸ h.asc_rest
  have hnext := next_fst (asc_append.mp hasc).1 h3
  rw [next_snd, hnext]
  refine ⟨by rw [h1, filter_append, h3.1], fun hnil => ?_, fun hne => ?_, h2, h3⟩
  · by_cases hfill : c.fill.1 = []
    · rw [h4 hfill, filter_nil]
    · -- the call ends after the end time, so all later points do
      obtain ⟨p, hp⟩ := exists_mem_of_ne_nil _ hfill
      have hpast : ∀ q ∈ c.fill.1, c.stop < q.1 := fun q hq => by
        simpa using filter_eq_nil_iff.mp hnil q hq
      rw [h1, filter_append, hnil, nil_append]
      refine filter_eq_nil_iff.mpr fun q hq => ?_
      simpa using (hpast p hp).trans ((asc_append.mp hasc).2.2 p hp q hq)
  · have hfill : c.fill.1 ≠ [] := fun hnil => hne (by rw [hnil, filter_nil])
    rw [h1, length_append]
    have := length_pos_iff.mpr hfill
    omega

theorem Repeats.not_exact (h : c.Ok) (hb : c.Repeats) : ¬ c.Exact := by
  intro hex
  obtain ⟨hr, p, hp, hstop⟩ := id hb
  have hmem : p ∈ c.next.1 := by
    rw [next_fst (Rewinds.asc_fill h hr) (fill_of_rewinds hr).2, (fill_of_rewinds hr).1]
    exact mem_filter.mpr ⟨mem_of_mem_take hp, by simpa using hstop⟩
  obtain ⟨more, hl, -⟩ := (yields_iff_of_ne (ne_nil_of_mem hmem)).mp hex
  have hrest : p ∈ c.rest.filter (fun p => p.1 ≤ c.stop) := hl ▸ mem_append_left more hmem
  exact lt_irrefl _ (h.take_lt_rest hr.1 hp (mem_filter.mp hrest).1)

theorem exact_next_iff (h : c.Ok) (hcap : 0 < c.cap) (hr : ¬ c.Rewinds) (hne : c.next.1 ≠ []) :
    c.Exact ↔ c.next.2.Exact := by
  rw [Exact, yields_iff_of_ne hne, (next_spec h hcap hr).1]
  constructor
  · rintro ⟨more, hl, hmore⟩
    rw [Exact, append_cancel_left hl]
    exact hmore
  · intro hmore
    exact ⟨_, rfl, hmore⟩

theorem exact_of_next_eq_nil (hnil : c.next.1 = []) (hrest : c.rest.filter (fun p => p.1 ≤ c.stop) = []) : c.Exact := by
  rw [Exact, hrest]
  exact yields_of_nil hnil

/-- **The calls return the remaining points up to the end time, each once and in order, if and only if
no call is made on a cursor that repeats points.** -/
theorem exact_iff (h : c.Ok) (hcap : 0 < c.cap) : c.Exact ↔ ∀ c', Calls next c c' → ¬ c'.Repeats := by
  generalize hn : c.rest.length = n
  induction n using Nat.strong_induction_on generalizing c with
  | h n ih =>
    by_cases hb : c.Repeats
    · exact ⟨fun he => absurd he (hb.not_exact h), fun hall => absurd hb (hall c (.refl c))⟩
    by_cases hnil : c.next.1 = []
    · refine ⟨fun _ c' hc' => ?_, fun _ => exact_of_next_eq_nil hnil ?_⟩
      · cases hc' with
        | refl => exact hb
        | step hne _ => exact absurd hnil hne
      · by_cases hr : c.Rewinds
        · exact (hr.next_eq_nil h hb).2
        · exact (next_spec h hcap hr).2.1 hnil
    · have hr : ¬ c.Rewinds := fun hr => hnil (hr.next_eq_nil h hb).1
      obtain ⟨-, -, hlt, hok, hend⟩ := next_spec h hcap hr
      rw [exact_next_iff h hcap hr hnil, ih _ (hn ▸ hlt hnil) hok (hend.2 ▸ hcap) rfl]
      refine ⟨fun hall c' hc' => ?_, fun hall c' hc' => hall c' (.step hnil hc')⟩
      cases hc' with
      | refl => exact hb
      | step _ hc' => exact hall c' hc'

/-! ## A new cursor -/

section Reset

variable (cap : ℕ) (lo hi : Int) {cache : ValueArray V} {blocks : List (ValueArray V)}

theorem asc_headD (hb : Asc blocks.flatten) : Asc (blocks.headD []) := by
  cases blocks with
  | nil => exact asc_nil
  | cons b bs => exact (asc_append.mp hb).1

theorem reset_pos (hc : Asc cache) (hb : Asc blocks.flatten) :
    (reset cap lo hi cache blocks).cachePos = below cache lo ∧
      (reset cap lo hi cache blocks).tsmPos = below (blocks.headD []) lo := by
  have hsearch : ∀ {l : ValueArray V}, Asc l →
      sortSearch l.length (fun i => l.timeAt i ≥ lo) = below l lo := fun hl =>
    sortSearch_ge hl fun i hi => by rw [ValueArray.timeAt_eq hi]
  exact ⟨hsearch hc, hsearch (asc_headD hb)⟩

/-- The points left for a new cursor, once the first block has a point from the seek time on. -/
theorem reset_spec (hc : Asc cache) (hb : Asc blocks.flatten) (hne : ∀ b ∈ blocks, b ≠ [])
    (hstart : ∃ p ∈ blocks.headD [], lo ≤ p.1) :
    (reset cap lo hi cache blocks).Ok ∧ (reset cap lo hi cache blocks).rest =
      (overlay blocks.flatten cache).filter (fun p => lo ≤ p.1) := by
  cases blocks with
  | nil =>
    obtain ⟨p, hp, -⟩ := hstart
    cases hp
  | cons b bs =>
    obtain ⟨h1, h2⟩ := reset_pos cap lo hi hc hb
    obtain ⟨p, hp, hlo⟩ := hstart
    obtain ⟨hasc, hasc', hlt⟩ := asc_append.mp hb
    have hp : p ∈ b := hp
    have hlater : bs.flatten.filter (fun q => lo ≤ q.1) = bs.flatten :=
      filter_ge_eq_self fun q hq => hlo.trans (hlt p hp q hq).le
    refine ⟨⟨hc, hb, (forall_mem_cons.mp hne).2, .inl ?_⟩, ?_⟩
    · obtain ⟨i, hi', rfl⟩ := getElem_of_mem hp
      have := mt (hasc.getElem_lt_iff hi' lo).mpr (not_lt.mpr hlo)
      rw [h2]
      exact lt_of_le_of_lt (not_lt.mp this) hi'
    · rw [rest, tsmRest, cacheRest, h1, h2, filter_overlay hb hc (fun t => lo ≤ t)]
      congr 1
      · show b.drop (below b lo) ++ bs.flatten = _
        rw [hasc.drop_below, flatten_cons, filter_append, hlater]
      · exact hc.drop_below lo

/-- The current block is used up although the key cursor may have more: the cursor never gets there. -/
def Stuck (c : AscendingCursor V) : Prop := c.tsmValues.length ≤ c.tsmPos

/-- The cursor without the blocks it never reads. -/
def detach (c : AscendingCursor V) : AscendingCursor V := { c with keyCursor := [] }

theorem fill_of_stuck (h : c.Stuck) : c.fill = c.copyCache 0 := by
  have hm : c.mergeOne = none := by
    unfold mergeOne
    rw [getElem?_eq_none_iff.mpr h]
  have hcopy : c.copyTSM 0 = ([], c) := by rw [copyTSM, if_neg (not_lt.mpr h)]
  unfold fill
  rw [mergeLoop_of_none hm]
  simp only [length_nil, hcopy]
  split_ifs with hcap
  · rfl
  · have htake : (c.cacheValues.drop c.cachePos).take (c.cap - 0) = [] := by
      rw [show c.cap - 0 = 0 by omega, take_zero]
    simp only [copyCache, htake]
    rfl

theorem next_detach (h : c.Stuck) : c.detach.next = (c.next.1, c.next.2.detach) := by
  have h' : c.detach.Stuck := h
  unfold next
  rw [fill_of_stuck h, fill_of_stuck h']
  rfl

theorem Stuck.next (h : c.Stuck) : c.next.2.Stuck := by
  rw [next_snd, fill_of_stuck h]
  exact h

theorem Stuck.not_repeats (h : c.Stuck) (hc : Calls AscendingCursor.next c c') : ¬ c'.Repeats := by
  have hst : c'.Stuck := hc.invariant (fun _ => Stuck.next) h
  exact fun hb => absurd hb.1.2.2.1 (not_lt.mpr hst)

theorem Stuck.yields (h : c.Stuck) (hc : Asc c.cacheValues) (ht : Asc c.tsmValues) (hcap : 0 < c.cap) :
    Yields AscendingCursor.next c (c.cacheRest.filter (fun p => p.1 ≤ c.stop)) := by
  rw [← yields_map (fun _ => Stuck.next) (fun _ => next_detach) h]
  have hok : c.detach.Ok := ⟨hc, by simpa [detach] using ht, forall_mem_nil _, .inr rfl⟩
  have hrest : c.detach.rest = c.cacheRest := by
    have htsm : c.detach.tsmRest = [] := by
      rw [tsmRest, detach, drop_of_length_le h]
      rfl
    rw [rest, htsm, overlay_nil_left]
    rfl
  have hex := (exact_iff hok hcap).mpr fun _ => Stuck.not_repeats (c := c.detach) h
  rw [Exact, hrest] at hex
  exact hex

/-- **A new ascending cursor** returns the merge of blocks and cache in the window exactly if and only if
the first block has a point in or after the window or no block has a point in the window that the
cache lacks, and no call repeats points. -/
theorem yields_reset_iff (hc : Asc cache) (hb : Asc blocks.flatten) (hne : ∀ b ∈ blocks, b ≠ []) (hcap : 0 < cap) :
    Yields next (reset cap lo hi cache blocks)
        ((overlay blocks.flatten cache).filter (fun p => lo ≤ p.1 ∧ p.1 ≤ hi)) ↔ ((∃ p ∈ blocks.headD [], lo ≤ p.1) ∨
        ∀ p ∈ blocks.flatten, lo ≤ p.1 → p.1 ≤ hi → ∃ q ∈ cache, q.1 = p.1) ∧
      ∀ c, Calls next (reset cap lo hi cache blocks) c → ¬ c.Repeats := by
  by_cases hstart : ∃ p ∈ blocks.headD [], lo ≤ p.1
  · obtain ⟨hok, hrest⟩ := reset_spec cap lo hi hc hb hne hstart
    rw [filter_window, filter_comm, ← hrest, and_iff_right (.inl hstart)]
    exact exact_iff hok hcap
  · -- the first block is before the window, so the cursor is stuck
    obtain ⟨h1, h2⟩ := reset_pos cap lo hi hc hb
    have hstuck : (reset cap lo hi cache blocks).Stuck := by
      show (blocks.headD []).length ≤ _
      rw [h2, below, countP_eq_length.mpr]
      intro p hp
      by_contra hlt
      exact hstart ⟨p, hp, by simpa using hlt⟩
    have hy : Yields next (reset cap lo hi cache blocks) (cache.filter (fun p => lo ≤ p.1 ∧ p.1 ≤ hi)) := by
      rw [filter_window, filter_comm, ← hc.drop_below, ← h1]
      exact hstuck.yields hc (asc_headD hb) hcap
    rw [and_iff_left fun _ => hstuck.not_repeats, or_iff_right hstart]
    exact yields_overlay_iff Function.injective_id hb hc hy

end Reset

end AscendingCursor

end Influxdb.Tsm1
