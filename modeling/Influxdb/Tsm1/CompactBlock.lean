import Influxdb.Tsm1.Compact
import Influxdb.Tsm1.File

/-!
# CompactBlock — blocks read up to a watermark

While one key is merged, all its blocks have been read up to the same time `W`, although each block
only records the hull `[readMin, readMax]` of its own values: `marked W b` is the block `b` in that
state.  The window of the dedup loop (`adjustWindow`) ends at the end of some unread block and starts
no later than any of them, and a pass of `readWindow` over it moves the watermark to its end.
-/

namespace Influxdb.Tsm1

open List Cursors Timed ValueArray MergeEnv Block

variable {Buf V : Type*} {m : Int} {b : Block Buf} {bs : List (Block Buf)} {v values : ValueArray V} {w : Int × Int}

/-! ## Sound blocks -/

/-- The values of a block, decoded at the type `ty`. -/
def Block.points (C : BlockCodec Buf V) (ty : BlockType) (b : Block Buf) : ValueArray V :=
  decoded C ty b.b

/-- The values of a block that are not tombstoned. -/
def Block.live (C : BlockCodec Buf V) (ty : BlockType) (b : Block Buf) : ValueArray V :=
  liveOf C ty b.tombstones b.b

/-- A block of the key, with ascending values and exact time range. -/
structure Block.Sound (C : BlockCodec Buf V) (ty : BlockType) (key : Key) (b : Block Buf) : Prop where
  key_eq : b.key = key
  decode_eq : C.decode ty b.b = .ok (b.points C ty)
  ne_nil : b.points C ty ≠ []
  asc : Asc (b.points C ty)
  minTime_eq : b.minTime = (b.points C ty).minTime
  maxTime_eq : b.maxTime = (b.points C ty).maxTime

/-- A sound block as it comes from a file: nothing of it is read, and its times are `int64`s. -/
structure Block.Fresh (C : BlockCodec Buf V) (ty : BlockType) (key : Key) (b : Block Buf) : Prop
    extends Block.Sound C ty key b where
  readMin_eq : b.readMin = maxInt64
  readMax_eq : b.readMax = minInt64
  minInt64_le : minInt64 ≤ b.minTime
  le_maxInt64 : b.maxTime ≤ maxInt64

namespace Block

variable {C : BlockCodec Buf V} {ty : BlockType} {key : Key} {b : Block Buf} {W M t : Int}

section

variable (h : b.Sound C ty key)
include h

theorem Sound.le : b.minTime ≤ b.maxTime := by
  rw [h.minTime_eq, h.maxTime_eq]
  exact minTime_le_maxTime h.asc h.ne_nil

theorem Sound.mem_range {p : Int × V} (hp : p ∈ b.points C ty) : b.minTime ≤ p.1 ∧ p.1 ≤ b.maxTime := by
  rw [h.minTime_eq, h.maxTime_eq]
  exact ⟨minTime_le h.asc hp, le_maxTime h.asc hp⟩

theorem Sound.minTime_mem : ∃ v, (b.minTime, v) ∈ b.points C ty := by
  rw [h.minTime_eq]
  exact ValueArray.minTime_mem h.ne_nil

theorem Sound.maxTime_mem : ∃ v, (b.maxTime, v) ∈ b.points C ty := by
  rw [h.maxTime_eq]
  exact ValueArray.maxTime_mem h.ne_nil

theorem Sound.asc_live : Asc (b.live C ty) := h.asc.filter _

theorem Sound.mem_range_of_live {p : Int × V} (hp : p ∈ b.live C ty) :
    b.minTime ≤ p.1 ∧ p.1 ≤ b.maxTime := h.mem_range (mem_filter.mp hp).1

theorem Sound.valueAt_live_eq_none (ht : t < b.minTime ∨ b.maxTime < t) : valueAt (b.live C ty) t = none := by
  refine valueAt_eq_none.mpr fun p hp hpt => ?_
  obtain ⟨h1, h2⟩ := h.mem_range_of_live hp
  omega

end

/-! ## The watermark -/

/-- The block `b` after all values up to time `W` were read. -/
def marked (C : BlockCodec Buf V) (ty : BlockType) (W : Int) (b : Block Buf) : Block Buf :=
  if b.minTime ≤ W then
    { b with
      readMin := b.minTime
      readMax := ValueArray.maxTime ((b.points C ty).filter (fun p => p.1 ≤ W)) }
  else b

@[simp] theorem marked_key : (marked C ty W b).key = b.key := by unfold marked; split_ifs <;> rfl

@[simp] theorem marked_minTime : (marked C ty W b).minTime = b.minTime := by
  unfold marked; split_ifs <;> rfl

@[simp] theorem marked_maxTime : (marked C ty W b).maxTime = b.maxTime := by
  unfold marked; split_ifs <;> rfl

@[simp] theorem marked_b : (marked C ty W b).b = b.b := by unfold marked; split_ifs <;> rfl

@[simp] theorem marked_tombstones : (marked C ty W b).tombstones = b.tombstones := by
  unfold marked; split_ifs <;> rfl

theorem marked_of_lt (h : W < b.minTime) : marked C ty W b = b := if_neg (by omega)

theorem marked_of_le (h : b.minTime ≤ W) : marked C ty W b = { b with
      readMin := b.minTime
      readMax := ValueArray.maxTime ((b.points C ty).filter (fun p => p.1 ≤ W)) } := if_pos h

theorem Sound.filter_le_ne_nil (h : b.Sound C ty key) (hW : b.minTime ≤ W) :
    (b.points C ty).filter (fun p => p.1 ≤ W) ≠ [] := by
  obtain ⟨v, hv⟩ := h.minTime_mem
  exact ne_nil_of_mem (mem_filter.mpr ⟨hv, by simpa using hW⟩)

/-- The last value up to `W` is at or before `W`, and every value up to `W` is at or before it. -/
theorem Sound.readMax_spec (h : b.Sound C ty key) (hW : b.minTime ≤ W) :
    ValueArray.maxTime ((b.points C ty).filter (fun p => p.1 ≤ W)) ≤ W ∧ ∀ p ∈ b.points C ty, p.1 ≤ W →
        p.1 ≤ ValueArray.maxTime ((b.points C ty).filter (fun p => p.1 ≤ W)) := by
  constructor
  · obtain ⟨v, hv⟩ := ValueArray.maxTime_mem (h.filter_le_ne_nil hW)
    simpa using (mem_filter.mp hv).2
  · intro p hp hpW
    exact le_maxTime (h.asc.filter _) (mem_filter.mpr ⟨hp, by simpa using hpW⟩)

theorem Fresh.read_marked (h : b.Fresh C ty key) (W : Int) : (marked C ty W b).read = decide (b.maxTime ≤ W) := by
  have hle := h.le
  rcases lt_or_ge W b.minTime with hW | hW
  · have h1 := h.minInt64_le
    have h2 := h.le_maxInt64
    rw [marked_of_lt hW, read, h.readMin_eq, h.readMax_eq]
    have hlt : minInt64 < maxInt64 := by decide
    rw [Bool.eq_iff_iff, Bool.and_eq_true, decide_eq_true_eq, decide_eq_true_eq, decide_eq_true_eq]
    omega
  · obtain ⟨h1, h2⟩ := h.readMax_spec hW
    obtain ⟨v, hv⟩ := h.maxTime_mem
    have h3 := h2 _ hv
    rw [marked_of_le hW, read]
    simp only [le_refl, decide_true, Bool.true_and, ge_iff_le, decide_eq_decide]
    omega

theorem Fresh.partiallyRead_marked (h : b.Fresh C ty key) (W : Int) :
    (marked C ty W b).partiallyRead = decide (b.minTime ≤ W ∧ W < b.maxTime) := by
  have hle := h.le
  rcases lt_or_ge W b.minTime with hW | hW
  · rw [marked_of_lt hW, partiallyRead, if_pos ⟨h.readMin_eq, h.readMax_eq⟩]
    simp; omega
  · obtain ⟨h1, h2⟩ := h.readMax_spec hW
    obtain ⟨v, hv⟩ := h.minTime_mem
    obtain ⟨v', hv'⟩ := h.maxTime_mem
    have h3 := h2 _ hv hW
    have h4 := h2 _ hv'
    have h5 : ValueArray.maxTime ((b.points C ty).filter (fun p => p.1 ≤ W)) ≤ b.maxTime := by
      obtain ⟨v, hv⟩ := ValueArray.maxTime_mem (h.filter_le_ne_nil hW)
      exact (h.mem_range (mem_filter.mp hv).1).2
    rw [marked_of_le hW, partiallyRead, if_neg]
    · simp only [ne_eq, not_true_eq_false, decide_false, Bool.false_or, decide_eq_decide]
      omega
    · simp only [not_and]
      intro h6 h7
      have hlt : minInt64 < maxInt64 := by decide
      omega

theorem Fresh.unread_points (h : b.Fresh C ty key) (hm : m ≤ b.minTime) :
    ((b.points C ty).exclude (marked C ty W b).readMin (marked C ty W b).readMax).include m M =
      (b.points C ty).filter (fun p => W < p.1 ∧ p.1 ≤ M) := by
  rw [exclude_eq h.asc, include_eq (h.asc.filter _), filter_filter]
  refine filter_congr fun p hp => ?_
  obtain ⟨h1, h2⟩ := h.mem_range hp
  rw [← Bool.decide_and, decide_eq_decide]
  rcases lt_or_ge W b.minTime with hW | hW
  · rw [marked_of_lt hW, h.readMin_eq, h.readMax_eq]
    have hlt : minInt64 < maxInt64 := by decide
    omega
  · obtain ⟨h3, h4⟩ := h.readMax_spec hW
    have h5 := h4 p hp
    rw [marked_of_le hW]
    simp only
    omega

theorem marked_eq_of_filter_eq_nil (hWM : W ≤ M) (hW : b.minTime ≤ W)
    (hv : (b.points C ty).filter (fun p => W < p.1 ∧ p.1 ≤ M) = []) : marked C ty W b = marked C ty M b := by
  have hf : (b.points C ty).filter (fun p => p.1 ≤ W) =
      (b.points C ty).filter (fun p => p.1 ≤ M) := by
    refine filter_congr fun p hp => ?_
    have := filter_eq_nil_iff.mp hv p hp
    simp only [decide_eq_true_eq] at this
    rw [decide_eq_decide]
    omega
  rw [marked_of_le hW, marked_of_le (hW.trans hWM), hf]

theorem Fresh.markRead_marked (h : b.Fresh C ty key) (hWM : W ≤ M) (hM : b.minTime ≤ M)
    (hv : v = (b.points C ty).filter (fun p => W < p.1 ∧ p.1 ≤ M)) :
    (if v.length > 0 then (marked C ty W b).markRead v.minTime v.maxTime else marked C ty W b) = marked C ty M b := by
  have hasc : Asc v := by rw [hv]; exact h.asc.filter _
  have hmem : ∀ p, p ∈ v ↔ p ∈ b.points C ty ∧ W < p.1 ∧ p.1 ≤ M := by
    intro p; rw [hv]; simp
  by_cases hne : v = []
  · rw [hne, if_neg (by simp)]
    refine marked_eq_of_filter_eq_nil hWM ?_ (hv ▸ hne)
    by_contra hlt
    obtain ⟨x, hx⟩ := h.minTime_mem
    exact absurd (hne ▸ (hmem _).mpr ⟨hx, by omega, hM⟩) not_mem_nil
  · rw [if_pos (length_pos_iff.mpr hne), marked_of_le hM]
    obtain ⟨x, hx⟩ := ValueArray.minTime_mem hne
    obtain ⟨y, hy⟩ := ValueArray.maxTime_mem hne
    obtain ⟨hx1, hx2, -⟩ := (hmem _).mp hx
    obtain ⟨hy1, hy2, hy3⟩ := (hmem _).mp hy
    -- the last value up to `M` is the last value of the window
    have hmax : ValueArray.maxTime ((b.points C ty).filter (fun p => p.1 ≤ M)) = v.maxTime := by
      refine maxTime_eq_of_mem (h.asc.filter _) (mem_filter.mpr ⟨hy1, by simpa using hy3⟩) ?_
      intro p hp
      obtain ⟨hp1, hp2⟩ := mem_filter.mp hp
      have hp3 : p.1 ≤ M := by simpa using hp2
      rcases le_or_gt p.1 W with hpW | hpW
      · exact (hpW.trans_lt hy2).le
      · exact le_maxTime hasc ((hmem p).mpr ⟨hp1, hpW, hp3⟩)
    rw [hmax, markRead]
    have hxr := h.mem_range hx1
    have hyr := h.mem_range hy1
    rcases lt_or_ge W b.minTime with hW | hW
    · have hmin : v.minTime = b.minTime := by
        obtain ⟨z, hz⟩ := h.minTime_mem
        refine minTime_eq_of_mem hasc ((hmem _).mpr ⟨hz, hW, hM⟩) fun p hp => ?_
        exact (h.mem_range ((hmem p).mp hp).1).1
      have h1 := h.minInt64_le
      have h2 := h.le_maxInt64
      have hlo : (if v.minTime < maxInt64 then v.minTime else maxInt64) = b.minTime := by
        split_ifs <;> omega
      have hhi : (if v.maxTime > minInt64 then v.maxTime else minInt64) = v.maxTime := by
        split_ifs <;> omega
      rw [marked_of_lt hW, h.readMin_eq, h.readMax_eq, hlo, hhi]
    · obtain ⟨h3, -⟩ := h.readMax_spec hW
      rw [marked_of_le hW]
      simp only [gt_iff_lt]
      rw [if_neg (by omega), if_pos (by omega)]

end Block

/-! ## The window of the dedup loop -/

section Window

variable {bs : List (Block Buf)} {W : Int}

/-- Of two adjacent blocks the later one does not end before the earlier one starts. -/
def NotBefore (a b : Block Buf) : Prop := a.minTime ≤ b.maxTime

theorem notAfter_iff {a b : Block Buf} (hk : a.key = b.key) (hb : b.minTime ≤ b.maxTime) :
    NotAfter less a b ↔ NotBefore a b := by
  simp only [NotAfter, NotBefore, less, hk, if_true, Bool.and_eq_false_iff, decide_eq_false_iff_not]
  omega

/-- One block of the scan: the start of the window moves before the block if that is unread, and the
end moves at most to the end of an unread block.  An unread block cannot lie before the window because
its neighbour `prev` does not. -/
theorem adjustOne_spec {b prev : Block Buf} (hr : b.read = decide (b.maxTime ≤ W))
    (hpb : NotBefore prev b) (hw : w.1 ≤ w.2) (hp : w.1 ≤ W ∨ w.1 ≤ prev.minTime)
    {w' : Int × Int} (hw' : w' = adjustOne w b) :
    w'.1 ≤ w.1 ∧ w'.1 ≤ w'.2 ∧ (w'.1 ≤ W ∨ w'.1 ≤ b.minTime) ∧ (W < b.maxTime → w'.1 ≤ b.minTime) ∧
      (w'.2 = w.2 ∨ W < b.maxTime ∧ b.maxTime = w'.2) := by
  have hpb' : prev.minTime ≤ b.maxTime := hpb
  by_cases hov : (b.minTime ≤ w.2 ∧ b.maxTime ≥ w.1) ∧ ¬ b.maxTime ≤ W
  · have hone : w' = (if b.minTime < w.1 then b.minTime else w.1,
          if b.maxTime > (if b.minTime < w.1 then b.minTime else w.1) ∧ b.maxTime < w.2
            then b.maxTime else w.2) := by
      rw [hw', adjustOne, if_pos]
      simpa [overlapsTimeRange, hr] using hov
    rw [hone]
    split_ifs <;> omega
  · have hone : w' = w := by
      rw [hw', adjustOne, if_neg]
      simpa [overlapsTimeRange, hr] using hov
    rw [hone]
    omega

theorem adjustWindow_scan : ∀ {bs : List (Block Buf)} {prev : Block Buf} {w w' : Int × Int},
    (∀ b ∈ bs, b.read = decide (b.maxTime ≤ W)) → (prev :: bs).IsChain NotBefore →
    w.1 ≤ w.2 → W < w.2 → (w.1 ≤ W ∨ w.1 ≤ prev.minTime) → w' = adjustWindow bs w →
    w'.1 ≤ w.1 ∧ w'.1 ≤ w'.2 ∧ (∀ b ∈ bs, W < b.maxTime → w'.1 ≤ b.minTime) ∧
    (w'.2 = w.2 ∨ ∃ b ∈ bs, W < b.maxTime ∧ b.maxTime = w'.2)
  | [], prev, w, _, _, _, hw, _, _, rfl => ⟨le_rfl, hw, by simp, .inl rfl⟩
  | b :: bs, prev, w, w', hr, hc, hw, hW, hp, hw' => by
    obtain ⟨hpb, hc'⟩ := isChain_cons_cons.mp hc
    obtain ⟨h1, h2, h3, h4, h5⟩ := adjustOne_spec (hr b mem_cons_self) hpb hw hp rfl
    have hW1 : W < (adjustOne w b).2 := by omega
    obtain ⟨h6, h7, h8, h9⟩ := adjustWindow_scan (forall_mem_cons.mp hr).2 hc'
      h2 hW1 h3 hw'
    refine ⟨h6.trans h1, h7, forall_mem_cons.mpr ⟨fun hcW => h6.trans (h4 hcW), h8⟩, ?_⟩
    rcases h9 with h9 | h9
    · rcases h5 with h5 | ⟨h5, h5'⟩
      · exact .inl (h9.trans h5)
      · exact .inr ⟨b, mem_cons_self, h5, h5'.trans h9.symm⟩
    · exact .inr (exists_mem_cons_of_exists h9)

/-- **The window** started at an unread first block begins at or before every unread block and ends at
the end of one. -/
theorem adjustWindow_spec {first : Block Buf} (hr : ∀ b ∈ first :: bs, b.read = decide (b.maxTime ≤ W))
    (hc : (first :: bs).IsChain NotBefore) (hle : first.minTime ≤ first.maxTime)
    (hu : W < first.maxTime) (hw : w = adjustWindow (first :: bs) (first.minTime, first.maxTime)) :
    w.1 ≤ w.2 ∧ (∀ b ∈ first :: bs, W < b.maxTime → w.1 ≤ b.minTime) ∧
      ∃ b ∈ first :: bs, W < b.maxTime ∧ b.maxTime = w.2 := by
  have hnr : first.read = false := by rw [hr first mem_cons_self, decide_eq_false_iff_not]; omega
  have hself : adjustOne (first.minTime, first.maxTime) first = (first.minTime, first.maxTime) := by
    simp [adjustOne, overlapsTimeRange, hle, hnr]
  rw [adjustWindow, foldl_cons, hself, ← adjustWindow] at hw
  rw [hw]
  obtain ⟨h1, h2, h3, h4⟩ := adjustWindow_scan (w := (first.minTime, first.maxTime))
    (forall_mem_cons.mp hr).2 hc hle hu (.inr le_rfl) rfl
  refine ⟨h2, forall_mem_cons.mpr ⟨fun _ => h1, h3⟩, ?_⟩
  rw [exists_mem_cons_iff]
  exact h4.imp_left fun h4 => ⟨hu, h4.symm⟩

end Window

/-! ## One pass over the window -/

section Pass

variable {C : BlockCodec Buf V} {ty : BlockType} {key : Key} {W M : Int}

/-- A block that `readWindow` skips holds nothing in `(W, M]`, and its record does not change. -/
theorem Block.Fresh.skip (h : b.Fresh C ty key) (hWM : W ≤ M) (hs : b.maxTime ≤ W ∨ M < b.minTime) :
    marked C ty W b = marked C ty M b ∧ (b.live C ty).filter (fun p => W < p.1 ∧ p.1 ≤ M) = [] := by
  have hnone : ∀ p ∈ b.points C ty, ¬ (W < p.1 ∧ p.1 ≤ M) := fun p hp => by
    obtain ⟨h1, h2⟩ := h.mem_range hp
    omega
  constructor
  · rcases hs with hs | hs
    · refine marked_eq_of_filter_eq_nil hWM (h.le.trans hs) ?_
      exact filter_eq_nil_iff.mpr fun p hp => by simpa using hnone p hp
    · rw [marked_of_lt (hWM.trans_lt hs), marked_of_lt hs]
  · refine filter_eq_nil_iff.mpr fun p hp => ?_
    simpa using hnone p (mem_filter.mp hp).1

theorem Block.Fresh.window_values (h : b.Fresh C ty key) (hm : m ≤ b.minTime) : excludeTombstones b.tombstones
        (((b.points C ty).exclude (marked C ty W b).readMin (marked C ty W b).readMax).include m M) =
      (b.live C ty).filter (fun p => W < p.1 ∧ p.1 ≤ M) := by
  rw [h.unread_points hm, excludeTombstones_eq _ (h.asc.filter _), live, liveOf, filter_filter, filter_filter]
  exact filter_congr fun p _ => Bool.and_comm _ _

theorem MergeEnv.readWindow_cons_read (env : MergeEnv Buf V)
    {w : ValueArray V} (ho : b.overlapsTimeRange m M = true) (hr : b.read = false)
    (hd : env.codec.decode env.typ b.b = .ok v) (hmax : v.maxTime = b.maxTime)
    (hw : w = (v.exclude b.readMin b.readMax).include m M) : env.readWindow m (b :: bs) M values =
      ((if w.length > 0 then b.markRead w.minTime w.maxTime else b) ::
          (env.readWindow m bs M (values.merge (excludeTombstones b.tombstones w))).1,
        (env.readWindow m bs M (values.merge (excludeTombstones b.tombstones w))).2) := by
  have hb : { b with maxTime := v.maxTime } = b := by rw [hmax]
  have ht : (if w.length > 0 then b.markRead w.minTime w.maxTime else b).tombstones = b.tombstones := by
    split_ifs <;> rfl
  rw [readWindow, if_neg (by simp [ho, hr])]
  have hM : (if b.maxTime ≠ v.maxTime ∧ M = b.maxTime then v.maxTime else M) = M :=
    if_neg (by simp [hmax])
  simp only [hd]
  rw [hM, hb, ← hw, ht]

/-- **One pass** of the dedup loop over the blocks of a key that were read up to `W`: they are read up
to `M` afterwards, and their live values in between are laid over the merged values in block order. -/
theorem MergeEnv.readWindow_eq (env : MergeEnv Buf V) (hWM : W ≤ M) :
    ∀ {L : List (Block Buf)} {values : ValueArray V}, (∀ b ∈ L, b.Fresh env.codec env.typ key) →
      (∀ b ∈ L, W < b.maxTime → m ≤ b.minTime) → Asc values →
      env.readWindow m (L.map (marked env.codec env.typ W)) M values = (L.map (marked env.codec env.typ M),
          (L.map (fun b => (b.live env.codec env.typ).filter (fun p => W < p.1 ∧ p.1 ≤ M))).foldl overlay values, none)
  | [], values, _, _, _ => rfl
  | b :: L, values, hL, hm, hv => by
    have hb := hL b mem_cons_self
    have hL' : ∀ c ∈ L, c.Fresh env.codec env.typ key := (forall_mem_cons.mp hL).2
    have hm' : ∀ c ∈ L, W < c.maxTime → m ≤ c.minTime := (forall_mem_cons.mp hm).2
    have hle := hb.le
    have hmb := hm b mem_cons_self
    have ho : (marked env.codec env.typ W b).overlapsTimeRange m M = decide (b.minTime ≤ M ∧ m ≤ b.maxTime) := by
      simp [overlapsTimeRange]
    have hr := hb.read_marked W
    rw [map_cons, map_cons, map_cons, foldl_cons]
    by_cases hs : b.maxTime ≤ W ∨ M < b.minTime
    · obtain ⟨h1, h2⟩ := hb.skip hWM hs
      rw [readWindow, if_pos, readWindow_eq env hWM hL' hm' hv, h1, h2, overlay_nil_right]
      rw [ho, hr, Bool.or_eq_true, Bool.not_eq_true', decide_eq_false_iff_not, decide_eq_true_eq]
      omega
    · have hmin : m ≤ b.minTime := hmb (by omega)
      have hw : Asc ((b.live env.codec env.typ).filter (fun p => W < p.1 ∧ p.1 ≤ M)) :=
        hb.asc_live.filter _
      rw [env.readWindow_cons_read (v := b.points env.codec env.typ)
          (by rw [ho, decide_eq_true_eq]; omega) (by rw [hr, decide_eq_false_iff_not]; omega)
          (by rw [marked_b, hb.decode_eq]) (by rw [marked_maxTime, hb.maxTime_eq]) rfl,
        marked_tombstones, hb.window_values hmin, hb.unread_points hmin,
        hb.markRead_marked hWM (by omega) rfl, merge_eq hv hw,
        readWindow_eq env hWM hL' hm' (hv.overlay hw)]

end Pass

end Influxdb.Tsm1
