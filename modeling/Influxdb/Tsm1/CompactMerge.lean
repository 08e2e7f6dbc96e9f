import Influxdb.Lib.Lists
import Influxdb.Tsm1.CompactBlock

/-!
# CompactMerge — merging the blocks of one key

`Progress L left W acc` is the state of a merge: of the sorted blocks `L` of the key those before `left`
are used up, all are read up to `W`, and `acc` (what was written, then what is still buffered) holds
the last-write-wins values up to `W`.  Each loop of `combine` keeps it, with and without deduplication,
and so does a whole `merge`, which moreover writes a block as long as there is anything left
(`mergeTyped_spec`).
-/

namespace Influxdb.Tsm1

open List Cursors Timed ValueArray Block MergeEnv

variable {Buf V : Type*}

/-- The values of the written blocks, one after the other. -/
def outPoints (C : BlockCodec Buf V) (ty : BlockType) (out : List (Block Buf)) : ValueArray V :=
  out.flatMap (Block.points C ty)

/-- The blocks of one key, as the sort leaves them. -/
structure KeyBlocks (C : BlockCodec Buf V) (ty : BlockType) (key : Key) (L : List (Block Buf)) : Prop where
  fresh : ∀ b ∈ L, b.Fresh C ty key
  chain : L.IsChain NotBefore

/-- The last-write-wins map of the live values of the blocks. -/
def lastLive (C : BlockCodec Buf V) (ty : BlockType) (L : List (Block Buf)) : Int → Option V :=
  lastOf (L.map (Block.live C ty))

/-- All blocks of `L` are read up to `W`, those before `left` completely, and `acc` holds their values. -/
structure Progress (C : BlockCodec Buf V) (ty : BlockType) (L left : List (Block Buf)) (W : Int)
    (acc : ValueArray V) : Prop where
  split : ∃ done, L = done ++ left ∧ ∀ b ∈ done, b.maxTime ≤ W
  covers : Covers acc (lastLive C ty L) (· ≤ W)

section Steps

variable {C : BlockCodec Buf V} {ty : BlockType} {key : Key} {L left : List (Block Buf)} {W M : Int}
  {acc : ValueArray V} {b : Block Buf}

@[simp] theorem outPoints_nil : outPoints C ty ([] : List (Block Buf)) = [] := rfl

@[simp] theorem outPoints_append (a b : List (Block Buf)) :
    outPoints C ty (a ++ b) = outPoints C ty a ++ outPoints C ty b := flatMap_append

@[simp] theorem outPoints_cons (b : Block Buf) (bs : List (Block Buf)) :
    outPoints C ty (b :: bs) = b.points C ty ++ outPoints C ty bs := rfl

theorem lastLive_eq_none {t : Int} (h : ∀ b ∈ L, valueAt (b.live C ty) t = none) : lastLive C ty L t = none :=
  lastOf_eq_none.mpr (forall_mem_map.mpr h)

theorem Progress.mem_left (hp : Progress C ty L left W acc) (hb : b ∈ left) : b ∈ L := by
  obtain ⟨done, rfl, -⟩ := hp.split
  exact mem_append_right _ hb

theorem Progress.fresh (hp : Progress C ty L left W acc) (hL : KeyBlocks C ty key L) :
    ∀ b ∈ left, b.Fresh C ty key := fun b hb => hL.fresh b (hp.mem_left hb)

theorem Progress.chain (hp : Progress C ty L left W acc) (hL : KeyBlocks C ty key L) : left.IsChain NotBefore := by
  obtain ⟨done, rfl, -⟩ := hp.split
  exact hL.chain.right_of_append

theorem Progress.start (hL : KeyBlocks C ty key L) (hW : W < minInt64) : Progress C ty L L W [] where
  split := ⟨[], rfl, by simp⟩
  covers := by
    refine (Covers.nil (P := fun _ => False) fun t h => h).grow (fun t h => h.elim) fun t ht _ => ?_
    refine lastLive_eq_none fun b hb => (hL.fresh b hb).valueAt_live_eq_none (.inl ?_)
    exact (lt_of_le_of_lt ht hW).trans_le (hL.fresh b hb).minInt64_le

theorem Progress.drop {pre : List (Block Buf)} (hp : Progress C ty L (pre ++ left) W acc)
    (h : ∀ b ∈ pre, b.maxTime ≤ W) : Progress C ty L left W acc := by
  obtain ⟨done, hd, hdW⟩ := hp.split
  exact ⟨⟨done ++ pre, by rw [hd, append_assoc], forall_mem_append.mpr ⟨hdW, h⟩⟩, hp.covers⟩

theorem Progress.drop_head (hp : Progress C ty L (b :: left) W acc) (h : b.maxTime ≤ W) : Progress C ty L left W acc :=
  Progress.drop (show Progress C ty L ([b] ++ left) W acc from hp) (by simpa using h)

theorem Progress.window (hp : Progress C ty L left W acc) (hL : KeyBlocks C ty key L) (hWM : W ≤ M) :
    Progress C ty L left M ((left.map (fun b => (b.live C ty).filter
      (fun p => W < p.1 ∧ p.1 ≤ M))).foldl overlay acc) := by
  obtain ⟨done, hd, hdW⟩ := hp.split
  refine ⟨⟨done, hd, fun b hb => (hdW b hb).trans hWM⟩, ?_⟩
  have hasc : ∀ l ∈ L.map (live C ty), Asc l := forall_mem_map.mpr fun b hb => (hL.fresh b hb).asc_live
  have hcov := hp.covers.foldl_overlay (fun t => W < t ∧ t ≤ M) hasc
  -- the blocks used up have nothing in the window
  have hdone : (L.map (fun b => (b.live C ty).filter (fun p => W < p.1 ∧ p.1 ≤ M))).foldl
      overlay acc = (left.map (fun b => (b.live C ty).filter (fun p => W < p.1 ∧ p.1 ≤ M))).foldl overlay acc := by
    rw [hd, map_append, foldl_append]
    refine congrArg (List.foldl overlay · _) (foldl_overlay_of_nil (forall_mem_map.mpr fun b hb => ?_) acc)
    have hbL : b ∈ L := by rw [hd]; exact mem_append_left _ hb
    exact ((hL.fresh b hbL).skip hWM (.inl (hdW b hb))).2
  rw [map_map] at hcov
  rw [← hdone]
  refine hcov.congr (fun t => ?_) fun t _ => rfl
  simp only [decide_eq_true_eq]
  omega

theorem Progress.take (hp : Progress C ty L (b :: left) W acc) (hL : KeyBlocks C ty key L)
    (hW : W < b.minTime) (ht : b.tombstones = []) (hlt : ∀ c ∈ left, b.maxTime < c.minTime) :
    Progress C ty L left b.maxTime (acc ++ b.points C ty) := by
  obtain ⟨done, hd, hdW⟩ := hp.split
  have hb := hp.fresh hL b mem_cons_self
  have hle := hb.le
  have hlive : b.live C ty = b.points C ty := by
    rw [live, liveOf, ht]
    exact filter_eq_self.mpr fun p _ => by simp [Live]
  have hlast : ∀ t, W < t → t ≤ b.maxTime → lastLive C ty L t = valueAt (b.points C ty) t := by
    intro t h1 h2
    have hdone : lastLive C ty done t = none := lastLive_eq_none fun c hc => by
      refine (hL.fresh c (hd ▸ mem_append_left _ hc)).valueAt_live_eq_none (.inr ?_)
      exact (hdW c hc).trans_lt h1
    have hleft : lastLive C ty left t = none := lastLive_eq_none fun c hc => by
      refine (hp.fresh hL c (mem_cons_of_mem _ hc)).valueAt_live_eq_none (.inl ?_)
      exact h2.trans_lt (hlt c hc)
    unfold lastLive at hdone hleft ⊢
    rw [hd, map_append, lastOf_append, map_cons, lastOf_cons, hdone, hleft, hlive]
    simp
  refine ⟨⟨done ++ [b], by rw [hd]; simp, forall_mem_append.mpr ⟨fun c hc => ?_, ?_⟩⟩, ?_⟩
  · exact (hdW c hc).trans (by omega)
  · exact forall_mem_singleton.mpr le_rfl
  · have hbcov : Covers (b.points C ty) (lastLive C ty L) (fun t => W < t ∧ t ≤ b.maxTime) := by
      refine ⟨hb.asc, fun t ht => (hlast t ht.1 ht.2).symm, fun t ht => ?_⟩
      refine valueAt_eq_none.mpr fun p hp' hpt => ht ?_
      have := hb.mem_range hp'
      omega
    refine (hp.covers.append hbcov fun s t hs ht => by omega).congr (fun t => ?_) fun t _ => rfl
    omega

end Steps

/-! ## With deduplication -/

section Dedup

variable {env : MergeEnv Buf V} {key : Key} {L left : List (Block Buf)} {W : Int}
  {out values : ValueArray V}

/-- The rounds the dedup loop has left: one for each unread block, and one to see that all are read. -/
def dedupMeasure (s : List (Block Buf) × ValueArray V × Option String) : ℕ :=
  s.1.length + s.1.countP (fun b => !b.read)

theorem countP_unread_lt (h : ∀ b ∈ left, b.Fresh env.codec env.typ key) {M : Int}
    (hb : ∃ b ∈ left, W < b.maxTime ∧ b.maxTime = M) :
    (left.map (marked env.codec env.typ M)).countP (fun b => !b.read) <
      (left.map (marked env.codec env.typ W)).countP (fun b => !b.read) := by
  rw [countP_map, countP_map]
  obtain ⟨b, hbm, hbW, hbM⟩ := hb
  refine countP_lt_of_imp (fun c hc => ?_) ⟨b, hbm, ?_, ?_⟩
  · simp only [Function.comp_apply, (h c hc).read_marked, Bool.not_eq_true', decide_eq_false_iff_not]
    omega
  · simp only [Function.comp_apply, (h b hbm).read_marked, Bool.not_eq_true', decide_eq_false_iff_not]
    omega
  · simp only [Function.comp_apply, (h b hbm).read_marked, Bool.not_eq_false', decide_eq_true_eq]
    omega

theorem dropWhile_read_map (h : ∀ b ∈ left, b.Fresh env.codec env.typ key) :
    ∃ pre post, left = pre ++ post ∧ (∀ b ∈ pre, b.maxTime ≤ W) ∧ (∀ b, post.head? = some b → W < b.maxTime) ∧
      (left.map (marked env.codec env.typ W)).dropWhile read = post.map (marked env.codec env.typ W) := by
  induction left with
  | nil => exact ⟨[], [], rfl, by simp, by simp, rfl⟩
  | cons b left ih =>
    have hb := (h b mem_cons_self).read_marked W
    by_cases hW : b.maxTime ≤ W
    · obtain ⟨pre, post, h1, h2, h3, h4⟩ := ih (forall_mem_cons.mp h).2
      refine ⟨b :: pre, post, by rw [h1]; rfl, ?_, h3, ?_⟩
      · exact forall_mem_cons.mpr ⟨hW, h2⟩
      · rw [map_cons, dropWhile_cons_of_pos (by rw [hb, decide_eq_true_eq]; exact hW), h4]
    · refine ⟨[], b :: left, rfl, by simp, ?_, ?_⟩
      · intro c hc
        obtain rfl : b = c := by simpa using hc
        omega
      · rw [map_cons, dropWhile_cons_of_neg (by rw [hb, decide_eq_true_eq]; exact hW)]

theorem dedupStep_spec (hL : KeyBlocks env.codec env.typ key L)
    (hp : Progress env.codec env.typ L left W (out ++ values)) (hsize : values.length < env.size) (hne : left ≠ []) :
    ∃ left' W' values', env.dedupStep (left.map (marked env.codec env.typ W), values, none) =
        some (left'.map (marked env.codec env.typ W'), values', none) ∧
      Progress env.codec env.typ L left' W' (out ++ values') ∧
      dedupMeasure (left'.map (marked env.codec env.typ W'), values', none) <
        dedupMeasure (left.map (marked env.codec env.typ W), values, none) := by
  obtain ⟨pre, post, rfl, hpre, hhead, hdrop⟩ := dropWhile_read_map (W := W) (hp.fresh hL)
  have hp' := hp.drop hpre
  have hcond : values.length < env.size ∧
      (pre ++ post).map (marked env.codec env.typ W) ≠ [] := ⟨hsize, by simpa using hne⟩
  cases post with
  | nil =>
    refine ⟨[], W, values, ?_, hp', ?_⟩
    · simp only [dedupStep, Option.isSome_none, Bool.false_eq_true, if_pos hcond, hdrop]
      rfl
    · simp only [dedupMeasure, map_nil, length_nil, countP_nil, length_map]
      have := length_pos_iff.mpr hne
      omega
  | cons first rest =>
    have hfresh := hp'.fresh hL
    have hu : W < first.maxTime := hhead first rfl
    have hr : ∀ b ∈ (first :: rest).map (marked env.codec env.typ W),
        b.read = decide (b.maxTime ≤ W) := forall_mem_map.mpr fun c hc => by
      rw [(hfresh c hc).read_marked, marked_maxTime]
    have hc : ((first :: rest).map (marked env.codec env.typ W)).IsChain NotBefore := by
      rw [isChain_map]
      exact (hp'.chain hL).imp fun a b hab => by
        simpa only [NotBefore, marked_minTime, marked_maxTime] using hab
    obtain ⟨w, hw⟩ : ∃ w, w = adjustWindow ((first :: rest).map (marked env.codec env.typ W))
        ((marked env.codec env.typ W first).minTime, (marked env.codec env.typ W first).maxTime) := ⟨_, rfl⟩
    obtain ⟨h1, h2, b, hb, hbW, hbM⟩ := adjustWindow_spec (W := W) hr hc
      (by simpa using (hfresh first mem_cons_self).le) (by simpa using hu) hw
    rw [← map_cons] at hb
    obtain ⟨c, hcm, rfl⟩ := mem_map.mp hb
    rw [marked_maxTime] at hbW hbM
    have hm : ∀ b ∈ first :: rest, W < b.maxTime → w.1 ≤ b.minTime := fun b hb hbW => by
      simpa using h2 _ (mem_map_of_mem hb) (by simpa using hbW)
    have hWM : W ≤ w.2 := by omega
    obtain ⟨-, hvals, -⟩ := asc_append.mp hp'.covers.asc
    have hpass := env.readWindow_eq hWM hfresh hm hvals
    have hwin := hp'.window hL hWM
    rw [foldl_overlay_append_left] at hwin
    · refine ⟨first :: rest, w.2, _, ?_, hwin, ?_⟩
      · simp only [dedupStep, Option.isSome_none, Bool.false_eq_true, if_pos hcond, hdrop, map_cons] at hw ⊢
        rw [← hw]
        exact congrArg some hpass
      · simp only [dedupMeasure]
        have hlt := countP_unread_lt hfresh ⟨c, hcm, hbW, hbM⟩
        simp only [map_append, length_append, countP_append, length_map]
        omega
    · intro p hpm l hl q hq
      obtain ⟨b, -, rfl⟩ := mem_map.mp hl
      have h3 := hp'.covers.mem_region (mem_append_left _ hpm)
      have h4 := (mem_filter.mp hq).2
      simp only [decide_eq_true_eq] at h4
      omega

theorem dedupLoop_spec (hL : KeyBlocks env.codec env.typ key L)
    (hp : Progress env.codec env.typ L left W (out ++ values)) {fuel : ℕ} (hfuel : 2 * left.length < fuel) :
    ∃ left' W' values', Loop.run env.dedupStep fuel (left.map (marked env.codec env.typ W), values, none) =
        some (left'.map (marked env.codec env.typ W'), values', none) ∧
      Progress env.codec env.typ L left' W' (out ++ values') ∧ (left' = [] ∨ env.size ≤ values'.length) := by
  obtain ⟨r, hrun, ⟨left', W', values', rfl, hp'⟩, hdone⟩ := Loop.run_of_measure
    (I := fun s => ∃ left W values, s = (left.map (marked env.codec env.typ W), values, none) ∧
      Progress env.codec env.typ L left W (out ++ values))
    (μ := dedupMeasure) (n := fuel) (fun s s' hI (hs : env.dedupStep s = some s') => by
      obtain ⟨left, W, values, rfl, hp⟩ := hI
      by_cases hcond : values.length < env.size ∧ left ≠ []
      · obtain ⟨left', W', values', h1, h2, h3⟩ := dedupStep_spec hL hp hcond.1 hcond.2
        obtain rfl := Option.some.inj (h1.symm.trans hs)
        exact ⟨⟨left', W', values', rfl, h2⟩, h3⟩
      · simp only [dedupStep, Option.isSome_none, Bool.false_eq_true, if_false, ne_eq, map_eq_nil_iff] at hs
        rw [if_neg hcond] at hs
        exact absurd hs (by simp)) ⟨left, W, values, rfl, hp⟩ (by
      have := countP_le_length (p := fun b : Block Buf => !b.read)
        (l := left.map (marked env.codec env.typ W))
      simp only [dedupMeasure, length_map] at this ⊢
      omega)
  refine ⟨left', W', values', hrun, hp', ?_⟩
  by_contra hcon
  rw [not_or, not_le] at hcon
  obtain ⟨_, _, _, h1, -⟩ := dedupStep_spec hL hp' hcon.2 hcon.1
  exact absurd (h1.symm.trans hdone) (by simp)

end Dedup

/-! ## Writing a chunk -/

section Chunk

variable {env : MergeEnv Buf V}

theorem chunk_spec (hC : env.codec.Exact) (hty : env.typ ∈ BlockType.known) (hsize : 0 < env.size)
    {values : ValueArray V} (hv : Asc values) (dst : List (Block Buf)) :
    ∃ new values', env.chunk values dst = .ok (values', dst ++ new) ∧
      outPoints env.codec env.typ new ++ values' = values ∧ (new = [] → values = []) ∧
      ∀ b ∈ new, b.Sound env.codec env.typ env.key := by
  -- a block written from a non-empty part of the values
  have hnew : ∀ {v : ValueArray V} {cb : Buf}, Asc v → v ≠ [] → env.codec.decode env.typ cb = .ok v →
      ∀ b : Block Buf, b = ⟨env.key, v.minTime, v.maxTime, .float64, cb, [], 0, 0⟩ →
        b.points env.codec env.typ = v ∧ b.Sound env.codec env.typ env.key := by
    rintro v cb hasc hne hd b rfl
    have hpts : points env.codec env.typ
        (⟨env.key, v.minTime, v.maxTime, .float64, cb, [], 0, 0⟩ : Block Buf) = v :=
      by rw [points, decoded, hd]
    refine ⟨hpts, rfl, ?_, ?_, ?_, ?_, ?_⟩ <;> rw [hpts]
    · exact hd
    · exact hne
    · exact hasc
  unfold chunk
  by_cases h1 : values.length > env.size
  · have hne : values.take env.size ≠ [] := by
      intro h
      rcases take_eq_nil_iff.mp h with h | h
      · omega
      · rw [h] at h1; simp at h1
    obtain ⟨cb, he, hd⟩ := hC.decode_encode _ hty _ hne
    obtain ⟨h2, h3⟩ := hnew (hv.take _) hne hd _ rfl
    simp only [if_pos h1, he]
    refine ⟨[_], _, rfl, ?_, by simp, ?_⟩
    · rw [outPoints_cons, outPoints_nil, append_nil, h2, take_append_drop]
    · exact forall_mem_singleton.mpr h3
  · rw [if_neg h1]
    by_cases h4 : values.length > 0
    · have hne := length_pos_iff.mp h4
      obtain ⟨cb, he, hd⟩ := hC.decode_encode _ hty _ hne
      obtain ⟨h2, h3⟩ := hnew hv hne hd _ rfl
      simp only [if_pos h4, he]
      refine ⟨[_], _, rfl, ?_, by simp, ?_⟩
      · rw [outPoints_cons, outPoints_nil, append_nil, h2, append_nil]
      · exact forall_mem_singleton.mpr h3
    · rw [if_neg h4]
      have hnil : values = [] := length_eq_zero_iff.mp (by omega)
      exact ⟨[], values, by simp, by simp, fun _ => hnil, by simp⟩

end Chunk

/-! ## Without deduplication -/

/-- Blocks that follow one another in time, without tombstones, each read completely or not at all. -/
structure InOrder (left : List (Block Buf)) (W : Int) : Prop where
  ordered : left.Pairwise (fun a b => a.maxTime < b.minTime)
  untouched : ∀ b ∈ left, b.tombstones = []
  whole : ∀ b ∈ left, b.maxTime ≤ W ∨ W < b.minTime

section InOrder

variable {C : BlockCodec Buf V} {ty : BlockType} {key : Key} {L left : List (Block Buf)} {W : Int}
  {acc : ValueArray V} {b : Block Buf}

theorem InOrder.tail (h : InOrder (b :: left) W) : InOrder left W where
  ordered := (pairwise_cons.mp h.ordered).2
  untouched c hc := h.untouched c (mem_cons_of_mem _ hc)
  whole c hc := h.whole c (mem_cons_of_mem _ hc)

theorem InOrder.cons (h : InOrder left W) (hlt : ∀ c ∈ left, b.maxTime < c.minTime) (ht : b.tombstones = [])
    (hW : b.maxTime ≤ W ∨ W < b.minTime) : InOrder (b :: left) W where
  ordered := pairwise_cons.mpr ⟨hlt, h.ordered⟩
  untouched := forall_mem_cons.mpr ⟨ht, h.untouched⟩
  whole := forall_mem_cons.mpr ⟨hW, h.whole⟩

theorem InOrder.tail_at (h : InOrder (b :: left) W) : InOrder left b.maxTime where
  ordered := h.tail.ordered
  untouched := h.tail.untouched
  whole c hc := .inr ((pairwise_cons.mp h.ordered).1 c hc)

theorem InOrder.map_marked (h : InOrder (b :: left) W) (hle : b.minTime ≤ b.maxTime)
    (hW : W < b.minTime) : left.map (marked C ty W) = left.map (marked C ty b.maxTime) := by
  refine map_congr_left fun c hc => ?_
  have := (pairwise_cons.mp h.ordered).1 c hc
  rw [marked_of_lt (by omega), marked_of_lt this]

theorem needsDedup_go_spec : ∀ {left : List (Block Buf)} {prev : Block Buf},
    (∀ b ∈ left, b.Fresh C ty key) → (prev :: left).IsChain NotBefore →
    needsDedup.go (prev.marked C ty W) (left.map (marked C ty W)) = false →
    (∀ b ∈ left, prev.maxTime < b.minTime) ∧ InOrder left W
  | [], _, _, _, _ => ⟨by simp, Pairwise.nil, by simp, by simp⟩
  | b :: left, prev, hf, hc, h => by
    have hb := hf b mem_cons_self
    have hle := hb.le
    obtain ⟨hpb, hc'⟩ := isChain_cons_cons.mp hc
    have hpb' : prev.minTime ≤ b.maxTime := hpb
    simp only [map_cons, needsDedup.go, Bool.or_eq_false_iff, hb.partiallyRead_marked,
      overlapsTimeRange, marked_minTime, marked_maxTime, marked_tombstones,
      Bool.and_eq_false_iff, decide_eq_false_iff_not, not_not, ne_eq] at h
    obtain ⟨⟨⟨h1, h2⟩, h3⟩, h4⟩ := h
    have hlt : prev.maxTime < b.minTime := by omega
    obtain ⟨h5, h6⟩ := needsDedup_go_spec (forall_mem_cons.mp hf).2 hc' h4
    refine ⟨forall_mem_cons.mpr ⟨hlt, fun c hc => ?_⟩, h6.cons h5 h3 (by omega)⟩
    have := h5 c hc
    omega

theorem inOrder_of_needsDedup (hf : ∀ b ∈ left, b.Fresh C ty key) (hc : left.IsChain NotBefore)
    (h : needsDedup (left.map (marked C ty W)) = false) : InOrder left W := by
  cases left with
  | nil => exact ⟨Pairwise.nil, by simp, by simp⟩
  | cons b left =>
    have hb := hf b mem_cons_self
    simp only [map_cons, needsDedup, Bool.or_eq_false_iff, hb.partiallyRead_marked,
      marked_tombstones, decide_eq_false_iff_not, not_not, ne_eq] at h
    obtain ⟨⟨h1, h2⟩, h3⟩ := h
    have hle := hb.le
    obtain ⟨h4, h5⟩ := needsDedup_go_spec (forall_mem_cons.mp hf).2 hc h3
    exact h5.cons h4 h1 (by omega)

theorem Progress.takeUnread (hL : KeyBlocks C ty key L) : ∀ {pre post : List (Block Buf)} {W : Int}
    {acc : ValueArray V}, Progress C ty L (pre ++ post) W acc → InOrder (pre ++ post) W →
    ∃ W', Progress C ty L post W' (acc ++ outPoints C ty ((pre.map (marked C ty W)).filter (fun b => !b.read))) ∧
      InOrder post W' ∧ post.map (marked C ty W) = post.map (marked C ty W') ∧
      ∀ b ∈ (pre.map (marked C ty W)).filter (fun b => !b.read), b.Sound C ty key
  | [], post, W, acc, hp, ho => ⟨W, by simpa using hp, ho, rfl, by simp⟩
  | b :: pre, post, W, acc, hp, ho => by
    have hb := hp.fresh hL b mem_cons_self
    have hle := hb.le
    have hr := hb.read_marked W
    rw [map_cons]
    rcases ho.whole b mem_cons_self with hW | hW
    · obtain ⟨W', h1, h2, h3, h4⟩ := Progress.takeUnread hL
        (hp.drop_head hW) ho.tail
      rw [filter_cons_of_neg (by simpa [hr] using hW)]
      exact ⟨W', h1, h2, h3, h4⟩
    · have hlt : ∀ c ∈ pre ++ post, b.maxTime < c.minTime := (pairwise_cons.mp ho.ordered).1
      obtain ⟨W', h1, h2, h3, h4⟩ := Progress.takeUnread hL
        (hp.take hL hW (ho.untouched b mem_cons_self) hlt) ho.tail_at
      have hmap : (pre ++ post).map (marked C ty W) =
          (pre ++ post).map (marked C ty b.maxTime) := ho.map_marked hle hW
      rw [map_append, map_append] at hmap
      obtain ⟨hpre, hpost⟩ := append_inj hmap (by simp)
      rw [filter_cons_of_pos (by simp [hr]; omega), hpre, hpost, marked_of_lt hW]
      refine ⟨W', by simpa [append_assoc] using h1, h2, h3, ?_⟩
      exact forall_mem_cons.mpr ⟨hb.toSound, h4⟩

end InOrder

section Combine

variable {env : MergeEnv Buf V} {key : Key} {L left : List (Block Buf)} {W : Int}
  {out values : ValueArray V}

theorem takeFull_eq : ∀ {bs : List (Block Buf)} (merged : List (Block Buf)) (log : ErrorLog),
    (∀ b ∈ bs, ∃ n, env.codec.blockCount b.b = .ok n) → ∃ pre post, bs = pre ++ post ∧
      env.takeFull bs merged log = (post, merged ++ pre.filter (fun b => !b.read), log)
  | [], merged, log, _ => ⟨[], [], rfl, by simp [takeFull]⟩
  | b :: bs, merged, log, h => by
    obtain ⟨hb, h'⟩ := forall_mem_cons.mp h
    rw [takeFull]
    by_cases hr : b.read = true
    · obtain ⟨pre, post, rfl, h2⟩ := takeFull_eq merged log h'
      rw [if_pos hr, h2]
      exact ⟨b :: pre, post, rfl, by simp [hr]⟩
    · obtain ⟨n, hn⟩ := hb
      rw [if_neg hr, hn]
      by_cases hs : n < env.size
      · simp only [if_pos hs]
        exact ⟨[], b :: bs, rfl, by simp⟩
      · simp only [if_neg hs]
        obtain ⟨pre, post, rfl, h2⟩ := takeFull_eq (merged ++ [b]) log h'
        rw [h2]
        exact ⟨b :: pre, post, rfl, by simp [hr]⟩

theorem takeWhole_eq {bs : List (Block Buf)} (merged : List (Block Buf)) (log : ErrorLog)
    (h : ∀ b ∈ bs, ∃ n, env.codec.blockCount b.b = .ok n) : ∃ pre post, bs = pre ++ post ∧
      env.takeWhole bs merged log = (post, merged ++ pre.filter (fun b => !b.read), log) := by
  obtain ⟨pre, post, rfl, h2⟩ := takeFull_eq merged log h
  unfold takeWhole
  rw [h2]
  by_cases hfast : env.fast = true
  · refine ⟨pre ++ post, [], by simp, ?_⟩
    simp only [if_pos hfast, filter_append, append_assoc]
  · simp only [if_neg hfast]
    match post with
    | [] => exact ⟨pre, [], rfl, rfl⟩
    | [b] =>
      refine ⟨pre ++ [b], [], by simp, ?_⟩
      by_cases hr : b.read = true <;> simp [hr]
    | b :: c :: post => exact ⟨pre, b :: c :: post, rfl, rfl⟩

theorem readBlocks_spec (hL : KeyBlocks env.codec env.typ key L) :
    ∀ {left : List (Block Buf)} {W : Int} {values : ValueArray V},
    Progress env.codec env.typ L left W (out ++ values) → InOrder left W →
    ∃ done left' W' values', env.readBlocks (left.map (marked env.codec env.typ W)) values =
        (done, left'.map (marked env.codec env.typ W'), values', none) ∧
      Progress env.codec env.typ L left' W' (out ++ values') ∧ (left' = [] ∨ env.size ≤ values'.length)
  | [], W, values, hp, _ => ⟨[], [], W, values, rfl, hp, .inl rfl⟩
  | b :: left, W, values, hp, ho => by
    have hb := hp.fresh hL b mem_cons_self
    have hle := hb.le
    have hr := hb.read_marked W
    rw [map_cons, readBlocks]
    by_cases hs : values.length < env.size
    · rw [if_pos hs]
      rcases ho.whole b mem_cons_self with hW | hW
      · obtain ⟨done, left', W', values', h1, h2, h3⟩ := readBlocks_spec hL
          (hp.drop_head hW) ho.tail
        rw [if_pos (by simpa [hr] using hW), h1]
        exact ⟨_, left', W', values', rfl, h2, h3⟩
      · have hlt : ∀ c ∈ left, b.maxTime < c.minTime := (pairwise_cons.mp ho.ordered).1
        have hnt := ho.untouched b mem_cons_self
        have htake := hp.take hL hW hnt hlt
        rw [append_assoc] at htake
        obtain ⟨done, left', W', values', h1, h2, h3⟩ := readBlocks_spec hL htake ho.tail_at
        obtain ⟨-, hvals, -⟩ := asc_append.mp hp.covers.asc
        have hmerge : values.merge (b.points env.codec env.typ) = values ++ b.points env.codec env.typ := by
          rw [merge_eq hvals hb.asc, overlay_of_lt]
          intro p hpv q hq
          have h4 := hp.covers.mem_region (mem_append_right _ hpv)
          have h5 := hb.mem_range hq
          omega
        rw [if_neg (by simp [hr]; omega), ho.map_marked hle hW, marked_of_lt hW, hb.decode_eq]
        simp only [hnt, excludeTombstones, foldl_nil, hmerge, h1]
        exact ⟨_, left', W', values', rfl, h2, h3⟩
    · rw [if_neg hs, ← map_cons]
      exact ⟨[], b :: left, W, values, rfl, hp, .inr (by omega)⟩

/-- What a merge has to leave behind: the written blocks are sound, the watermark has moved over
everything written and buffered, and nothing is written only if nothing is left. -/
structure Merged (env : MergeEnv Buf V) (key : Key) (L : List (Block Buf)) (out : ValueArray V)
    (s : MergeState Buf V) : Prop where
  progress : ∃ left W, s.blocks = left.map (Block.marked env.codec env.typ W) ∧
    Progress env.codec env.typ L left W (out ++ outPoints env.codec env.typ s.merged ++ s.values)
  sound : ∀ b ∈ s.merged, b.Sound env.codec env.typ key
  exhausted : s.merged = [] → s.blocks = [] ∧ s.values = []

variable (hC : env.codec.Exact) (hty : env.typ ∈ BlockType.known) (hsize : 0 < env.size)
include hC hty hsize

theorem finish_spec {merged : List (Block Buf)} (log : ErrorLog) {W : Int}
    (hp : Progress env.codec env.typ L left W (out ++ outPoints env.codec env.typ merged ++ values))
    (hm : ∀ b ∈ merged, b.Sound env.codec env.typ env.key) (hend : left = [] ∨ env.size ≤ values.length) :
    ∃ s, env.finish (left.map (marked env.codec env.typ W)) values merged log = (s, log) ∧
      Merged env env.key L out s := by
  obtain ⟨-, hvals, -⟩ := asc_append.mp hp.covers.asc
  obtain ⟨new, values', h1, h2, h3, h4⟩ := chunk_spec hC hty hsize hvals merged
  unfold finish
  rw [h1]
  refine ⟨_, rfl, ⟨left, W, rfl, ?_⟩, ?_, ?_⟩
  · rw [outPoints_append, ← append_assoc, append_assoc, h2]
    exact hp
  · exact forall_mem_append.mpr ⟨hm, h4⟩
  · intro hnil
    obtain ⟨-, hnew⟩ := append_eq_nil_iff.mp hnil
    have hv := h3 hnew
    refine ⟨?_, ?_⟩
    · rcases hend with rfl | hend
      · rfl
      · rw [hv, length_nil] at hend; omega
    · rw [hv] at h2
      exact (append_eq_nil_iff.mp h2).2

theorem combineInOrder_spec (hL : KeyBlocks env.codec env.typ env.key L) (log : ErrorLog)
    (hp : Progress env.codec env.typ L left W out) (ho : InOrder left W) :
    ∃ s, env.combineInOrder ⟨left.map (marked env.codec env.typ W), [], []⟩ log = (s, log) ∧
      Merged env env.key L out s := by
  have hcount : ∀ b ∈ left.map (marked env.codec env.typ W),
      ∃ n, env.codec.blockCount b.b = .ok n := forall_mem_map.mpr fun c hc => by
    rw [marked_b]
    exact ⟨_, hC.blockCount_eq _ _ _ (hp.fresh hL c hc).decode_eq⟩
  obtain ⟨pre', post', hsplit, hwhole⟩ := takeWhole_eq [] log hcount
  obtain ⟨pre, post, rfl, rfl, rfl⟩ := map_eq_append_iff.mp hsplit
  obtain ⟨W₁, h1, h2, h3, h4⟩ := hp.takeUnread hL ho
  rw [← append_nil (out ++ _)] at h1
  obtain ⟨done, left', W', values', h5, h6, h7⟩ := readBlocks_spec hL h1 h2
  rw [combineInOrder, hwhole]
  dsimp only
  rw [h3, h5]
  exact finish_spec hC hty hsize log h6 h4 h7

/-- **One merge** of the blocks of a key.  The blocks come in any order that the sort takes to the blocks
left of `L`; afterwards they are left of `L` again, further on. -/
theorem mergeTyped_spec (hL : KeyBlocks env.codec env.typ env.key L) (log : ErrorLog) {s : MergeState Buf V}
    (hm : s.merged = []) (hne : s.blocks ≠ [] ∨ s.values ≠ [])
    (hsort : insertionSort less s.blocks = left.map (marked env.codec env.typ W))
    (hp : Progress env.codec env.typ L left W (out ++ s.values)) {fuel : ℕ} (hfuel : 2 * L.length < fuel) :
    ∃ s', env.mergeTyped fuel s log = some (s', log) ∧ Merged env env.key L out s' := by
  have hlen : left.length ≤ L.length := by
    obtain ⟨done, rfl, -⟩ := hp.split
    simp
  unfold mergeTyped
  rw [if_neg (by tauto)]
  simp only [hsort]
  by_cases hd : (s.values ≠ [] || needsDedup (left.map (marked env.codec env.typ W))) = true
  · rw [if_pos (by simpa using hd), combineDedup]
    obtain ⟨left', W', values', h1, h2, h3⟩ := dedupLoop_spec hL hp (show _ < fuel by omega)
    have h2' : Progress env.codec env.typ L left' W'
        (out ++ outPoints env.codec env.typ [] ++ values') := by simpa using h2
    rw [h1]
    obtain ⟨s', h4, h5⟩ := finish_spec hC hty hsize log h2' (by simp) h3
    exact ⟨s', by simp [h4], h5⟩
  · rw [if_neg (by simpa using hd)]
    simp only [Bool.or_eq_true, decide_eq_true_eq, not_or, not_not, Bool.not_eq_true] at hd
    obtain ⟨hv, hnd⟩ := hd
    obtain ⟨blocks, values, merged⟩ := s
    subst hv hm
    rw [append_nil] at hp
    obtain ⟨s', h4, h5⟩ := combineInOrder_spec hC hty hsize hL log hp
      (inOrder_of_needsDedup (hp.fresh hL) (hp.chain hL) hnd)
    exact ⟨s', by rw [h4], h5⟩

end Combine

end Influxdb.Tsm1
