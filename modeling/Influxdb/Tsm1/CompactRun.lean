import Mathlib.Data.List.Flatten
import Influxdb.Tsm1.CompactInput

/-!
# CompactRun — a whole compaction keeps the contents

The state of the iterator between two calls of `Next` is described by the blocks written so far, those
already read by the compactor and those still queued.  For a key that is still pending nothing is
written, for every other key but the current one its full contents are, and for the current key its
contents up to a watermark (`RunInv`).  `Next` keeps this and says when it is finished (`next_spec`);
hence the compactor's loop ends and has written the contents of all files (`readAll_spec`).
-/

namespace Influxdb.Tsm1

open List Cursors Timed BatchKeyIterator

variable {Buf V : Type*} {key : Key} {fuel : ℕ} {ty : BlockType} {new : List (Block Buf)} {L : List (Block Buf)}

/-! ## The blocks of a key -/

section KeyContents

variable {C : BlockCodec Buf V} {typeOf : Key → BlockType} {r : TSMReader Buf}
  {readers : List (TSMReader Buf)} {key : Key}

theorem blockOf_fresh {ki : KeyIndex Buf} {e : IndexEntry Buf} (he : e.Sound C ki.typ) :
    (blockOf r ki e).Fresh C ki.typ ki.key where
  key_eq := rfl
  decode_eq := he.decode_eq
  ne_nil := he.ne_nil
  asc := he.asc
  minTime_eq := he.minTime_eq
  maxTime_eq := he.maxTime_eq
  readMin_eq := rfl
  readMax_eq := rfl
  minInt64_le := he.minInt64_le
  le_maxInt64 := he.le_maxInt64

theorem fileBlocks_fresh (h : r.Sound C typeOf) : ∀ b ∈ fileBlocks r key, b.Fresh C (typeOf key) key := by
  intro b hb
  obtain ⟨ki, hki, hb⟩ := mem_flatMap.mp hb
  obtain ⟨e, he, rfl⟩ := mem_map.mp hb
  obtain ⟨hmem, hkey⟩ := mem_filter.mp hki
  obtain rfl := of_decide_eq_true hkey
  rw [← h.typ_eq ki hmem]
  exact blockOf_fresh (h.entries_sound ki hmem e he)

theorem valueAt_livePoints (h : r.Sound C typeOf) (t : Int) :
    valueAt (r.livePoints C key) t = lastLive C (typeOf key) (fileBlocks r key) t := by
  unfold TSMReader.livePoints lastLive fileBlocks
  rcases filter_key_of_asc h.keys_asc key with hf | ⟨ki, hki, hkey, hf⟩
  · rw [hf]; rfl
  · have htyp := h.typ_eq ki hki
    rw [hkey] at htyp
    simp only [hf, flatMap_cons, flatMap_nil, append_nil]
    rw [(entries_live_spec (h.entries_sound ki hki) (h.entries_ordered ki hki)).2 t, keyBlocks, map_map]
    refine congrArg (lastOf · t) (map_congr_left fun e _ => ?_)
    simp only [Function.comp_apply, Block.live, blockOf, hkey, htyp]

theorem lastLive_flatMap (h : ∀ r ∈ readers, r.Sound C typeOf) (t : Int) :
    lastLive C (typeOf key) (readers.flatMap (fileBlocks · key)) t = lastWins C readers key t := by
  induction readers with
  | nil => rfl
  | cons r readers ih =>
    have ih := ih (forall_mem_cons.mp h).2
    unfold lastLive lastWins at ih ⊢
    rw [flatMap_cons, map_append, lastOf_append, ih, map_cons, lastOf_cons, valueAt_livePoints (h r mem_cons_self)]
    rfl

theorem less_asymm (a b : Block Buf) (h : Block.less a b = true) : Block.less b a = false := by
  unfold Block.less at h ⊢
  by_cases hk : a.key = b.key
  · simp only [hk, if_true, Bool.and_eq_true, decide_eq_true_eq, Bool.and_eq_false_iff, decide_eq_false_iff_not] at h ⊢
    omega
  · rw [if_neg hk, decide_eq_true_eq] at h
    rw [if_neg (Ne.symm hk), decide_eq_false_iff_not]
    exact h.asymm

theorem lastLive_insertionSort (h : ∀ b ∈ L, b.Fresh C ty key)
    (t : Int) : lastLive C ty (insertionSort Block.less L) t = lastLive C ty L t := by
  refine (insertionSort_induction (P := fun l => (∀ b ∈ l, b.Fresh C ty key) ∧
    lastLive C ty l t = lastLive C ty L t) ?_ ⟨h, rfl⟩).2
  rintro as x y bs hyx ⟨hfresh, hlast⟩
  have hx := hfresh x (by simp)
  have hy := hfresh y (by simp)
  have hlt : y.maxTime < x.minTime := by
    rw [Block.less, if_pos (hy.key_eq.trans hx.key_eq.symm)] at hyx
    simp only [Bool.and_eq_true, decide_eq_true_eq] at hyx
    exact hyx.2
  refine ⟨fun b hb => hfresh b (by simp only [mem_append, mem_cons] at hb ⊢; tauto), ?_⟩
  rw [← hlast]
  unfold lastLive
  simp only [map_append, map_cons]
  refine lastOf_swap _ _ ?_
  rcases lt_or_ge t x.minTime with ht | ht
  · exact .inr (hx.valueAt_live_eq_none (.inl ht))
  · exact .inl (hy.valueAt_live_eq_none (.inr (by omega)))

theorem keyBlocks_insertionSort (h : ∀ b ∈ L, b.Fresh C ty key) : KeyBlocks C ty key (insertionSort Block.less L) where
  fresh b hb := h b (mem_insertionSort.mp hb)
  chain := by
    refine (isChain_insertionSort less_asymm L).imp_of_mem_imp fun a b ha hb hab => ?_
    have ha := h a (mem_insertionSort.mp ha)
    have hb := h b (mem_insertionSort.mp hb)
    exact (notAfter_iff (ha.key_eq.trans hb.key_eq.symm) hb.le).mp hab

theorem insertionSort_marked {L left : List (Block Buf)} {W : Int} {acc : ValueArray V}
    (hL : KeyBlocks C ty key L) (hp : Progress C ty L left W acc) :
    insertionSort Block.less (left.map (Block.marked C ty W)) = left.map (Block.marked C ty W) := by
  refine insertionSort_of_isChain ?_
  rw [isChain_map]
  refine (hp.chain hL).imp_of_mem_imp fun a b ha hb hab => ?_
  have ha := hp.fresh hL a ha
  have hb := hp.fresh hL b hb
  rw [NotAfter, show Block.less _ _ = Block.less b a by simp [Block.less]]
  exact (notAfter_iff (ha.key_eq.trans hb.key_eq.symm) hb.le).mpr hab

end KeyContents

/-! ## The invariant of a run -/

section Invariant

variable (C : BlockCodec Buf V) (typeOf : Key → BlockType) (readers : List (TSMReader Buf))

def written (out : List (Block Buf)) (key : Key) : ValueArray V :=
  outPoints C (typeOf key) (out.filter (fun b => b.key = key))

/-- All contents of the key are written. -/
def Complete (out : List (Block Buf)) (key : Key) : Prop :=
  Covers (written C typeOf out key) (lastWins C readers key) (fun _ => True)

/-- Fuel for every loop over the blocks of one key. -/
structure EnoughFuel (fuel : ℕ) : Prop where
  entries_le : ∀ r ∈ readers, ∀ ki ∈ r.index, ki.entries.length ≤ fuel
  blocks_lt : ∀ key, 2 * (readers.flatMap (fileBlocks · key)).length < fuel

/-- Nothing of the current key is left. -/
structure Idle (k : BatchKeyIterator Buf V) (out : List (Block Buf)) : Prop where
  blocks_eq : k.blocks = []
  values_eq : k.mergedValues k.typ = []
  complete : Complete C typeOf readers out k.key

/-- The current key is written up to a watermark. -/
structure Active (k : BatchKeyIterator Buf V) (out : List (Block Buf)) : Prop where
  typ_known : k.typ ∈ BlockType.known
  typ_eq : k.typ = typeOf k.key
  key_le : ∀ b ∈ out, b.key ≤ k.key
  progress : ∃ L left W, KeyBlocks C k.typ k.key L ∧ L.length ≤ (readers.flatMap (fileBlocks · k.key)).length ∧
    (∀ t, lastLive C k.typ L t = lastWins C readers k.key t) ∧
    insertionSort Block.less k.blocks = left.map (Block.marked C k.typ W) ∧
    Progress C k.typ L left W (written C typeOf out k.key ++ k.mergedValues k.typ)

/-- The state of the iterator when the blocks `out` have been written. -/
structure RunInv (slots : List (Slot Buf)) (k : BatchKeyIterator Buf V) (out : List (Block Buf)) : Prop where
  codec_eq : k.codec = C
  size_pos : 0 < k.size
  errs_eq : k.log.errs = []
  readers_eq : slots.map Slot.reader = readers
  inputs_at : Forall₂ InputAt slots k.inputs
  separated : Separated slots
  key_lt : ∀ key, Pending slots key → k.key < key
  pending_lt : ∀ key, Pending slots key → ∀ b ∈ out, b.key < key
  sorted : out.Pairwise (fun a b => a.key ≤ b.key)
  sound : ∀ b ∈ out, b.Sound C (typeOf b.key) b.key
  finished : ∀ key, ¬ Pending slots key → key ≠ k.key → Complete C typeOf readers out key
  others_eq : ∀ ty, ty ≠ k.typ → k.mergedValues ty = []

/-- The state of the current key between two calls of `Next`. -/
def Current (k : BatchKeyIterator Buf V) (out : List (Block Buf)) : Prop :=
  Idle C typeOf readers k out ∨ Active C typeOf readers k out

variable (slots : List (Slot Buf)) (out : List (Block Buf)) (k : BatchKeyIterator Buf V)

/-- The current key has a block to return. -/
def Found : Prop :=
  k.merged ≠ [] ∧ RunInv C typeOf readers slots k (out ++ k.merged) ∧ Current C typeOf readers k (out ++ k.merged)

/-- The current key is complete. -/
def Exhausted : Prop :=
  k.merged = [] ∧ RunInv C typeOf readers slots k out ∧ Idle C typeOf readers k out

end Invariant

variable {C : BlockCodec Buf V} {typeOf : Key → BlockType} {readers : List (TSMReader Buf)}
  {slots : List (Slot Buf)} {k : BatchKeyIterator Buf V} {out : List (Block Buf)}

section Steps

theorem written_append (a b : List (Block Buf)) (key : Key) :
    written C typeOf (a ++ b) key = written C typeOf a key ++ written C typeOf b key := by
  simp [written]

theorem written_of_forall (h : ∀ b ∈ new, b.key = key) : written C typeOf new key = outPoints C (typeOf key) new := by
  rw [written, filter_eq_self.mpr fun b hb => by simpa using h b hb]

theorem written_of_forall_ne (h : ∀ b ∈ new, b.key ≠ key) : written C typeOf new key = [] := by
  rw [written, filter_eq_nil_iff.mpr fun b hb => by simpa using h b hb, outPoints_nil]

theorem RunInv.setMerged (h : RunInv C typeOf readers slots k out) (m : List (Block Buf)) :
    RunInv C typeOf readers slots { k with merged := m } out :=
  { h with }

theorem Idle.setMerged (h : Idle C typeOf readers k out) (m : List (Block Buf)) :
    Idle C typeOf readers { k with merged := m } out := { h with }

theorem Active.setMerged (h : Active C typeOf readers k out) (m : List (Block Buf)) :
    Active C typeOf readers { k with merged := m } out := { h with }

theorem Progress.complete {W : Int} {acc : ValueArray V} (hL : KeyBlocks C ty key L) (hp : Progress C ty L [] W acc) :
    Covers acc (lastLive C ty L) (fun _ => True) := by
  obtain ⟨done, hd, hdW⟩ := hp.split
  rw [append_nil] at hd
  subst hd
  refine hp.covers.grow (fun _ _ => trivial) fun t _ ht => ?_
  refine lastLive_eq_none fun b hb => (hL.fresh b hb).valueAt_live_eq_none (.inr ?_)
  have := hdW b hb
  omega

theorem Active.idle (h : Active C typeOf readers k out) (hb : k.blocks = [])
    (hv : k.mergedValues k.typ = []) : Idle C typeOf readers k out := by
  obtain ⟨L, left, W, h1, -, h3, h4, h5⟩ := h.progress
  refine ⟨hb, hv, ?_⟩
  have hleft : left = [] := by
    rw [hb] at h4
    exact map_eq_nil_iff.mp h4.symm
  rw [hleft, hv, append_nil] at h5
  exact (h5.complete h1).congr (fun _ => Iff.rfl) fun t _ => h3 t

theorem hasMergedValues_eq (ho : ∀ ty, ty ≠ k.typ → k.mergedValues ty = [])
    (hty : k.mergedValues k.typ ≠ [] → k.typ ∈ BlockType.known) :
    k.hasMergedValues = decide (k.mergedValues k.typ ≠ []) := by
  rw [Bool.eq_iff_iff, hasMergedValues, any_eq_true, decide_eq_true_eq]
  constructor
  · rintro ⟨ty, -, h⟩
    simp only [ne_eq, decide_eq_true_eq] at h
    by_cases hne : ty = k.typ
    · rwa [hne] at h
    · exact absurd (ho ty hne) h
  · intro h
    exact ⟨k.typ, hty h, by simpa using h⟩

theorem RunInv.write (h : RunInv C typeOf readers slots k out)
    (hle : ∀ b ∈ out, b.key ≤ k.key) (hnew : ∀ b ∈ new, b.Sound C (typeOf k.key) k.key)
    (blocks : List (Block Buf)) (values : ValueArray V) : RunInv C typeOf readers slots { k with
      blocks := blocks
      mergedValues := Function.update k.mergedValues k.typ values
      merged := new } (out ++ new) := by
  have hkey : ∀ b ∈ new, b.key = k.key := fun b hb => (hnew b hb).key_eq
  refine { h with pending_lt := ?_, sorted := ?_, sound := ?_, finished := ?_, others_eq := ?_ }
  · refine fun key hpend => forall_mem_append.mpr ⟨h.pending_lt key hpend, fun b hb => ?_⟩
    rw [hkey b hb]
    exact h.key_lt key hpend
  · refine pairwise_append.mpr ⟨h.sorted, ?_, fun a ha b hb => (hle a ha).trans (hkey b hb).ge⟩
    exact pairwise_of_forall_mem_list fun a ha b hb => ((hkey a ha).trans (hkey b hb).symm).le
  · refine forall_mem_append.mpr ⟨h.sound, fun b hb => ?_⟩
    rw [hkey b hb]
    exact hnew b hb
  · intro key hpend hne
    rw [Complete, written_append, written_of_forall_ne fun b hb => (hkey b hb).trans_ne (Ne.symm hne), append_nil]
    exact h.finished key hpend hne
  · intro ty hty
    exact (Function.update_of_ne hty _ _).trans (h.others_eq ty hty)

theorem Idle.complete_of_not_pending (hi : Idle C typeOf readers k out) (h : RunInv C typeOf readers slots k out)
    (hp : ¬ Pending slots key) : Complete C typeOf readers out key := by
  by_cases hkey : key = k.key
  · rw [hkey]; exact hi.complete
  · exact h.finished key hp hkey

theorem Idle.hasMergedValues_eq (hi : Idle C typeOf readers k out)
    (h : RunInv C typeOf readers slots k out) : k.hasMergedValues = false := by
  rw [Tsm1.hasMergedValues_eq h.others_eq fun hv => absurd hi.values_eq hv, decide_eq_false_iff_not]
  exact not_not.mpr hi.values_eq

variable (hC : C.Exact) (hr : ∀ r ∈ readers, r.Sound C typeOf) (hf : EnoughFuel readers fuel)

include hC hf

section

variable (h : RunInv C typeOf readers slots k out) (ha : Active C typeOf readers k out) (hm : k.merged = [])
  (hne : k.blocks ≠ [] ∨ k.mergedValues k.typ ≠ [])

include h ha hm hne

/-- **A merge** keeps the invariant, with the blocks it writes. -/
theorem merge_spec : ∃ k', k.merge fuel = some k' ∧ RunInv C typeOf readers slots k' (out ++ k'.merged) ∧
      Active C typeOf readers k' (out ++ k'.merged) ∧ (k'.merged = [] → Idle C typeOf readers k' out) := by
  obtain rfl := h.codec_eq
  obtain ⟨L, left, W, hL, hlen, hlast, hsort, hp⟩ := ha.progress
  obtain ⟨s', h1, h2⟩ := mergeTyped_spec (s := ⟨k.blocks, k.mergedValues k.typ, k.merged⟩)
    (show k.env.codec.Exact from hC) ha.typ_known h.size_pos hL k.log hm hne hsort hp
    (show 2 * L.length < fuel by have := hf.blocks_lt k.key; omega)
  obtain ⟨left', W', hblocks, hp'⟩ := h2.progress
  have hkey : ∀ b ∈ s'.merged, b.key = k.key := fun b hb => (h2.sound b hb).key_eq
  have hwr : written k.codec typeOf (out ++ s'.merged) k.key =
      written k.codec typeOf out k.key ++ outPoints k.codec k.typ s'.merged := by
    rw [written_append, written_of_forall hkey, ha.typ_eq]
  obtain ⟨k', hk'⟩ : ∃ k', k' = { k with
      blocks := s'.blocks
      mergedValues := Function.update k.mergedValues k.typ s'.values
      merged := s'.merged } := ⟨_, rfl⟩
  have hval : k'.mergedValues k'.typ = s'.values := by simp [hk']
  have hact : Active k.codec typeOf readers k' (out ++ k'.merged) := by
    refine ⟨by rw [hk']; exact ha.typ_known, by rw [hk']; exact ha.typ_eq, ?_, ?_⟩
    · rw [hk']
      exact forall_mem_append.mpr ⟨ha.key_le, fun b hb => (hkey b hb).le⟩
    · rw [hval, hk']
      refine ⟨L, left', W', hL, hlen, hlast, ?_, by rw [hwr]; exact hp'⟩
      simp only [hblocks]
      exact insertionSort_marked hL hp'
  refine ⟨k', ?_, ?_, hact, ?_⟩
  · rw [BatchKeyIterator.merge, if_pos ha.typ_known, h1, hk']
    rfl
  · rw [hk']
    exact h.write ha.key_le (fun b hb => ha.typ_eq ▸ h2.sound b hb) _ _
  · intro hnil
    have hnil' : s'.merged = [] := by rw [hk'] at hnil; exact hnil
    obtain ⟨h3, h4⟩ := h2.exhausted hnil'
    have := hact.idle (by rw [hk']; exact h3) (by rw [hval]; exact h4)
    rwa [hnil, append_nil] at this

theorem mergePending_spec : ∃ k', (k.mergePending fuel true = some (true, k') ∧ Found C typeOf readers slots out k') ∨
      (k.mergePending fuel true = some (false, k') ∧ Exhausted C typeOf readers slots out k') := by
  obtain ⟨k', h1, h2, h3, h4⟩ := merge_spec hC hf h ha hm hne
  refine ⟨k', ?_⟩
  rw [mergePending, if_pos rfl, h1, Option.map_some]
  by_cases hm' : k'.merged = []
  · have hi := h4 hm'
    rw [hm', append_nil] at h2
    exact .inr ⟨by simp [hm', hi.hasMergedValues_eq h2], hm', h2, hi⟩
  · exact .inl ⟨by simp [hm'], hm', h2, .inr h3⟩

end

theorem nextPending_spec (h : RunInv C typeOf readers slots k (out ++ k.merged.tail))
    (hcur : Current C typeOf readers k (out ++ k.merged.tail)) :
    ∃ k', (k.nextPending fuel = some (true, k') ∧ Found C typeOf readers slots out k') ∨
      (k.nextPending fuel = some (false, k') ∧ Exhausted C typeOf readers slots out k') := by
  have h' := h.setMerged k.merged.tail
  have hcur' : Current C typeOf readers { k with merged := k.merged.tail } (out ++ k.merged.tail) :=
    hcur.imp (·.setMerged _) (·.setMerged _)
  unfold BatchKeyIterator.nextPending
  by_cases hm : k.merged.tail = []
  · generalize hk₁ : ({ k with merged := k.merged.tail } : BatchKeyIterator Buf V) = k₁ at h' hcur'
    have hm₁ : k₁.merged = [] := by rw [← hk₁]; exact hm
    rw [hm, append_nil] at h' hcur'
    rw [if_neg (by simpa using hm₁)]
    rcases hcur' with hi | ha
    · -- nothing is left
      refine ⟨k₁, .inr ⟨?_, hm₁, h', hi⟩⟩
      rw [hi.hasMergedValues_eq h']
      simp [mergePending, hi.blocks_eq]
    · rw [hasMergedValues_eq h'.others_eq fun _ => ha.typ_known]
      by_cases hv : k₁.mergedValues k₁.typ = []
      · by_cases hb : k₁.blocks = []
        · refine ⟨k₁, .inr ⟨?_, hm₁, h', ha.idle hb hv⟩⟩
          simp [mergePending, hb, hv]
        · obtain ⟨k', hk'⟩ := mergePending_spec hC hf h' ha hm₁ (.inl hb)
          refine ⟨k', hk'.imp (fun ⟨e, hx⟩ => ⟨?_, hx⟩) fun ⟨e, hx⟩ => ⟨?_, hx⟩⟩ <;>
          · rw [← e]
            simp [mergePending, hb, hv]
      · obtain ⟨k', ⟨e, hx⟩ | ⟨e, hx⟩⟩ := mergePending_spec hC hf h' ha hm₁ (.inr hv)
        · refine ⟨k', .inl ⟨?_, hx⟩⟩
          simp only [hv, ne_eq, not_false_eq_true, decide_true, e, Option.bind_some, if_true]
        · refine ⟨k', .inr ⟨?_, hx⟩⟩
          simp only [hv, ne_eq, not_false_eq_true, decide_true, e, Option.bind_some]
          simp [mergePending, hx.2.2.blocks_eq]
  · exact ⟨_, .inl ⟨by simp [hm], hm, h', hcur'⟩⟩

omit hC hf
include hr

theorem active_start (hty : k.typ ∈ BlockType.known) (hteq : k.typ = typeOf k.key) (hlt : ∀ b ∈ out, b.key < k.key)
    (hb : k.blocks = readers.flatMap (fileBlocks · k.key)) (hv : k.mergedValues k.typ = []) :
    Active C typeOf readers k out := by
  have hfresh : ∀ b ∈ k.blocks, b.Fresh C k.typ k.key := fun b hbm => by
    rw [hb] at hbm
    obtain ⟨r, hrm, hbr⟩ := mem_flatMap.mp hbm
    rw [hteq]
    exact fileBlocks_fresh (hr r hrm) b hbr
  have hL := keyBlocks_insertionSort hfresh
  refine ⟨hty, hteq, fun b hb => (hlt b hb).le, insertionSort Block.less k.blocks,
    insertionSort Block.less k.blocks, minInt64 - 1, hL, ?_, ?_, ?_, ?_⟩
  · rw [(insertionSort_perm _).length_eq, hb]
  · intro t
    rw [lastLive_insertionSort hfresh, hb, hteq, lastLive_flatMap hr]
  · refine ((map_congr_left fun b hb => ?_).trans (map_id _)).symm
    have := (hL.fresh b hb).minInt64_le
    exact Block.marked_of_lt (by omega)
  · rw [hv, written_of_forall_ne fun b hb => (hlt b hb).ne]
    exact Progress.start hL (by omega)

include hf

/-- The second half of `Next`, up to the merge: all is written, or the blocks of the next key are there. -/
theorem nextKey_spec (hx : Exhausted C typeOf readers slots out k) : ∃ k', k.nextKey fuel = some k' ∧ k'.merged = [] ∧
      ((k'.blocks = [] ∧ k'.log.errs = [] ∧ ∀ key, Complete C typeOf readers out key) ∨
        (k'.blocks ≠ [] ∧ ∃ slots', RunInv C typeOf readers slots' k' out ∧
          Active C typeOf readers k' out ∧ keysLeft slots' < keysLeft slots)) := by
  obtain ⟨hm, h, hi⟩ := hx
  have hsound : ∀ s ∈ slots, s.reader.Sound C typeOf := fun s hs =>
    hr _ (h.readers_eq ▸ mem_map_of_mem hs)
  obtain ⟨inputs', h1, h2⟩ := fillInputs_spec k.log h.inputs_at hsound fun s hs =>
    hf.entries_le _ (h.readers_eq ▸ mem_map_of_mem hs)
  obtain ⟨m, hmk⟩ : ∃ m, m = minKey inputs' ([], .float64) := ⟨_, rfl⟩
  obtain ⟨h3, -, h4⟩ := minKey_spec h2 hsound hmk
  obtain ⟨h5, h6⟩ := takeKey_spec m.1 h2 hsound
  have hcode : k.nextKey fuel = some { k with
      currentTsm := lastRead k.inputs k.currentTsm
      inputs := (takeKey m.1 inputs').2, key := m.1, typ := m.2
      blocks := (takeKey m.1 inputs').1 } := by
    simp [BatchKeyIterator.nextKey, h1, ← hmk, hi.blocks_eq]
  refine ⟨_, hcode, hm, ?_⟩
  by_cases hhead : ∃ s ∈ slots, ∃ ki, s.head? = some ki
  · right
    obtain ⟨s₀, hs₀, ki₀, hki₀⟩ := hhead
    -- the key chosen is the next key of some file
    obtain ⟨s, hs, ki, hki, rfl⟩ : ∃ s ∈ slots, ∃ ki, s.head? = some ki ∧ m = (ki.key, ki.typ) :=
      h3.resolve_left fun hm0 => (h4 s₀ hs₀ ki₀ hki₀).1 (by rw [hm0])
    have hmem := mem_of_getElem? hki
    have hmin : ∀ s' ∈ slots, ∀ kj, s'.head? = some kj → ki.key ≤ kj.key :=
      fun s' hs' kj hkj => (h4 s' hs' kj hkj).2
    have hp : Pending slots ki.key := ⟨s, hs, ki, Slot.head?_mem_drop hki, rfl⟩
    have hb : (takeKey ki.key inputs').1 = readers.flatMap (fileBlocks · ki.key) := by
      rw [h5, ← h.readers_eq, flatMap_map]
      refine flatMap_congr fun s' hs' => ?_
      rw [fileBlocks_eq hs' (hsound s' hs') h.separated hp (hmin s' hs')]
    have hvals : ∀ ty, k.mergedValues ty = [] := fun ty => by
      by_cases hty : ty = k.typ
      · rw [hty]; exact hi.values_eq
      · exact h.others_eq ty hty
    refine ⟨?_, slots.map (Slot.advance ki.key), ?_, ?_, ?_⟩
    · rw [h5]
      intro hnil
      have := flatMap_eq_nil_iff.mp hnil s hs
      rw [if_pos (by simp [hki])] at this
      exact Slot.blocks_ne_nil (hsound s hs) hki this
    · refine ⟨h.codec_eq, h.size_pos, h.errs_eq, ?_, h6, h.separated.advance hsound hmin hp,
        fun key hpend => lt_of_pending_advance hsound hmin hpend, ?_, h.sorted, h.sound, ?_,
        fun ty _ => hvals ty⟩
      · rw [← h.readers_eq, map_map]
        refine map_congr_left fun s' _ => ?_
        simp only [Function.comp_apply, Slot.advance]
        split_ifs <;> rfl
      · exact fun key hpend => h.pending_lt key ((pending_advance hsound hmin).mp hpend).1
      · intro key hpend hne
        exact hi.complete_of_not_pending h fun hpk => hpend ((pending_advance hsound hmin).mpr ⟨hpk, hne⟩)
    · exact active_start hr ((hsound s hs).typ_known ki hmem) ((hsound s hs).typ_eq ki hmem)
        (h.pending_lt ki.key hp) hb (hvals _)
    · exact keysLeft_advance_lt ⟨s, hs, ki, hki, rfl⟩
  · left
    have hnone : ∀ s ∈ slots, s.head? = none := fun s hs =>
      Option.eq_none_iff_forall_ne_some.mpr fun ki hki => hhead ⟨s, hs, ki, hki⟩
    have hpend : ∀ key, ¬ Pending slots key := by
      rintro key ⟨s, hs, ki, hki, -⟩
      rw [Slot.drop_eq_nil (hnone s hs)] at hki
      cases hki
    refine ⟨?_, h.errs_eq, fun key => hi.complete_of_not_pending h (hpend key)⟩
    rw [h5, flatMap_eq_nil_iff]
    intro s hs
    simp [hnone s hs]

include hC

/-- **`Next`** has a block to return, or the files are written completely. -/
theorem next_spec : ∀ retries {slots : List (Slot Buf)} {k : BatchKeyIterator Buf V}, keysLeft slots < retries →
      RunInv C typeOf readers slots k (out ++ k.merged.tail) → Current C typeOf readers k (out ++ k.merged.tail) →
      ∃ k', (k.next fuel retries = some (true, k') ∧ ∃ slots', keysLeft slots' ≤ keysLeft slots ∧
          Found C typeOf readers slots' out k') ∨ (k.next fuel retries = some (false, k') ∧ k'.log.errs = [] ∧
          out.Pairwise (fun a b => a.key ≤ b.key) ∧ (∀ b ∈ out, b.Sound C (typeOf b.key) b.key) ∧
          ∀ key, Complete C typeOf readers out key)
  | 0, slots, k, hlt, _, _ => absurd hlt (Nat.not_lt_zero _)
  | retries + 1, slots, k, hlt, h, hcur => by
    rw [BatchKeyIterator.next]
    obtain ⟨k₁, ⟨e₁, hfound⟩ | ⟨e₁, hx⟩⟩ := nextPending_spec hC hf h hcur
    · exact ⟨k₁, .inl ⟨by simp [e₁], slots, le_rfl, hfound⟩⟩
    obtain ⟨k₂, e₂, hm₂, hcase⟩ := nextKey_spec hr hf hx
    simp only [e₁, Option.bind_some, Bool.false_eq_true, if_false, e₂]
    rcases hcase with ⟨hb, herr, hall⟩ | ⟨hb, slots', h₂, ha₂, hless⟩
    · exact ⟨k₂, .inr ⟨by rw [if_pos hb], herr, hx.2.1.sorted, hx.2.1.sound, hall⟩⟩
    obtain ⟨k₃, e₃, h₃, ha₃, hi₃⟩ := merge_spec hC hf h₂ ha₂ hm₂ (.inl hb)
    simp only [if_neg hb, e₃, Option.bind_some]
    by_cases hm₃ : k₃.merged = []
    · -- the key had no live values: on to the next key
      rw [hm₃, append_nil] at h₃
      have hi := hi₃ hm₃
      have htail : out ++ k₃.merged.tail = out := by rw [hm₃]; simp
      obtain ⟨k', ⟨e', slots'', hle, hf'⟩ | hend⟩ := next_spec retries (show keysLeft slots' < _ by omega)
        (by rw [htail]; exact h₃) (by rw [htail]; exact .inl hi)
      · exact ⟨k', .inl ⟨by rw [if_pos hm₃, e'], slots'', by omega, hf'⟩⟩
      · exact ⟨k', .inr ⟨by rw [if_pos hm₃, hend.1], hend.2⟩⟩
    · exact ⟨k₃, .inl ⟨by rw [if_neg hm₃], slots', hless.le, hm₃, h₃, .inr ha₃⟩⟩

end Steps

/-! ## The number of blocks written -/

/-- The keys and times of all values in the files. -/
def inputTimes (C : BlockCodec Buf V) (readers : List (TSMReader Buf)) : List (Key × Int) :=
  readers.flatMap fun r => r.index.flatMap fun ki =>
    ki.entries.flatMap fun e => (decoded C ki.typ e.b).map fun p => (ki.key, p.1)

theorem mem_inputTimes {t : Int} {v : V} (h : lastWins C readers key t = some v) : (key, t) ∈ inputTimes C readers := by
  obtain ⟨r, hr, hne⟩ : ∃ r ∈ readers, valueAt (r.livePoints C key) t ≠ none := by
    by_contra! hcon
    have hnone : lastWins C readers key t = none := lastOf_eq_none.mpr (forall_mem_map.mpr hcon)
    cases hnone.symm.trans h
  obtain ⟨w, hw⟩ := Option.ne_none_iff_exists'.mp hne
  obtain ⟨ki, hki, hmem⟩ := mem_flatMap.mp (mem_of_valueAt hw)
  obtain ⟨e, he, hp⟩ := mem_flatMap.mp hmem
  obtain ⟨hki, hkey⟩ := mem_filter.mp hki
  simp only [decide_eq_true_eq] at hkey
  refine mem_flatMap.mpr ⟨r, hr, mem_flatMap.mpr ⟨ki, hki, mem_flatMap.mpr ⟨e, he, ?_⟩⟩⟩
  exact mem_map.mpr ⟨(t, w), (mem_filter.mp hp).1, by rw [hkey]⟩

theorem pairwise_of_asc_outPoints : ∀ {bs : List (Block Buf)}, (∀ b ∈ bs, b.Sound C ty key) → Asc (outPoints C ty bs) →
    bs.Pairwise (fun a b => a.maxTime < b.minTime)
  | [], _, _ => Pairwise.nil
  | b :: bs, hs, ha => by
    rw [outPoints_cons] at ha
    obtain ⟨-, h2, h3⟩ := asc_append.mp ha
    have hs' : ∀ c ∈ bs, c.Sound C ty key := (forall_mem_cons.mp hs).2
    refine pairwise_cons.mpr ⟨fun c hc => ?_, pairwise_of_asc_outPoints hs' h2⟩
    obtain ⟨v, hv⟩ := (hs b mem_cons_self).maxTime_mem
    obtain ⟨w, hw⟩ := (hs' c hc).minTime_mem
    exact h3 _ hv _ (mem_flatMap.mpr ⟨c, hc, hw⟩)

theorem pairwise_filter_key (hs : ∀ b ∈ out, b.Sound C (typeOf b.key) b.key) (ha : Asc (written C typeOf out key)) :
    (out.filter (fun b => b.key = key)).Pairwise (fun a b => a.maxTime < b.minTime) := by
  refine pairwise_of_asc_outPoints (fun b hb => (?_ : b.Sound C (typeOf key) key)) ha
  obtain ⟨h1, h2⟩ := mem_filter.mp hb
  obtain rfl := of_decide_eq_true h2
  exact hs b h1

theorem RunInv.written_spec (h : RunInv C typeOf readers slots k out)
    (hcur : Current C typeOf readers k out) (key : Key) :
    Asc (written C typeOf out key) ∧ ∀ t v, valueAt (written C typeOf out key) t = some v →
      lastWins C readers key t = some v := by
  have hcov : ∀ {acc : ValueArray V} {F : Int → Option V} {P : Int → Prop}, Covers acc F P →
      ∀ t v, valueAt acc t = some v → F t = some v := fun hc t v hv =>
    (hc.valueAt_of_mem t (hc.mem_region (mem_of_valueAt hv))).symm.trans hv
  by_cases hp : Pending slots key
  · rw [written_of_forall_ne fun b hb => (h.pending_lt key hp b hb).ne]
    exact ⟨asc_nil, fun t v hv => absurd hv (by simp)⟩
  by_cases hkey : key = k.key
  · subst hkey
    rcases hcur with hi | ha
    · exact ⟨hi.complete.asc, hcov hi.complete⟩
    · obtain ⟨L, left, W, -, -, hlast, -, hprog⟩ := ha.progress
      refine ⟨(asc_append.mp hprog.covers.asc).1, fun t v hv => ?_⟩
      rw [← hlast t]
      exact hcov hprog.covers t v (by rw [valueAt_append, hv]; rfl)
  · have hc := h.finished key hp hkey
    exact ⟨hc.asc, hcov hc⟩

theorem RunInv.length_le (h : RunInv C typeOf readers slots k out) (hcur : Current C typeOf readers k out) :
    out.length ≤ (inputTimes C readers).length := by
  -- the start of a block identifies it
  have hnd : (out.map fun b => (b.key, b.minTime)).Nodup := by
    rw [Nodup, pairwise_map, pairwise_iff_forall_sublist]
    intro a b hsub heq
    obtain ⟨hkey, hmin⟩ := Prod.mk.inj heq
    have hpw := pairwise_filter_key h.sound (h.written_spec hcur a.key).1
    have hfil := hsub.filter (fun c => c.key = a.key)
    have hab : [a, b].filter (fun c => c.key = a.key) = [a, b] := by
      simp [hkey]
    rw [hab] at hfil
    have hlt := pairwise_iff_forall_sublist.mp hpw hfil
    have hle := (h.sound a (hsub.subset (by simp))).le
    omega
  have hsub : (out.map fun b => (b.key, b.minTime)) ⊆ inputTimes C readers := by
    refine forall_mem_map.mpr fun b hb => ?_
    obtain ⟨v, hv⟩ := (h.sound b hb).minTime_mem
    obtain ⟨h1, h2⟩ := h.written_spec hcur b.key
    have hmem : (b.minTime, v) ∈ written C typeOf out b.key :=
      mem_flatMap.mpr ⟨b, mem_filter.mpr ⟨hb, by simp⟩, hv⟩
    exact mem_inputTimes (h2 _ _ (h1.valueAt_of_mem hmem))
  have := (subperm_of_subset hnd hsub).length_le
  rwa [length_map] at this

/-! ## Whole compactions -/

/-- What a compaction of the files must write: keys in ascending order, for each key sound blocks that
follow one another in time, and in them exactly the contents of the files. -/
structure Compacted (C : BlockCodec Buf V) (typeOf : Key → BlockType) (readers : List (TSMReader Buf))
    (out : List (Block Buf)) : Prop where
  sorted : out.Pairwise (fun a b => a.key ≤ b.key)
  sound : ∀ b ∈ out, b.Sound C (typeOf b.key) b.key
  ordered : ∀ key, (out.filter (fun b => b.key = key)).Pairwise (fun a b => a.maxTime < b.minTime)
  asc : ∀ key, Asc (written C typeOf out key)
  contents : ∀ key t, valueAt (written C typeOf out key) t = lastWins C readers key t

theorem readAll_spec (hC : C.Exact) (hr : ∀ r ∈ readers, r.Sound C typeOf)
    (hf : EnoughFuel readers fuel) : ∀ rounds {slots : List (Slot Buf)}
      {k : BatchKeyIterator Buf V} {out : List (Block Buf)}, keysLeft slots < fuel →
      RunInv C typeOf readers slots k (out ++ k.merged.tail) → Current C typeOf readers k (out ++ k.merged.tail) →
      (inputTimes C readers).length < rounds + out.length →
      ∃ out', k.readAll fuel rounds = some (out', []) ∧ Compacted C typeOf readers (out ++ out')
  | 0, slots, k, out, _, h, hcur, hlt => by
    have := h.length_le hcur
    rw [length_append] at this
    omega
  | rounds + 1, slots, k, out, hkeys, h, hcur, hlt => by
    rw [readAll]
    obtain ⟨k', ⟨e, slots', hle, hne, h', hcur'⟩ | ⟨e, herr, hsorted, hsound, hall⟩⟩ :=
      next_spec hC hr hf fuel hkeys h hcur
    · -- a block is returned
      obtain ⟨b, bs, hbs⟩ := exists_cons_of_ne_nil hne
      have htail : out ++ k'.merged = (out ++ [b]) ++ k'.merged.tail := by rw [hbs]; simp
      rw [htail] at h' hcur'
      obtain ⟨out', e', hout⟩ := readAll_spec hC hr hf rounds (hle.trans_lt hkeys) h' hcur'
        (by rw [length_append, length_singleton]; omega)
      refine ⟨b :: out', ?_, by simpa using hout⟩
      simp [e, BatchKeyIterator.read, hbs, e']
    · refine ⟨[], by simp [e, herr], ?_⟩
      rw [append_nil]
      exact ⟨hsorted, hsound, fun key => pairwise_filter_key hsound (hall key).asc,
        fun key => (hall key).asc, fun key t => (hall key).valueAt_of_mem t trivial⟩

theorem runInv_new {size : ℕ} (hsize : 0 < size) (fast : Bool) (maxErrors : ℕ)
    {files : List (String × TSMReader Buf)} (hr : ∀ f ∈ files, f.2.Sound C typeOf) :
    RunInv C typeOf (files.map Prod.snd) (files.map fun f => ⟨f.2, 0⟩)
        (newTSMBatchKeyIterator C size fast maxErrors files) [] ∧
      Idle C typeOf (files.map Prod.snd) (newTSMBatchKeyIterator C size fast maxErrors files) [] := by
  have hcomplete : ∀ key, ¬ Pending (files.map fun f => (⟨f.2, 0⟩ : Slot Buf)) key →
      Complete C typeOf (files.map Prod.snd) [] key := by
    intro key hp
    refine (Covers.nil (P := fun _ => False) fun _ hf => hf).grow (fun _ hf => hf.elim) fun t _ _ => ?_
    refine lastOf_eq_none.mpr (forall_mem_map.mpr (forall_mem_map.mpr fun f hf => ?_))
    have hfil : f.2.index.filter (fun ki => ki.key = key) = [] :=
      filter_eq_nil_iff.mpr fun ki hki hkey => hp
        ⟨⟨f.2, 0⟩, mem_map.mpr ⟨f, hf, rfl⟩, ki, by simpa using hki, by simpa using hkey⟩
    rw [TSMReader.livePoints, hfil]
    rfl
  have hpos : ∀ key, Pending (files.map fun f => (⟨f.2, 0⟩ : Slot Buf)) key → key ≠ [] := by
    rintro key ⟨s, hs, ki, hki, rfl⟩
    obtain ⟨f, hf, rfl⟩ := mem_map.mp hs
    exact (hr f hf).key_ne_nil ki (by simpa using hki)
  refine ⟨⟨rfl, hsize, rfl, by simp, ?_, ?_, ?_, by simp, Pairwise.nil, by simp,
    fun key hp _ => hcomplete key hp, fun _ _ => rfl⟩, rfl, rfl, hcomplete [] fun hp => hpos [] hp rfl⟩
  · simp only [newTSMBatchKeyIterator, forall₂_map_left_iff, forall₂_map_right_iff]
    exact forall₂_same.mpr fun f _ => ⟨rfl, rfl, rfl, by simp, .inl ⟨rfl, rfl⟩⟩
  · exact forall_mem_map.mpr fun f _ ki hki => absurd hki (by simp)
  · intro key hp
    obtain ⟨b, bs, rfl⟩ := exists_cons_of_ne_nil (hpos key hp)
    exact nil_lt_cons b bs

theorem enoughFuel_of_lt (h : 2 * (readers.flatMap fun r => r.index.flatMap (keyBlocks r)).length < fuel) :
    EnoughFuel readers fuel := by
  constructor
  · intro r hr ki hki
    have h1 := ((singleton_sublist.mpr hki).flatMap (keyBlocks r)).length_le
    have h2 := ((singleton_sublist.mpr hr).flatMap fun r => r.index.flatMap (keyBlocks r)).length_le
    simp only [flatMap_cons, flatMap_nil, append_nil, keyBlocks, length_map] at h1 h2
    omega
  · intro key
    have : (readers.flatMap (fileBlocks · key)).length ≤ _ :=
      (Sublist.flatMap_right readers fun r _ => filter_sublist.flatMap (keyBlocks r)).length_le
    omega

/-- **Compaction preserves the contents.**  For every list of sound files with any tombstones, every
positive block size and both strategies, the compactor's loop ends without an error, and what it has
written are the contents of the files: for each key and time the value of the last file that holds one
not tombstoned, once, in sound blocks in ascending order. -/
theorem compaction_preserves_contents (hC : C.Exact) {files : List (String × TSMReader Buf)}
    (hr : ∀ f ∈ files, f.2.Sound C typeOf) {size : ℕ} (hsize : 0 < size) (fast : Bool) (maxErrors : ℕ) :
    ∃ N, ∀ fuel ≥ N, ∃ out,
      (BatchKeyIterator.newTSMBatchKeyIterator C size fast maxErrors files).readAll fuel fuel = some (out, []) ∧
      Compacted C typeOf (files.map Prod.snd) out := by
  obtain ⟨hinv, hidle⟩ := runInv_new hsize fast maxErrors hr
  refine ⟨2 * ((files.map Prod.snd).flatMap fun r => r.index.flatMap (keyBlocks r)).length +
    keysLeft (files.map fun f => (⟨f.2, 0⟩ : Slot Buf)) + (inputTimes C (files.map Prod.snd)).length + 1,
    fun fuel hfuel => ?_⟩
  have hkeys : keysLeft (files.map fun f => (⟨f.2, 0⟩ : Slot Buf)) < fuel := by omega
  have hrounds : (inputTimes C (files.map Prod.snd)).length < fuel + ([] : List (Block Buf)).length := by
    rw [length_nil]; omega
  exact readAll_spec hC (forall_mem_map.mpr hr) (enoughFuel_of_lt (by omega)) fuel hkeys hinv
    (.inl hidle) hrounds

/-! ## Two overlapping files -/

/-- The file of one key with the given blocks and tombstones. -/
def oneKeyFile (key : Key) (blocks : List (List (Int × ℕ))) (tombstones : List TimeRange) :
    TSMReader (List (Int × ℕ)) where
  index := [⟨key, .integer, blocks.map fun b => ⟨ValueArray.minTime b, ValueArray.maxTime b, b⟩⟩]
  tombstoneRange _ := tombstones

theorem oneKeyFile_sound {blocks : List (List (Int × ℕ))} (tombstones : List TimeRange)
    (hkey : key ≠ []) (hne : blocks ≠ [])
    (hb : ∀ b ∈ blocks, b ≠ [] ∧ Asc b ∧ minInt64 ≤ ValueArray.minTime b ∧ ValueArray.maxTime b ≤ maxInt64)
    (ho : blocks.Pairwise fun a b => ValueArray.maxTime a < ValueArray.minTime b) :
    (oneKeyFile key blocks tombstones).Sound (plainCodec ℕ) (fun _ => .integer) where
  keys_asc := pairwise_singleton _ _
  key_ne_nil := by simpa [oneKeyFile] using hkey
  typ_eq := by simp [oneKeyFile]
  typ_known := by simp [oneKeyFile, BlockType.known]
  entries_ne_nil := by simpa [oneKeyFile] using hne
  entries_sound := by
    simp only [oneKeyFile, mem_singleton, forall_eq, mem_map, forall_exists_index, and_imp, forall_apply_eq_imp_iff₂]
    intro b hbm
    obtain ⟨h1, h2, h3, h4⟩ := hb b hbm
    exact ⟨rfl, h1, h2, rfl, rfl, h3, h4⟩
  entries_ordered := by
    simp only [oneKeyFile, mem_singleton, forall_eq, pairwise_map]
    exact ho

/-- Two files with overlapping blocks of one key, the newer one with a tombstone. -/
theorem compaction_preserves_contents_two_files : ∃ N, ∀ fuel ≥ N, ∃ out,
      (BatchKeyIterator.newTSMBatchKeyIterator (plainCodec ℕ) 2 false 10
        [("1", oneKeyFile [1] [[(1, 10), (5, 11)], [(7, 12)]] []),
          ("2", oneKeyFile [1] [[(0, 20), (5, 21), (7, 22)]] [⟨7, 9⟩])]).readAll fuel fuel = some (out, []) ∧
      Compacted (plainCodec ℕ) (fun _ => .integer) [oneKeyFile [1] [[(1, 10), (5, 11)], [(7, 12)]] [],
          oneKeyFile [1] [[(0, 20), (5, 21), (7, 22)]] [⟨7, 9⟩]] out :=
  compaction_preserves_contents (plainCodec_exact ℕ)
    (forall_mem_cons.mpr ⟨oneKeyFile_sound _ (by decide) (by decide) (by decide) (by decide),
      forall_mem_singleton.mpr (oneKeyFile_sound _ (by decide) (by decide) (by decide) (by decide))⟩)
    (by decide) false 10

end Influxdb.Tsm1
