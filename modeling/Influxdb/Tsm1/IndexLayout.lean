import Mathlib.Order.Bounds.Defs
import Influxdb.Tsm1.IndexScan

/-!
# IndexLayout — what an index in memory holds

`KeyRecord.encode` are the bytes of one key of the index, and `layout` says where the keys of an index start.
`Loaded d live` relates an index in memory to the records its table points to, wherever they are in the bytes: a
search finds the position among the keys of `live`, and the entries of a key are those of its record.
`unmarshalBinary_encode` says that loading the bytes of some keys gives an index that holds them.
-/

namespace Influxdb.Tsm1.Disk

open List IndirectIndex

variable {rs : List KeyRecord} {i : ℕ}

/-! ## Records -/

/-- A key of an index with its block type and its entries. -/
structure KeyRecord where
  key : Key
  typ : Byte
  entries : List IndexEntry
deriving DecidableEq

def encodeEntries (es : List IndexEntry) : List Byte := es.flatMap IndexEntry.appendTo

variable (r : KeyRecord)

/-- The bytes of a record behind the key. -/
def KeyRecord.tail : List Byte :=
  r.typ :: (putUint16 (BitVec.ofNat 16 r.entries.length) ++ encodeEntries r.entries)

def KeyRecord.encode : List Byte :=
  putUint16 (BitVec.ofNat 16 r.key.length) ++ (r.key ++ r.tail)

def KeyRecord.minTime : Int := (r.entries.head?.map (·.minTime.toInt)).getD 0

def KeyRecord.maxTime : Int := (r.entries.getLast?.map (·.maxTime.toInt)).getD 0

def encodeIndex (rs : List KeyRecord) : List Byte := rs.flatMap KeyRecord.encode

/-- The records with the positions they start at. -/
def layout : ℕ → List KeyRecord → List (ℕ × KeyRecord)
  | _, [] => []
  | o, r :: rs => (o, r) :: layout (o + r.encode.length) rs

/-- The lengths fit into 16 bits, and there is an entry. -/
structure KeyRecord.Fits (r : KeyRecord) : Prop where
  key_lt : r.key.length < 65536
  count_lt : r.entries.length < 65536
  ne_nil : r.entries ≠ []

@[simp] theorem length_appendTo (e : IndexEntry) : e.appendTo.length = 28 := by
  simp [IndexEntry.appendTo]

@[simp] theorem length_encodeEntries (es : List IndexEntry) : (encodeEntries es).length = 28 * es.length := by
  induction es with
  | nil => rfl
  | cons e es ih =>
    rw [encodeEntries, flatMap_cons, length_append, length_appendTo, ← encodeEntries, ih, length_cons]
    omega

theorem KeyRecord.length_encode : r.encode.length = 5 + r.key.length + 28 * r.entries.length := by
  simp only [KeyRecord.encode, KeyRecord.tail, length_append, length_putUint16, length_cons, length_encodeEntries]
  omega

theorem unmarshalBinary_appendTo (e : IndexEntry) (rest : List Byte) :
    IndexEntry.unmarshalBinary (e.appendTo ++ rest) = .ok e := by
  have h8 : (e.appendTo ++ rest).drop 8 =
      putUint64 e.maxTime ++ (putUint64 e.offset ++ (putUint32 e.size ++ rest)) := by
    simp [IndexEntry.appendTo, drop_left']
  have h16 : (e.appendTo ++ rest).drop 16 = putUint64 e.offset ++ (putUint32 e.size ++ rest) := by
    rw [show 16 = 8 + 8 from rfl, ← drop_drop, h8, drop_left' (length_putUint64 _)]
  have h24 : (e.appendTo ++ rest).drop 24 = putUint32 e.size ++ rest := by
    rw [show 24 = 16 + 8 from rfl, ← drop_drop, h16, drop_left' (length_putUint64 _)]
  have h0 : uint64 (e.appendTo ++ rest) = e.minTime := by
    rw [IndexEntry.appendTo, append_assoc, uint64_putUint64_append]
  rw [IndexEntry.unmarshalBinary, if_neg (by rw [length_append, length_appendTo, indexEntrySize]; omega), h8, h16,
    h24, h0, uint64_putUint64_append, uint64_putUint64_append, uint32_putUint32_append]

theorem readEntriesLoop_encode (rest : List Byte) : ∀ es : List IndexEntry,
    readEntriesLoop es.length (encodeEntries es ++ rest) = .ok es
  | [] => rfl
  | e :: es => by
    rw [encodeEntries, flatMap_cons, append_assoc, length_cons, readEntriesLoop,
      unmarshalBinary_appendTo, indexEntrySize, drop_left' (length_appendTo e), ← encodeEntries]
    rw [readEntriesLoop_encode rest es]
    rfl

namespace KeyRecord

variable {r : KeyRecord} {rest : List Byte}

theorem Fits.uint16_key (h : r.Fits) : (uint16 (r.encode ++ rest)).toNat = r.key.length := by
  rw [encode, append_assoc, uint16_putUint16_append, BitVec.toNat_ofNat]
  exact Nat.mod_eq_of_lt h.key_lt

theorem drop_two : (r.encode ++ rest).drop 2 = r.key ++ (r.tail ++ rest) := by
  rw [encode, append_assoc, drop_left' (length_putUint16 _), append_assoc]

theorem drop_key : (r.encode ++ rest).drop (2 + r.key.length) = r.tail ++ rest := by
  rw [← drop_drop, drop_two, drop_left]

theorem drop_typ : (r.encode ++ rest).drop (3 + r.key.length) =
    putUint16 (BitVec.ofNat 16 r.entries.length) ++ (encodeEntries r.entries ++ rest) := by
  rw [show 3 + r.key.length = 2 + r.key.length + 1 by omega, ← drop_drop, drop_key, tail, cons_append,
    drop_succ_cons, drop_zero, append_assoc]

theorem drop_count : (r.encode ++ rest).drop (5 + r.key.length) = encodeEntries r.entries ++ rest := by
  rw [show 5 + r.key.length = 3 + r.key.length + 2 by omega, ← drop_drop, drop_typ,
    drop_left' (length_putUint16 _)]

theorem Fits.readKey (h : r.Fits) : readKey (r.encode ++ rest) = .ok (2 + r.key.length, r.key) := by
  have hlen := r.length_encode
  rw [Disk.readKey, if_neg (by rw [length_append]; omega)]
  rw [h.uint16_key, if_neg (by rw [length_append]; omega), drop_two, take_left]

theorem Fits.readEntries (h : r.Fits) :
    readEntries (r.tail ++ rest) = .ok (3 + r.entries.length * indexEntrySize, r.typ, r.entries) := by
  have hdrop : (r.tail ++ rest).drop 3 = encodeEntries r.entries ++ rest := by
    rw [tail, cons_append, drop_succ_cons, append_assoc, drop_left' (length_putUint16 _)]
  have hcount : (uint16 ((r.tail ++ rest).drop 1)).toNat = r.entries.length := by
    rw [tail, cons_append, drop_succ_cons, drop_zero, append_assoc, uint16_putUint16_append, BitVec.toNat_ofNat]
    exact Nat.mod_eq_of_lt h.count_lt
  have hhead : (r.tail ++ rest).headD 0 = r.typ := rfl
  rw [Disk.readEntries, if_neg (by simp [tail, indexCountSize])]
  simp only
  rw [hcount, hdrop, readEntriesLoop_encode, hhead]
  rfl

end KeyRecord

/-! ## Records at an offset -/

/-- The bytes of a record start at `o`. -/
def At (b : List Byte) (o : ℕ) (r : KeyRecord) : Prop := ∃ rest, b.drop o = r.encode ++ rest

namespace At

variable {b : List Byte} {o : ℕ} {r : KeyRecord}

theorem le_length (h : At b o r) : o + r.encode.length ≤ b.length := by
  obtain ⟨rest, hrest⟩ := h
  have hlen := congrArg length hrest
  have hpos := r.length_encode
  rw [length_drop, length_append] at hlen
  omega

theorem keyOf {d : IndirectIndex} {ofs : BitVec 32} (h : At d.b ofs.toNat r) (hr : r.Fits) : d.keyOf ofs = r.key := by
  obtain ⟨rest, hrest⟩ := h
  rw [IndirectIndex.keyOf, ← drop_drop, hrest, hr.uint16_key, KeyRecord.drop_two, take_left]

theorem readEntriesAt {d : IndirectIndex} (h : At d.b o r) (hr : r.Fits) :
    d.readEntriesAt o = .ok (r.key, r.entries) := by
  obtain ⟨rest, hrest⟩ := h
  rw [IndirectIndex.readEntriesAt, hrest, hr.readKey]
  simp only [bind, Except.bind]
  rw [← drop_drop, hrest, KeyRecord.drop_key, hr.readEntries]
  rfl

end At

/-! ## Loading -/

section Scan

open IndirectIndex

variable {b : List Byte} {o : ℕ} {r : KeyRecord} {s : IndirectIndex.Scan}

variable (h : At b o r) (hr : r.Fits)

include h hr

theorem At.uint16_key : (uint16 (b.drop o)).toNat = r.key.length := by
  obtain ⟨rest, hrest⟩ := h
  rw [hrest, hr.uint16_key]

theorem At.uint16_count : (uint16 (b.drop (o + (3 + r.key.length)))).toNat = r.entries.length := by
  obtain ⟨rest, hrest⟩ := h
  rw [← drop_drop, hrest, KeyRecord.drop_typ, uint16_putUint16_append, BitVec.toNat_ofNat]
  exact Nat.mod_eq_of_lt hr.count_lt

theorem At.uint64_first : (uint64 (b.drop (o + (5 + r.key.length)))).toInt = r.minTime := by
  obtain ⟨rest, hrest⟩ := h
  obtain ⟨e, es, hes⟩ := exists_cons_of_ne_nil hr.ne_nil
  rw [← drop_drop, hrest, KeyRecord.drop_count, KeyRecord.minTime, hes, head?_cons, Option.map_some,
    Option.getD_some, encodeEntries, flatMap_cons, IndexEntry.appendTo, append_assoc, append_assoc,
    uint64_putUint64_append]

theorem At.uint64_last :
    (uint64 (b.drop (o + (5 + r.key.length + 28 * (r.entries.length - 1)) + 8))).toInt = r.maxTime := by
  obtain ⟨rest, hrest⟩ := h
  obtain ⟨es, e, hes⟩ := (eq_nil_or_concat' r.entries).resolve_left hr.ne_nil
  rw [← drop_drop, ← drop_drop, ← drop_drop, hrest, KeyRecord.drop_count, KeyRecord.maxTime, hes,
    length_append, length_singleton, Nat.add_sub_cancel, getLast?_concat, Option.map_some,
    Option.getD_some, encodeEntries, flatMap_append, append_assoc, ← encodeEntries, drop_left' (length_encodeEntries es),
    flatMap_singleton, IndexEntry.appendTo, append_assoc, drop_left' (length_putUint64 _),
    append_assoc, uint64_putUint64_append]

theorem At.recordEnd : keyLenAt b o = r.key.length ∧ recordEnd b o = o + r.encode.length := by
  have hkey : keyLenAt b o = r.key.length := h.uint16_key hr
  refine ⟨hkey, ?_⟩
  rw [IndirectIndex.recordEnd, countAt, hkey, h.uint16_count hr, r.length_encode]

theorem scanKey_at (hb : b.length < 2 ^ 31) (hs : s.i = o) : scanKey b b.length s = .ok
      { i := ((o + r.encode.length : ℕ) : Int)
        offsets := s.offsets ++ [(o : Int)]
        minTime := min r.minTime s.minTime
        maxTime := max r.maxTime s.maxTime } := by
  have hlen := h.le_length
  have hencode := r.length_encode
  have hpos : 0 < r.entries.length := length_pos_iff.mpr hr.ne_nil
  obtain ⟨hkey, hend⟩ := h.recordEnd hr
  have hlast : o + r.encode.length - 20 = o + (5 + r.key.length + 28 * (r.entries.length - 1)) + 8 := by omega
  have hinside : (reads b o).find? (outside b.length) = none := by
    simp only [reads, find?_eq_none, outside, hkey, hend]
    simp
    omega
  rw [(scanKey_spec (b := b) (by omega) le_rfl (by omega) (by omega) hs).2 hinside, hend, hkey, hlast,
    h.uint64_last hr, h.uint64_first hr, int32_of_lt (by omega) (by omega)]

omit h hr

theorem At.of_drop {rs : List KeyRecord} (h : b.drop o = encodeIndex (r :: rs)) :
    At b o r ∧ b.drop (o + r.encode.length) = encodeIndex rs := by
  refine ⟨⟨encodeIndex rs, h⟩, ?_⟩
  rw [← drop_drop, h]
  exact drop_left

theorem length_le_of_drop (h : b.drop o = encodeIndex []) : b.length ≤ o := drop_eq_nil_iff.mp h

theorem scanKeys_layout (hb : b.length < 2 ^ 31) : ∀ (rs : List KeyRecord) (fuel o : ℕ) (s : IndirectIndex.Scan),
    (∀ r ∈ rs, r.Fits) → b.drop o = encodeIndex rs → o ≤ b.length → rs.length < fuel → s.i = o →
      scanKeys b b.length fuel s = .ok
        { i := b.length
          offsets := s.offsets ++ (layout o rs).map fun p => (p.1 : Int)
          minTime := rs.foldl (fun m r => min r.minTime m) s.minTime
          maxTime := rs.foldl (fun m r => max r.maxTime m) s.maxTime }
  | _, 0, _, _, _, _, _, hfuel, _ => absurd hfuel (Nat.not_lt_zero _)
  | [], fuel + 1, o, s, _, hdrop, ho, _, hs => by
    have hlen : b.length = o := (length_le_of_drop hdrop).antisymm ho
    rw [scanKeys, if_neg (by omega)]
    simp only [layout, map_nil, append_nil, foldl_nil, hlen, ← hs]
  | r :: rs, fuel + 1, o, s, hfits, hdrop, ho, hfuel, hs => by
    obtain ⟨hat, hnext⟩ := At.of_drop hdrop
    have hr := hfits r mem_cons_self
    have hle := hat.le_length
    have hpos := r.length_encode
    rw [length_cons] at hfuel
    rw [scanKeys, if_pos (by omega), scanKey_at hat hr hb hs]
    simp only [bind, Except.bind]
    rw [scanKeys_layout hb rs fuel (o + r.encode.length) _ (forall_mem_cons.mp hfits).2 hnext hle (by omega) rfl]
    simp only [layout, map_cons, append_assoc, singleton_append, foldl_cons]

end Scan

/-! ## Where the records are -/

theorem map_snd_layout : ∀ o rs, (layout o rs).map (·.2) = rs
  | _, [] => rfl
  | o, r :: rs => by rw [layout, map_cons, map_snd_layout]

theorem mem_of_mem_layout {o : ℕ} {p : ℕ × KeyRecord} (h : p ∈ layout o rs) : p.2 ∈ rs := by
  have hmem := mem_map_of_mem (f := (·.2)) h
  rwa [map_snd_layout] at hmem

theorem exists_mem_layout {r : KeyRecord} (o : ℕ) (h : r ∈ rs) : ∃ p ∈ layout o rs, p.2 = r := by
  rw [← map_snd_layout o rs] at h
  exact mem_map.mp h

theorem layout_ne_nil {o : ℕ} (h : rs ≠ []) : layout o rs ≠ [] := by
  intro hnil
  apply h
  rw [← map_snd_layout o rs, hnil, map_nil]

theorem at_of_mem_layout {b : List Byte} {p : ℕ × KeyRecord} (rest : List Byte) :
    ∀ {o : ℕ} {rs : List KeyRecord}, b.drop o = encodeIndex rs ++ rest → p ∈ layout o rs → At b p.1 p.2
  | _, [], _, hp => nomatch hp
  | o, r :: rs, hdrop, hp => by
    have hsplit : b.drop o = r.encode ++ (encodeIndex rs ++ rest) := by
      rw [hdrop, ← append_assoc]
      rfl
    rcases mem_cons.mp hp with rfl | hp
    · exact ⟨_, hsplit⟩
    · refine at_of_mem_layout rest ?_ hp
      rw [← drop_drop, hsplit, drop_left]

def keyed (live : List (ℕ × KeyRecord)) : List (Key × ℕ × KeyRecord) := live.map fun p => (p.2.key, p)

theorem asc_keyed {live : List (ℕ × KeyRecord)} (h : live.Pairwise fun p q => p.2.key < q.2.key) :
    Timed.Asc (keyed live) := by
  rw [Timed.Asc, keyed, pairwise_map]
  exact h

/-- An index in memory whose table points to the records `live`. -/
structure Loaded (d : IndirectIndex) (live : List (ℕ × KeyRecord)) : Prop where
  offsets : d.offsets = live.map fun p => BitVec.ofNat 32 p.1
  records : ∀ p ∈ live, At d.b p.1 p.2
  fits : ∀ p ∈ live, p.2.Fits
  asc : live.Pairwise fun p q => p.2.key < q.2.key
  between : ∀ p ∈ live, d.minKey ≤ p.2.key ∧ p.2.key ≤ d.maxKey
  size_lt : d.b.length < 2 ^ 31

/-- What the bytes of some keys are loaded as. -/
structure Loads (rs : List KeyRecord) (d : IndirectIndex) : Prop where
  loaded : Loaded d (layout 0 rs)
  b : d.b = encodeIndex rs
  minTime : ∀ r ∈ rs, d.minTime ≤ r.minTime
  maxTime : ∀ r ∈ rs, r.maxTime ≤ d.maxTime
  tombstones : ∀ key, d.tombstones key = []

theorem isLeast_foldl_min {α : Type} [LinearOrder α] (time : KeyRecord → α) (rs : List KeyRecord) : ∀ m : α,
    IsLeast (insert m {t | ∃ r ∈ rs, time r = t}) (rs.foldl (fun m r => min (time r) m) m) := by
  induction rs with
  | nil => exact fun m => ⟨.inl rfl, by simp [lowerBounds]⟩
  | cons r rs ih =>
    intro m
    obtain ⟨h1, h2⟩ := ih (min (time r) m)
    have hle := h2 (.inl rfl)
    constructor
    · rcases h1 with h1 | ⟨r', hr', h1⟩
      · rw [foldl_cons, h1]
        rcases le_total (time r) m with h | h
        · exact .inr ⟨r, mem_cons_self, (min_eq_left h).symm⟩
        · exact .inl (min_eq_right h)
      · exact .inr ⟨r', mem_cons_of_mem r hr', h1⟩
    · rintro t (rfl | ⟨r', hr', rfl⟩)
      · exact hle.trans (min_le_right _ _)
      · rcases mem_cons.mp hr' with rfl | hr'
        · exact hle.trans (min_le_left _ _)
        · exact h2 (.inr ⟨r', hr', rfl⟩)

theorem length_le_encodeIndex (rs : List KeyRecord) : rs.length ≤ (encodeIndex rs).length := by
  induction rs with
  | nil => exact Nat.le_refl 0
  | cons r rs ih =>
    have hpos := r.length_encode
    rw [encodeIndex, flatMap_cons, length_append, ← encodeIndex, length_cons]
    omega

/-- **Loading** the bytes of some keys in order. -/
theorem unmarshalBinary_encode (hfits : ∀ r ∈ rs, r.Fits)
    (hasc : rs.Pairwise fun r r' => r.key < r'.key) (hlen : (encodeIndex rs).length < 2 ^ 31) :
    ∃ d, unmarshalBinary (encodeIndex rs) = .ok d ∧ Loads rs d ∧
      (rs ≠ [] → d.minTime = rs.foldl (fun m r => min r.minTime m) maxInt64 ∧
        d.maxTime = rs.foldl (fun m r => max r.maxTime m) 0) := by
  by_cases hne : rs = []
  · subst hne
    refine ⟨_, rfl, ?_⟩
    exact ⟨⟨⟨rfl, by simp [layout], by simp [layout], List.Pairwise.nil, by simp [layout], by simp⟩, rfl, by simp,
      by simp, fun _ => rfl⟩, absurd rfl⟩
  have hpos : (encodeIndex rs).length ≠ 0 := by
    have := length_le_encodeIndex rs
    have := length_pos_iff.mpr hne
    omega
  have hscan := scanKeys_layout hlen rs ((encodeIndex rs).length + 1) 0 ⟨0, [], maxInt64, 0⟩ hfits rfl (Nat.zero_le _)
    (by have := length_le_encodeIndex rs; omega) rfl
  have hat : ∀ p ∈ layout 0 rs, At (encodeIndex rs) p.1 p.2 := fun p hp =>
    at_of_mem_layout [] (by rw [append_nil, drop_zero]) hp
  have hfits' : ∀ p ∈ layout 0 rs, p.2.Fits := fun p hp => hfits p.2 (mem_of_mem_layout hp)
  have hasc' : (layout 0 rs).Pairwise fun p q => p.2.key < q.2.key := by
    rwa [← map_snd_layout 0 rs, pairwise_map] at hasc
  have hlast := getLast?_eq_getLast_of_ne_nil (layout_ne_nil (o := 0) hne)
  obtain ⟨p, ps, hps⟩ := exists_cons_of_ne_nil (layout_ne_nil (o := 0) hne)
  have hreadKey : ∀ p ∈ layout 0 rs, readKey ((encodeIndex rs).drop (p.1 : Int).toNat) =
      .ok (2 + p.2.key.length, p.2.key) := by
    intro p hp
    obtain ⟨rest, hrest⟩ := hat p hp
    rw [Int.toNat_natCast, hrest, (hfits' p hp).readKey]
  rw [unmarshalBinary, if_neg hpos, int32_of_lt (by omega) (by omega), hscan]
  simp only [bind, Except.bind, nil_append, head?_map, getLast?_map, hlast, Option.map_some]
  rw [show (layout 0 rs).head? = some p by rw [hps]; rfl]
  simp only [Option.map_some]
  rw [hreadKey p (by rw [hps]; exact mem_cons_self), hreadKey _ (getLast_mem _)]
  refine ⟨_, rfl, ⟨⟨?_, hat, hfits', hasc', ?_, hlen⟩, rfl, ?_, ?_, fun _ => rfl⟩, fun _ => ⟨rfl, rfl⟩⟩
  · rw [map_map]
    refine map_congr_left fun p _ => ?_
    exact BitVec.ofInt_natCast 32 p.1
  · have hkeyed := asc_keyed hasc'
    have hne' : keyed (layout 0 rs) ≠ [] := mt map_eq_nil_iff.mp (layout_ne_nil hne)
    intro q hq
    have hq' : (q.2.key, q) ∈ keyed (layout 0 rs) := mem_map_of_mem hq
    have h1 := hkeyed.head_le hne' hq'
    have h2 := hkeyed.le_getLast hne' hq'
    simp only [keyed, head_map, getLast_map] at h1 h2
    refine ⟨?_, h2⟩
    simpa only [hps, head_cons] using h1
  · exact fun r hr => (isLeast_foldl_min (·.minTime) rs maxInt64).2 (.inr ⟨r, hr, rfl⟩)
  · exact fun r hr => (@isLeast_foldl_min Intᵒᵈ _ (·.maxTime) rs (0 : Int)).2 (.inr ⟨r, hr, rfl⟩)

/-! ## Searching -/

/-- The number of records with a smaller key. -/
def rank (live : List (ℕ × KeyRecord)) (key : Key) : ℕ := live.countP fun p => decide (p.2.key < key)

namespace Loaded

variable {d : IndirectIndex} {live : List (ℕ × KeyRecord)} {p : ℕ × KeyRecord} {key : Key}

theorem rank_eq_below (live : List (ℕ × KeyRecord)) (key : Key) : rank live key = Timed.below (keyed live) key := by
  rw [rank, Timed.below, keyed, countP_map]
  refine countP_congr fun p _ => ?_
  simp only [Function.comp_apply, decide_eq_true_eq]

variable (h : Loaded d live)
include h

theorem length_offsets : d.offsets.length = live.length := by rw [h.offsets, length_map]

theorem offset_lt (hp : p ∈ live) : p.1 < d.b.length := by
  have h1 := (h.records p hp).le_length
  have h2 := p.2.length_encode
  omega

theorem toNat_ofNat (hp : p ∈ live) : (BitVec.ofNat 32 p.1).toNat = p.1 := by
  have h1 := h.offset_lt hp
  have h2 := h.size_lt
  rw [BitVec.toNat_ofNat]
  exact Nat.mod_eq_of_lt (by omega)

theorem keyOf (hp : p ∈ live) : d.keyOf (BitVec.ofNat 32 p.1) = p.2.key := by
  refine At.keyOf ?_ (h.fits p hp)
  rw [h.toNat_ofNat hp]
  exact h.records p hp

theorem getD_offsets (hi : i < live.length) : d.offsets.getD i 0 = BitVec.ofNat 32 live[i].1 := by
  rw [h.offsets, getD_eq_getElem _ _ (by rwa [length_map]), getElem_map]

theorem getElem_lt_iff (hi : i < live.length) (key : Key) : live[i].2.key < key ↔ i < rank live key := by
  have hlen : i < (keyed live).length := by rwa [keyed, length_map]
  have := (asc_keyed h.asc).getElem_lt_iff hlen key
  rw [rank_eq_below, ← this]
  simp only [keyed, getElem_map]

theorem find_eq (key : Key) : d.find key = min (rank live key) (live.length - 1) := by
  rw [find, searchBytesFixed, h.length_offsets]
  refine @searchLoop_eq _ (live.length - 1) _ ?_ _ _ _ (by omega) (Nat.zero_le _) (min_le_right _ _) le_rfl
  intro i hi
  have hlt : i < live.length := by omega
  rw [h.getD_offsets hlt, h.keyOf (getElem_mem hlt), Bool.not_eq_true', decide_eq_false_iff_not, ge_iff_le, not_le,
    h.getElem_lt_iff hlt]
  omega

theorem rank_of_getElem (hi : i < live.length) : rank live live[i].2.key = i := by
  have h1 := (h.getElem_lt_iff hi live[i].2.key).not.mp (lt_irrefl _)
  by_contra hne
  have hlt : rank live live[i].2.key < i := by omega
  have h2 := pairwise_iff_getElem.mp h.asc _ _ (hlt.trans hi) hi hlt
  exact absurd ((h.getElem_lt_iff (hlt.trans hi) _).mp h2) (lt_irrefl _)

theorem search_mem (hp : p ∈ live) : d.search p.2.key = p.1 := by
  obtain ⟨i, hi, rfl⟩ := getElem_of_mem hp
  obtain ⟨hmin, hmax⟩ := h.between _ hp
  have hfind : d.find live[i].2.key = i := by
    rw [h.find_eq, h.rank_of_getElem hi]
    omega
  have hcontains : d.containsKey live[i].2.key = true := by
    rw [containsKey, Bool.and_eq_true, decide_eq_true_eq, decide_eq_true_eq]
    exact ⟨hmin, hmax⟩
  rw [search, hcontains, if_neg (by decide), hfind, h.length_offsets, if_pos hi, h.getD_offsets hi]
  simp only [h.keyOf hp, ne_eq, not_true_eq_false, if_false]
  exact h.toNat_ofNat hp

theorem search_not_mem (hkey : ∀ p ∈ live, p.2.key ≠ key) : d.search key = d.b.length := by
  rw [search]
  split_ifs with hcontains hlt
  · rfl
  · rw [h.length_offsets] at hlt
    rw [h.getD_offsets hlt]
    simp only [h.keyOf (getElem_mem hlt)]
    rw [if_pos (hkey _ (getElem_mem hlt)).symm]
  · rfl

theorem entries_mem (hp : p ∈ live) : d.entries p.2.key = .ok p.2.entries := by
  rw [entries, h.search_mem hp, if_pos (h.offset_lt hp), (h.records p hp).readEntriesAt (h.fits p hp)]
  simp only [bind, Except.bind, ne_eq, not_true_eq_false, if_false]
  rfl

theorem entries_not_mem (hkey : ∀ p ∈ live, p.2.key ≠ key) : d.entries key = .ok [] := by
  rw [entries, h.search_not_mem hkey, if_neg (lt_irrefl _)]

theorem seek_eq (key : Key) : d.seek key = min (rank live key) (live.length - 1) := by
  rw [seek, searchOffset, h.find_eq, h.length_offsets]
  split_ifs with hlt
  · rfl
  · omega

end Loaded

end Influxdb.Tsm1.Disk
