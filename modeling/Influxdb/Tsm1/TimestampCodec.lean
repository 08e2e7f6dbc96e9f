import Influxdb.Encoding.Simple8bCodec
import Influxdb.Tsm1.Timestamp

/-!
# TimestampCodec — encoded timestamps can be decoded

`TimeFormat b ts` says that the bytes `b` are one of the three encodings of the timestamps `ts`.  Both
encoders write such bytes, whatever was in their buffers, and both decoders and the counter read them.
-/

namespace Influxdb.Tsm1

open List TimeDecoder TimeEncoder Simple8b

open Simple8b (maxValue)

variable {k : ℕ} {ds : List Word}

/-! ## Powers of ten -/

/-- A divisor: a power of ten up to 1e12. -/
def divisor (k : ℕ) : Word := BitVec.ofNat 64 (10 ^ k)

theorem toNat_divisor (hk : k ≤ 12) : (divisor k).toNat = 10 ^ k := by
  have h : 10 ^ k ≤ 10 ^ 12 := Nat.pow_le_pow_right (by omega) hk
  rw [divisor, BitVec.toNat_ofNat]
  exact Nat.mod_eq_of_lt (by omega)

variable (encoding : Byte)

/-- The header of an encoding, with the exponent of its divisor. -/
def headerOf (k : ℕ) : Byte := encoding <<< 4 ||| BitVec.ofNat 8 k

theorem header_divisor (hk : k ≤ 12) : header encoding (divisor k) = headerOf encoding k := by
  rw [header, headerOf, log10, toNat_divisor hk, Nat.log_pow (by omega)]

theorem headerOf_spec (h : encoding ≤ 2) (hk : k ≤ 12) :
    headerOf encoding k >>> 4 = encoding ∧ pow10 (headerOf encoding k) = divisor k := by
  have hall : ∀ encoding, encoding ≤ 2 → ∀ k : Fin 13, headerOf encoding k >>> 4 = encoding ∧
      (headerOf encoding k &&& 0xf).toNat = k := by decide +kernel
  obtain ⟨h1, h2⟩ := hall encoding h ⟨k, by omega⟩
  exact ⟨h1, by rw [pow10, h2, divisor]⟩

theorem divisor_gt_one (hk : k ≤ 12) : divisor k > 1 ↔ k ≠ 0 := by
  rw [gt_iff_lt, BitVec.lt_def, toNat_divisor hk]
  refine ⟨?_, fun h => Nat.one_lt_pow h (by omega)⟩
  rintro h rfl
  exact absurd h (by decide)

theorem div_mul_divisor (hk : k ≤ 12) {v : Word} (h : 10 ^ k ∣ v.toNat) : v / divisor k * divisor k = v := by
  refine BitVec.eq_of_toNat_eq ?_
  rw [BitVec.toNat_mul, BitVec.toNat_udiv, toNat_divisor hk, Nat.div_mul_cancel h]
  exact Nat.mod_eq_of_lt v.isLt

variable (v : Word)

theorem divisor_zero_mul : v * divisor 0 = v := BitVec.mul_one v

theorem div_divisor_zero : v / divisor 0 = v := BitVec.udiv_one

/-- A scaling that is left out for the divisor one. -/
theorem ite_divisor {α : Type*} {x y : α} (hk : k ≤ 12) (h : k = 0 → x = y) : (if divisor k > 1 then x else y) = x := by
  split_ifs with hgt
  · rfl
  · exact (h (not_not.mp (mt (divisor_gt_one hk).mpr hgt))).symm

theorem scaleUp_eq (hk : k ≤ 12) (dts : List Word) :
    (if divisor k > 1 then dts.map (· * divisor k) else dts) = dts.map (· * divisor k) :=
  ite_divisor hk (by rintro rfl; simp [divisor_zero_mul])

theorem scaleDown_eq (hk : k ≤ 12) (dts : List Word) :
    (if divisor k > 1 then dts.map (· / divisor k) else dts) = dts.map (· / divisor k) :=
  ite_divisor hk (by rintro rfl; simp [div_divisor_zero])

theorem shrinkDivisor_spec (v : Word) : ∀ fuel k, k < fuel → k ≤ 12 →
    ∃ j ≤ k, shrinkDivisor fuel v (divisor k) = divisor j ∧ 10 ^ j ∣ v.toNat
  | fuel + 1, k, hfuel, hk => by
    rw [shrinkDivisor]
    split_ifs with h
    · obtain ⟨k, rfl⟩ : ∃ m, k = m + 1 := ⟨k - 1, by have := (divisor_gt_one hk).mp h.1; omega⟩
      have hdiv : divisor (k + 1) / 10 = divisor k := by
        refine BitVec.eq_of_toNat_eq ?_
        rw [BitVec.toNat_udiv, toNat_divisor hk, toNat_divisor (by omega), pow_succ]
        exact Nat.mul_div_cancel _ (by decide)
      obtain ⟨j, hj, heq, hdvd⟩ := shrinkDivisor_spec v fuel k (by omega) (by omega)
      rw [hdiv]
      exact ⟨j, by omega, heq, hdvd⟩
    · refine ⟨k, le_rfl, rfl, ?_⟩
      rw [not_and_or, divisor_gt_one hk, not_not, not_not] at h
      rcases h with rfl | h
      · exact one_dvd _
      · have := congrArg BitVec.toNat h
        rw [BitVec.toNat_umod, toNat_divisor hk] at this
        exact Nat.dvd_of_mod_eq_zero this

theorem fitDivisor_spec (hk : k ≤ 12) : ∃ j ≤ k, fitDivisor v (divisor k) = divisor j ∧ 10 ^ j ∣ v.toNat :=
  shrinkDivisor_spec v 13 k (by omega) hk

theorem maxDivisor_eq : maxDivisor = divisor 12 := rfl

/-! ## The formats -/

/-- The bytes are an encoding of the timestamps. -/
inductive TimeFormat : List Byte → List Word → Prop
  | raw (ts : List Word) : TimeFormat (uncompressedFrame (timeUncompressed <<< 4) (deltas 0 ts)) ts
  | rle (k : ℕ) (first delta : Word) (n : ℕ) (hk : k ≤ 12) (hn : n < 2 ^ 63) :
      TimeFormat (rleFrame (headerOf timeCompressedRLE k) first delta (BitVec.ofNat 64 n))
        (runLength first (delta * divisor k) n)
  | packed (k : ℕ) (first : Word) (ws : List Word) (hk : k ≤ 12) :
      TimeFormat (packedFrame (headerOf timeCompressedPackedSimple k) first ws)
        (first :: sums first ((ws.flatMap Simple8b.decode).map (· * divisor k)))

/-! ## Decoding -/

variable {b : List Byte} {ts : List Word} {k n : ℕ}

section Switch

variable {α : Type*} (uncompressed packed rle invalid : α) (hk : k ≤ 12)

theorem switch_raw (values : List Word) :
    switchEncoding ((uncompressedFrame (timeUncompressed <<< 4) values).headD 0 >>> 4) uncompressed packed rle
      invalid = uncompressed := by
  rw [uncompressedFrame, headD_cons, show timeUncompressed <<< 4 >>> 4 = 0 by decide]
  exact switchEncoding_zero ..

include hk in
theorem switch_packed (first : Word) (ws : List Word) :
    switchEncoding ((packedFrame (headerOf timeCompressedPackedSimple k) first ws).headD 0 >>> 4) uncompressed packed
      rle invalid = packed := by
  rw [packedFrame, headD_cons, (headerOf_spec timeCompressedPackedSimple (by decide) hk).1]
  exact switchEncoding_one ..

include hk in
theorem switch_rle (first delta count : Word) :
    switchEncoding ((rleFrame (headerOf timeCompressedRLE k) first delta count).headD 0 >>> 4) uncompressed packed
      rle invalid = rle := by
  rw [rleFrame, headD_cons, (headerOf_spec timeCompressedRLE (by decide) hk).1]
  exact switchEncoding_two ..

end Switch

theorem decodeAllRLE_frame (hk : k ≤ 12) (hn : n < 2 ^ 63) (first delta : Word) :
    timeBatchDecodeAllRLE (rleFrame (headerOf timeCompressedRLE k) first delta (BitVec.ofNat 64 n)) =
      .ok (runLength first (delta * divisor k) n) := by
  obtain ⟨-, hpow⟩ := headerOf_spec timeCompressedRLE (by decide) hk
  obtain ⟨hint, hnat⟩ := toInt_count hn
  unfold timeBatchDecodeAllRLE
  rw [rleFrame, if_neg (frame_length _ _ _), frame_first, frame_delta]
  simp only [Int.toNat_natCast]
  rw [if_neg (not_length_putUvarint_le _), frame_count]
  rw [if_neg (not_length_putUvarint_le _), hint, if_neg (by omega), hnat, headD_cons, hpow]

/-- **The batch decoder** reads every format. -/
theorem TimeFormat.timeArrayDecodeAll (h : TimeFormat b ts) : timeArrayDecodeAll b = .ok ts := by
  unfold Tsm1.timeArrayDecodeAll
  cases h with
  | raw ts =>
    rw [if_neg (by simp [uncompressedFrame]), switch_raw]
    unfold timeBatchDecodeAllUncompressed
    simp only [uncompressedFrame, drop_succ_cons, drop_zero]
    rw [length_putWords, if_neg (by omega), words_putWords, sums_deltas]
  | rle k first delta n hk hn =>
    rw [if_neg (by simp [rleFrame]), switch_rle _ _ _ _ hk, decodeAllRLE_frame hk hn]
  | packed k first ws hk =>
    obtain ⟨-, hpow⟩ := headerOf_spec timeCompressedPackedSimple (by decide) hk
    rw [if_neg (by simp [packedFrame]), switch_packed _ _ _ _ hk]
    unfold timeBatchDecodeAllSimple
    rw [packedFrame, if_neg (frame_length _ _ _), frame_first, frame_rest, countBytes_putWords,
      decodeBytesBigEndian_putWords, headD_cons, hpow]
    simp only [bind, Except.bind]
    rw [if_neg (by simp), scaleUp_eq hk]
    rfl

/-- **The counter** counts every format. -/
theorem TimeFormat.countTimestamps (h : TimeFormat b ts) : countTimestamps b = .ok ts.length := by
  unfold Tsm1.countTimestamps
  cases h with
  | raw ts =>
    rw [if_neg (by simp [uncompressedFrame]), switch_raw]
    simp only [uncompressedFrame, drop_succ_cons, drop_zero]
    rw [length_putWords, length_deltas, Nat.mul_div_cancel_left _ (by omega)]
  | rle k first delta n hk hn =>
    rw [if_neg (by simp [rleFrame]), switch_rle _ _ _ _ hk, length_runLength]
    unfold countRLE
    rw [rleFrame, if_neg (frame_length _ _ _), frame_delta]
    have hindex : (9 + ((putUvarint delta).length : Int)).toNat = 9 + (putUvarint delta).length := by omega
    simp only
    rw [hindex, frame_count, (toInt_count hn).1, if_neg]
    rw [length_cons, length_append, length_append, length_putUint64]
    omega
  | packed k first ws hk =>
    rw [if_neg (by simp [packedFrame]), switch_packed _ _ _ _ hk]
    unfold countPacked
    rw [packedFrame, if_neg (frame_length _ _ _), frame_rest, countBytes_putWords]
    simp

/-! ## The decoder, one value at a time -/

namespace TimeDecoder

variable (d : TimeDecoder)

theorem collects_ts (herr : d.err = none) (henc : d.encoding ≠ timeCompressedRLE) :
    ∀ m i, d.ts.length - i = m → d.i = i → ∃ d', Collects next read d (d.ts.drop i) d' ∧ d'.err = none := by
  intro m
  induction m generalizing d with
  | zero =>
    intro i hm hi
    refine ⟨d, ?_, herr⟩
    rw [drop_eq_nil_of_le (by omega)]
    refine collects_of_false ?_
    rw [next, if_neg (by simp [herr]), if_neg henc, if_pos (by rw [hi]; omega)]
  | succ m ih =>
    intro i hm hi
    have hlt : i < d.ts.length := by omega
    obtain ⟨d', hrest, herr'⟩ := ih { d with v := d.ts[i], i := i + 1 } herr henc (i + 1) (by simp only; omega) rfl
    refine ⟨d', ?_, herr'⟩
    rw [drop_eq_getElem_cons hlt]
    refine collects_of_true (t := { d with v := d.ts[i], i := i + 1 }) ?_ rfl hrest
    rw [next, if_neg (by simp [herr]), if_neg henc, if_neg (by rw [hi]; omega), hi, Int.toNat_natCast,
      getD_eq_getElem _ _ hlt]

theorem collects_runLength (herr : d.err = none) (henc : d.encoding = timeCompressedRLE) : ∀ m : ℕ, d.n - d.i = m + 1 →
      ∃ d', Collects next read d (runLength (d.v + d.rleDelta) d.rleDelta m) d' ∧ d'.err = none := by
  intro m
  induction m generalizing d with
  | zero =>
    intro hm
    refine ⟨{ d with i := d.i + 1, v := d.v + d.rleDelta }, collects_of_false ?_, herr⟩
    rw [next, if_neg (by simp [herr]), if_pos henc, if_neg (by omega)]
    simp only [Prod.mk.injEq, decide_eq_false_iff_not, and_true]
    omega
  | succ m ih =>
    intro hm
    obtain ⟨d', hrest, herr'⟩ := ih { d with i := d.i + 1, v := d.v + d.rleDelta } herr henc (by simp only; omega)
    refine ⟨d', collects_of_true (t := { d with i := d.i + 1, v := d.v + d.rleDelta }) ?_ rfl hrest, herr'⟩
    rw [next, if_neg (by simp [herr]), if_pos henc, if_neg (by omega)]
    simp only [Prod.mk.injEq, decide_eq_true_eq, and_true]
    omega

/-- The decoder of bytes with the encoding type `encoding`, before they are decoded. -/
def start (encoding : Byte) : TimeDecoder :=
  { d with v := 0, i := 0, ts := [], err := none, encoding := encoding }

theorem init_eq (hb : b.length ≠ 0) :
    d.init b = switchEncoding (b.headD 0 >>> 4) ((d.start (b.headD 0 >>> 4)).decodeRaw (b.drop 1))
      ((d.start (b.headD 0 >>> 4)).decodePacked b) ((d.start (b.headD 0 >>> 4)).decodeRLE b)
      { d.start (b.headD 0 >>> 4) with
        err := some ("unknown encoding: " ++ toString (b.headD 0 >>> 4).toNat) } := by
  rw [init, if_pos (Nat.pos_of_ne_zero hb), decode, if_neg hb]
  rfl

theorem decodePacked_eq (hb : ¬ b.length < 9) : ∃ dec, d.decodePacked b = { d with
      dec := dec
      i := 0
      ts := uint64 (b.drop 1) :: sums (uint64 (b.drop 1))
        (if pow10 (b.headD 0) > 1 then ((words (b.drop 9)).flatMap Simple8b.decode).map (· * pow10 (b.headD 0))
        else (words (b.drop 9)).flatMap Simple8b.decode) } := by
  obtain ⟨dec, hcollects⟩ := Simple8b.Decoder.collects d.dec (b.drop 9)
  refine ⟨dec, ?_⟩
  rw [decodePacked, if_neg hb, hcollects.collect_eq]
  have h1 := length_flatMap_decode_le (words (b.drop 9))
  have h2 := length_words_le (b.drop 9)
  rw [length_drop] at h2
  omega

theorem decodePacked_frame (hk : k ≤ 12) (first : Word) (ws : List Word) :
    ∃ dec, d.decodePacked (packedFrame (headerOf timeCompressedPackedSimple k) first ws) = { d with
        dec := dec
        i := 0
        ts := first :: sums first ((ws.flatMap Simple8b.decode).map (· * divisor k)) } := by
  obtain ⟨-, hpow⟩ := headerOf_spec timeCompressedPackedSimple (by decide) hk
  obtain ⟨dec, hdec⟩ := d.decodePacked_eq (frame_length (headerOf timeCompressedPackedSimple k) first (putWords ws))
  refine ⟨dec, ?_⟩
  rw [packedFrame, hdec, frame_first, frame_rest, words_putWords, headD_cons, hpow, scaleUp_eq hk]

theorem decodeRLE_frame (hk : k ≤ 12) (hn : n < 2 ^ 63) (first delta : Word) :
    d.decodeRLE (rleFrame (headerOf timeCompressedRLE k) first delta (BitVec.ofNat 64 n)) = { d with
        v := first - delta * divisor k
        rleDelta := delta * divisor k
        i := -1
        n := n } := by
  obtain ⟨-, hpow⟩ := headerOf_spec timeCompressedRLE (by decide) hk
  unfold decodeRLE
  rw [rleFrame, if_neg (frame_length _ _ _), frame_first, frame_delta]
  simp only [Int.toNat_natCast]
  rw [if_neg (not_length_putUvarint_le _), frame_count]
  rw [if_neg (not_length_putUvarint_le _), (toInt_count hn).1, headD_cons, hpow]

end TimeDecoder

/-- **The decoder** reads every format. -/
theorem TimeFormat.collects (h : TimeFormat b ts) (d : TimeDecoder) :
    ∃ d', Collects next read (d.init b) ts d' ∧ d'.err = none := by
  cases h with
  | raw ts =>
    rw [init_eq d (by simp [uncompressedFrame]), switch_raw]
    set d₀ := (d.start ((uncompressedFrame (timeUncompressed <<< 4) (deltas 0 ts)).headD 0 >>> 4)).decodeRaw
      ((uncompressedFrame (timeUncompressed <<< 4) (deltas 0 ts)).drop 1)
    have hts : d₀.ts = ts := by
      show sums 0 (words (putWords (deltas 0 ts))) = ts
      rw [words_putWords, sums_deltas]
    have henc : d₀.encoding ≠ timeCompressedRLE := by
      show timeUncompressed <<< 4 >>> 4 ≠ timeCompressedRLE
      decide
    obtain ⟨d', hd', herr⟩ := collects_ts d₀ rfl henc _ 0 rfl rfl
    rw [hts] at hd'
    exact ⟨d', hd', herr⟩
  | rle k first delta n hk hn =>
    have henc := (headerOf_spec timeCompressedRLE (by decide) hk).1
    rw [init_eq d (by simp [rleFrame]), switch_rle _ _ _ _ hk, decodeRLE_frame _ hk hn]
    obtain ⟨d', hd', herr⟩ := collects_runLength
      { d.start ((rleFrame (headerOf timeCompressedRLE k) first delta (BitVec.ofNat 64 n)).headD 0 >>> 4) with
        v := first - delta * divisor k
        rleDelta := delta * divisor k
        i := -1
        n := n } rfl henc n (by simp only; omega)
    simp only [BitVec.sub_add_cancel] at hd'
    exact ⟨d', hd', herr⟩
  | packed k first ws hk =>
    have henc := (headerOf_spec timeCompressedPackedSimple (by decide) hk).1
    obtain ⟨dec, hdec⟩ := decodePacked_frame
      (d.start ((packedFrame (headerOf timeCompressedPackedSimple k) first ws).headD 0 >>> 4)) hk first ws
    rw [init_eq d (by simp [packedFrame]), switch_packed _ _ _ _ hk, hdec]
    refine collects_ts _ rfl ?_ _ 0 rfl rfl
    show headerOf timeCompressedPackedSimple k >>> 4 ≠ timeCompressedRLE
    rw [henc]
    decide

/-! ## Encoding -/

section Formats

variable {first : Word} {rest : List Word}

theorem deltas_zero (first : Word) (rest : List Word) : deltas 0 (first :: rest) = inPlaceDeltas (first :: rest) := by
  have h : first - 0 = first := BitVec.sub_zero first
  rw [deltas, h, inPlaceDeltas]

theorem format_raw (first : Word) (rest : List Word) :
    TimeFormat (uncompressedFrame (timeUncompressed <<< 4) (inPlaceDeltas (first :: rest))) (first :: rest) := by
  rw [← deltas_zero]
  exact .raw _

theorem format_rle (hk : k ≤ 12) {delta : Word} (hds : deltas first rest = replicate rest.length delta)
    (hdvd : 10 ^ k ∣ delta.toNat) (hlen : rest.length + 1 < 2 ^ 63) :
    TimeFormat (rleFrame (headerOf timeCompressedRLE k) first (delta / divisor k)
      (BitVec.ofNat 64 (rest.length + 1))) (first :: rest) := by
  have h := TimeFormat.rle k first (delta / divisor k) (rest.length + 1) hk hlen
  rwa [div_mul_divisor hk hdvd, runLength_succ, ← hds, sums_deltas] at h

theorem format_packed (hk : k ≤ 12) (hdvd : ∀ v ∈ deltas first rest, 10 ^ k ∣ v.toNat) {ws : List Word}
    (hws : ws.flatMap decode = (deltas first rest).map (· / divisor k)) :
    TimeFormat (packedFrame (headerOf timeCompressedPackedSimple k) first ws) (first :: rest) := by
  have h := TimeFormat.packed k first ws hk
  have hscale : ((deltas first rest).map (· / divisor k)).map (· * divisor k) = deltas first rest := by
    rw [map_map]
    exact (map_congr_left fun v hv => div_mul_divisor hk (hdvd v hv)).trans (map_id _)
  rwa [hws, hscale, sums_deltas] at h

theorem div_le_maxValue (h : ∀ v ∈ ds, v ≤ maxValue) (div : Word) : ∀ x ∈ ds.map (· / div), x ≤ maxValue := by
  refine forall_mem_map.mpr fun v hv => ?_
  have hv := h v hv
  rw [BitVec.le_def] at hv ⊢
  rw [BitVec.toNat_udiv]
  exact le_trans (Nat.div_le_self _ _) hv

end Formats

theorem foldr_reduceStep_spec (ds : List Word) : let r := ds.foldr reduceStep ⟨0, maxDivisor, true, none⟩
    (∀ v ∈ ds, v ≤ r.max) ∧ (∃ k ≤ 12, r.divisor = divisor k ∧ ∀ v ∈ ds, 10 ^ k ∣ v.toNat) ∧
      r.next = ds.head? ∧ (r.rle = true → ∀ v ∈ ds, ds.head? = some v) := by
  induction ds with
  | nil => exact ⟨by simp, ⟨12, le_rfl, maxDivisor_eq, by simp⟩, rfl, by simp⟩
  | cons d ds ih =>
    obtain ⟨hmax, ⟨k, hk, hdiv, hdvd⟩, hnext, hrle⟩ := ih
    obtain ⟨j, hj, hfit, hd⟩ := fitDivisor_spec d hk
    simp only [foldr_cons]
    refine ⟨?_, ⟨j, by omega, ?_, ?_⟩, rfl, ?_⟩
    · simp only [reduceStep]
      split_ifs with h
      · exact forall_mem_cons.mpr ⟨le_rfl, fun v hv => le_trans (hmax v hv) h.le⟩
      · exact forall_mem_cons.mpr ⟨not_lt.mp h, hmax⟩
    · simp only [reduceStep]
      rw [hdiv, hfit]
    · exact forall_mem_cons.mpr ⟨hd, fun v hv => dvd_trans (pow_dvd_pow 10 hj) (hdvd v hv)⟩
    · intro h
      simp only [reduceStep, Bool.or_eq_true, Bool.and_eq_true, Option.isNone_iff_eq_none, beq_iff_eq] at h
      rw [hnext] at h
      refine forall_mem_cons.mpr ⟨rfl, fun v hv => ?_⟩
      rcases h with h | ⟨h1, h2⟩
      · rw [head?_eq_none_iff.mp h] at hv
        cases hv
      · rw [head?_cons, ← h2]
        exact hrle h1 v hv

theorem eq_replicate_of_head? (h : ∀ v ∈ ds, ds.head? = some v) : ds = replicate ds.length (ds.headD 0) := by
  rw [eq_replicate_iff]
  refine ⟨rfl, fun v hv => ?_⟩
  rw [headD_eq_head?_getD, h v hv]
  rfl

namespace TimeEncoder

theorem length_buffer (e : TimeEncoder) (sz : ℕ) : (e.buffer sz).length = sz := by
  unfold buffer
  split_ifs with h
  · exact length_replicate
  · exact length_take_of_le (not_lt.mp h)

variable {first : Word} {rest : List Word} {e : TimeEncoder}

theorem encodeRLE_eq (first delta div : Word) (n : ℕ) : ∃ e', e.encodeRLE first delta div n =
    .ok (rleFrame (header timeCompressedRLE div) first (delta / div) (BitVec.ofNat 64 n), e') := by
  unfold encodeRLE
  rw [writeRLE_eq (by rw [length_buffer])]
  simp only [bind, Except.bind, take_left]
  exact ⟨_, rfl⟩

theorem encodeRaw_eq : ∃ e', e.encodeRaw = .ok (uncompressedFrame (timeUncompressed <<< 4) e.ts, e') := by
  unfold encodeRaw
  simp only
  rw [writeUncompressed_eq (by rw [length_buffer]), drop_eq_nil_of_le (by rw [length_buffer]), append_nil]
  exact ⟨_, rfl⟩

theorem encodePacked_format (henc : e.enc = Simple8b.Encoder.newEncoder) (hk : k ≤ 12)
    (hdvd : ∀ v ∈ deltas first rest, 10 ^ k ∣ v.toNat) (hmax : ∀ v ∈ deltas first rest, v ≤ maxValue) :
    ∃ b e', e.encodePacked (divisor k) (inPlaceDeltas (first :: rest)) = .ok (b, e') ∧
      TimeFormat b (first :: rest) := by
  have hvalues : ∀ x ∈ [] ++ (deltas first rest).map (· / divisor k), x ≤ maxValue := div_le_maxValue hmax _
  obtain ⟨enc, hwrites, hholds⟩ := Simple8b.Encoder.holds_newEncoder.writeAll hvalues
  obtain ⟨ws, enc', hbytes, hws⟩ := hholds.getBytes hvalues
  have htail : (inPlaceDeltas (first :: rest)).tail = deltas first rest := rfl
  have hlen : 9 + (putWords ws).length = 8 + 1 + (putWords ws).length := by omega
  unfold encodePacked
  rw [htail, scaleDown_eq hk, henc]
  simp only [bind, Except.bind, hwrites, hbytes]
  rw [writePackedBytes_eq (by rw [length_buffer, hlen]), header_divisor _ hk,
    drop_eq_nil_of_le (by rw [length_buffer, hlen]), append_nil]
  simp only
  rw [take_of_length_le (by rw [length_cons, length_append, length_putUint64]; omega)]
  exact ⟨_, _, rfl, format_packed hk hdvd hws⟩

/-- **The encoder** writes one of the formats. -/
theorem getBytes_format (henc : e.enc = Simple8b.Encoder.newEncoder) (hts : e.ts = first :: rest)
    (hlen : rest.length + 1 < 2 ^ 63) : ∃ b e', e.getBytes = .ok (b, e') ∧ TimeFormat b (first :: rest) := by
  have hspec := foldr_reduceStep_spec (deltas first rest)
  have hreduce : reduce (inPlaceDeltas (first :: rest)) =
      (deltas first rest).foldr reduceStep ⟨0, maxDivisor, true, none⟩ := rfl
  rw [← hreduce] at hspec
  unfold getBytes
  rw [hts, if_neg (by simp)]
  simp only
  generalize reduce (inPlaceDeltas (first :: rest)) = r at hspec
  obtain ⟨hmax, ⟨k, hk, hdiv, hdvd⟩, -, hrle⟩ := hspec
  unfold encodeDeltas
  split_ifs with h1 h2
  · obtain ⟨hr, hgt⟩ := h1
    have hrep := eq_replicate_of_head? (hrle hr)
    rw [length_deltas] at hrep
    obtain ⟨t, rest, rfl⟩ := exists_cons_of_length_pos (l := rest) (by simpa [inPlaceDeltas] using hgt)
    obtain ⟨e', he'⟩ := encodeRLE_eq (e := { e with ts := inPlaceDeltas (first :: t :: rest) }) first (t - first)
      r.divisor (inPlaceDeltas (first :: t :: rest)).length
    refine ⟨_, e', he', ?_⟩
    have hlength : (inPlaceDeltas (first :: t :: rest)).length = (t :: rest).length + 1 := by simp [inPlaceDeltas]
    rw [hdiv, header_divisor _ hk, hlength]
    exact format_rle hk hrep (hdvd _ mem_cons_self) hlen
  · obtain ⟨e', he'⟩ := encodeRaw_eq (e := { e with ts := inPlaceDeltas (first :: rest) })
    exact ⟨_, e', he', format_raw first rest⟩
  · rw [hdiv]
    exact encodePacked_format henc hk hdvd fun v hv => le_trans (hmax v hv) (not_lt.mp h2)

theorem foldl_write (e : TimeEncoder) (ts : List Word) : ts.foldl write e = { e with ts := e.ts ++ ts } := by
  induction ts generalizing e with
  | nil => simp
  | cons t ts ih =>
    rw [foldl_cons, ih]
    simp [write]

end TimeEncoder

section Batch

variable {first : Word} {rest : List Word} {buf : Slice}

theorem foldl_fitDivisor_spec (ds : List Word) (hk : k ≤ 12) :
    ∃ j ≤ k, ds.foldl (fun div v => if div > 1 then fitDivisor v div else div) (divisor k) = divisor j ∧
      ∀ v ∈ ds, 10 ^ j ∣ v.toNat := by
  induction ds generalizing k with
  | nil => exact ⟨k, le_rfl, rfl, by simp⟩
  | cons d ds ih =>
    obtain ⟨i, hi, hstep, hd⟩ : ∃ i ≤ k, (if divisor k > 1 then fitDivisor d (divisor k) else divisor k) = divisor i ∧
        10 ^ i ∣ d.toNat := by
      split_ifs with h
      · exact fitDivisor_spec d hk
      · rw [divisor_gt_one hk, not_not] at h
        exact ⟨k, le_rfl, rfl, by rw [h]; exact one_dvd _⟩
    obtain ⟨j, hj, heq, hdvd⟩ := ih (k := i) (by omega)
    refine ⟨j, by omega, by rw [foldl_cons, hstep, heq], ?_⟩
    exact forall_mem_cons.mpr ⟨dvd_trans (pow_dvd_pow 10 hj) hd, hdvd⟩

theorem timeArrayEncodeRLE_format {t : Word} (hrep : deltas first (t :: rest) = replicate (t :: rest).length (t - first))
    (hlen : (t :: rest).length + 1 < 2 ^ 63) :
    ∃ b, timeArrayEncodeRLE buf (inPlaceDeltas (first :: t :: rest)) = .ok b ∧ TimeFormat b (first :: t :: rest) := by
  obtain ⟨k, hk, hfit, hdvd⟩ := fitDivisor_spec (t - first) (le_refl 12)
  have hlength : (inPlaceDeltas (first :: t :: rest)).length = (t :: rest).length + 1 := by simp [inPlaceDeltas]
  have hdelta : (inPlaceDeltas (first :: t :: rest)).getD 1 0 = t - first := rfl
  have hheader : (if divisor k > 1 then header timeCompressedRLE (divisor k) else timeCompressedRLE <<< 4) =
      headerOf timeCompressedRLE k := by
    rw [header_divisor _ hk]
    exact ite_divisor hk (by rintro rfl; exact BitVec.or_zero)
  have hscaled : (if divisor k > 1 then (t - first) / divisor k else t - first) = (t - first) / divisor k :=
    ite_divisor hk (by rintro rfl; exact div_divisor_zero _)
  unfold timeArrayEncodeRLE
  rw [hdelta, hlength, maxDivisor_eq]
  simp only [hfit]
  rw [hheader, hscaled, writeRLE_eq (buf.le_length_grow 31)]
  simp only [bind, Except.bind, take_left]
  exact ⟨_, rfl, format_rle hk hrep hdvd hlen⟩

theorem timeArrayEncodeRaw_format :
    ∃ b, timeArrayEncodeRaw buf (inPlaceDeltas (first :: rest)) = .ok b ∧ TimeFormat b (first :: rest) := by
  unfold timeArrayEncodeRaw
  simp only
  rw [writeUncompressed_eq (buf.le_length_grow _)]
  simp only [bind, Except.bind]
  rw [take_left' length_uncompressedFrame]
  exact ⟨_, rfl, format_raw first rest⟩

theorem timeArrayEncodePacked_format (hmax : ∀ v ∈ deltas first rest, v ≤ maxValue) :
    ∃ b, timeArrayEncodePacked buf (inPlaceDeltas (first :: rest)) = .ok b ∧ TimeFormat b (first :: rest) := by
  obtain ⟨k, hk, hfold, hdvd⟩ := foldl_fitDivisor_spec (deltas first rest) (le_refl 12)
  obtain ⟨ws, hencode, hws⟩ := encodeAll_spec (div_le_maxValue hmax (divisor k))
  have htail : (inPlaceDeltas (first :: rest)).tail = deltas first rest := rfl
  unfold timeArrayEncodePacked
  rw [htail, maxDivisor_eq, hfold]
  simp only
  rw [scaleDown_eq hk, hencode, header_divisor _ hk]
  simp only [bind, Except.bind]
  rw [writePacked_eq (buf.le_length_grow _)]
  simp only
  rw [take_left' length_packedFrame]
  exact ⟨_, rfl, format_packed hk hdvd hws⟩

/-- **The batch encoder** writes one of the formats. -/
theorem timeArrayEncodeAll_format (buf : Slice) (hlen : rest.length + 1 < 2 ^ 63) :
    ∃ b, timeArrayEncodeAll (first :: rest) buf = .ok b ∧ TimeFormat b (first :: rest) := by
  unfold timeArrayEncodeAll
  rw [if_neg (by simp)]
  simp only
  split_ifs with h1 h2
  · obtain ⟨t, rest, rfl⟩ := exists_cons_of_length_pos (l := rest) (by simpa [inPlaceDeltas] using h1.1)
    refine timeArrayEncodeRLE_format ?_ hlen
    rw [eq_replicate_iff]
    refine ⟨length_deltas _ _, forall_mem_cons.mpr ⟨rfl, fun v hv => ?_⟩⟩
    have := all_eq_true.mp h1.2 v hv
    exact (of_decide_eq_true this).symm
  · exact timeArrayEncodeRaw_format
  · exact timeArrayEncodePacked_format ((foldr_max_le_iff _ _).mp (not_lt.mp h2))

end Batch

/-! ## Round trip -/

/-- **Timestamps.** Whatever was in the encoder, the buffer and the decoder, both encoders write bytes that
both decoders read back, and the counter counts them. -/
theorem timestamps_round_trip (ts : List Word) (hne : ts ≠ []) -- the length of a slice is an `int`
    (hlen : ts.length < 2 ^ 63) (e : TimeEncoder) (buf : Slice) (d : TimeDecoder) :
    ∃ b₁ e' b₂, (ts.foldl TimeEncoder.write e.reset).getBytes = .ok (b₁, e') ∧ timeArrayEncodeAll ts buf = .ok b₂ ∧
      ∀ b ∈ [b₁, b₂], (∃ d', Collects TimeDecoder.next TimeDecoder.read (d.init b) ts d' ∧ d'.err = none) ∧
        timeArrayDecodeAll b = .ok ts ∧ countTimestamps b = .ok ts.length := by
  obtain ⟨first, rest, rfl⟩ := exists_cons_of_ne_nil hne
  obtain ⟨b₁, e', h₁, hf₁⟩ := getBytes_format (e := (first :: rest).foldl write e.reset)
    (by rw [foldl_write]; rfl) (by rw [foldl_write]; rfl) hlen
  obtain ⟨b₂, h₂, hf₂⟩ := timeArrayEncodeAll_format buf hlen
  have hf : ∀ b ∈ [b₁, b₂], TimeFormat b (first :: rest) := forall_mem_cons.mpr ⟨hf₁, forall_mem_singleton.mpr hf₂⟩
  refine ⟨b₁, e', b₂, h₁, h₂, fun b hb => ?_⟩
  exact ⟨(hf b hb).collects d, (hf b hb).timeArrayDecodeAll, (hf b hb).countTimestamps⟩

theorem timestamps_round_trip_unsorted : ∃ b₁ e' b₂,
    ([20, 10, 40].foldl TimeEncoder.write TimeEncoder.newTimeEncoder.reset).getBytes = .ok (b₁, e') ∧
    timeArrayEncodeAll [20, 10, 40] (Slice.ofList [1, 2, 3]) = .ok b₂ ∧ ∀ b ∈ [b₁, b₂],
      (∃ d', Collects TimeDecoder.next TimeDecoder.read (TimeDecoder.zero.init b) [20, 10, 40] d' ∧ d'.err = none) ∧
      timeArrayDecodeAll b = .ok [20, 10, 40] ∧ countTimestamps b = .ok 3 :=
  timestamps_round_trip [20, 10, 40] (by simp) (by decide) newTimeEncoder (Slice.ofList [1, 2, 3])
    zero

end Influxdb.Tsm1
