import Influxdb.Encoding.Simple8bCodec
import Influxdb.Tsm1.Integer

/-!
# IntegerCodec — encoded integers can be decoded

`IntegerFormat b vs` says that the bytes `b` are one of the encodings of the integers `vs`.  Both decoders read
every such encoding and the encoder that is written to one value at a time writes one.  So does the batch
encoder, except that its packed encoding is followed by what was in a buffer that is longer than needed; such
bytes are never decoded to the integers again.
-/

namespace Influxdb.Tsm1

open List Simple8b IntegerDecoder
open BitVec (ofNat)

open Simple8b (maxValue)

variable {vs : List Word}

/-! ## Zig-zag -/

theorem getElem_sign (x : Word) (i : ℕ) (hi : i < 64) : (x.sshiftRight 63)[i] = x.msb := by
  rw [BitVec.getElem_sshiftRight]
  split_ifs with h
  · obtain rfl : i = 0 := by omega
    rfl
  · rfl

theorem getElem_parity (v : Word) (i : ℕ) (hi : i < 64) : (((v &&& 1) <<< 63).sshiftRight 63)[i] = v[0] := by
  rw [getElem_sign, BitVec.msb_eq_getLsbD_last]
  simp

@[simp] theorem zigZagDecode_zigZagEncode (x : Word) : zigZagDecode (zigZagEncode x) = x := by
  ext i hi
  rw [zigZagDecode, BitVec.getElem_xor, getElem_parity, zigZagEncode, BitVec.getElem_xor, getElem_sign,
    BitVec.getElem_ushiftRight, BitVec.getLsbD_xor]
  by_cases h : i < 63
  · -- the bit of `x` next to it, flipped twice or not at all
    have hsign : (x.sshiftRight 63).getLsbD (1 + i) = x.msb := by
      rw [BitVec.getLsbD_eq_getElem (by omega), getElem_sign]
    rw [hsign]
    simp [show 1 + i < 64 by omega]
  · obtain rfl : i = 63 := by omega
    simp [BitVec.msb_eq_getLsbD_last]

theorem map_zigZagDecode (vs : List Word) : (vs.map zigZagEncode).map zigZagDecode = vs := by
  rw [map_map]
  exact (map_congr_left fun v _ => zigZagDecode_zigZagEncode v).trans (map_id vs)

variable (first : Word)

theorem zigZagDeltas_cons (rest : List Word) :
    zigZagDeltas (first :: rest) = zigZagEncode first :: (deltas first rest).map zigZagEncode := by
  have h : first - 0 = first := BitVec.sub_zero first
  rw [zigZagDeltas, deltas, map_cons, h]

theorem length_zigZagDeltas (vs : List Word) : (zigZagDeltas vs).length = vs.length := by
  rw [zigZagDeltas, length_map, length_deltas]

/-! ## The formats -/

/-- The bytes are an encoding of the integers. -/
inductive IntegerFormat : List Byte → List Word → Prop
  | nil : IntegerFormat [] []
  | raw (vs : List Word) : IntegerFormat (uncompressedFrame (intUncompressed <<< 4) (zigZagDeltas vs)) vs
  | rle (first delta : Word) (n : ℕ) (hn : n + 1 < 2 ^ 63) :
      IntegerFormat (rleFrame (intCompressedRLE <<< 4) (zigZagEncode first) (zigZagEncode delta) (BitVec.ofNat 64 n))
        (runLength first delta (n + 1))
  | packed (first : Word) (rest ws : List Word)
      (hws : ws.flatMap Simple8b.decode = (deltas first rest).map zigZagEncode) :
      IntegerFormat (packedFrame (intCompressedSimple <<< 4) (zigZagEncode first) ws) (first :: rest)

/-! ## Decoding -/

variable {b : List Byte} {vs : List Word} {n : ℕ}

theorem encoding_uncompressed : (intUncompressed <<< 4 >>> 4 : Byte) = 0 := by decide

theorem encoding_simple : (intCompressedSimple <<< 4 >>> 4 : Byte) = 1 := by decide

theorem encoding_rle : (intCompressedRLE <<< 4 >>> 4 : Byte) = 2 := by decide

theorem frame_length_drop (header : Byte) (first : Word) (rest : List Byte) :
    ¬ ((header :: (putUint64 first ++ rest)).drop 1).length < 8 := by
  rw [drop_succ_cons, drop_zero, length_append, length_putUint64]
  omega

theorem runLength_zero (n : ℕ) : runLength first 0 n = replicate n first := by
  have h : first + 0 = first := BitVec.add_zero first
  induction n with
  | zero => rfl
  | succ n ih => rw [runLength, h, ih, replicate_succ]

theorem ofNat_succ (n : ℕ) : ofNat 64 n + 1 = ofNat 64 (n + 1) := (BitVec.ofNat_add n 1).symm

theorem integerBatchDecodeAllRLE_frame (hn : n + 1 < 2 ^ 63) (first delta : Word) :
    integerBatchDecodeAllRLE (rleFrame (intCompressedRLE <<< 4) (zigZagEncode first) (zigZagEncode delta)
      (ofNat 64 n)) = .ok (runLength first delta (n + 1)) := by
  obtain ⟨hint, hnat⟩ := toInt_count hn
  unfold integerBatchDecodeAllRLE
  rw [rleFrame, if_neg (frame_length_drop _ _ _), frame_first, frame_delta]
  simp only [Int.toNat_natCast]
  rw [if_neg (not_length_putUvarint_le _), frame_count]
  rw [if_neg (not_length_putUvarint_le _), ofNat_succ, hint, if_neg (by omega), hnat, zigZagDecode_zigZagEncode,
    zigZagDecode_zigZagEncode]
  split_ifs with h
  · rw [h, runLength_zero]
  · rfl

theorem integerArrayDecodeAll_simple (p : List Byte) :
    integerArrayDecodeAll (intCompressedSimple <<< 4 :: (putUint64 first ++ p)) =
      if p.length % 8 > 0 then .error ("invalid slice len remaining: " ++ toString (p.length % 8))
      else .ok (zigZagDecode first :: sums (zigZagDecode first) (((words p).flatMap decode).map zigZagDecode)) := by
  unfold integerArrayDecodeAll
  rw [if_neg (by simp), headD_cons, encoding_simple, switchEncoding_one]
  unfold integerBatchDecodeAllSimple countBytes decodeBytesBigEndian
  rw [if_neg (frame_length_drop _ _ _), frame_first, frame_rest, length_flatMap_decode, Nat.zero_add]
  by_cases h : p.length % 8 > 0
  · rw [if_pos h, if_pos h]
    rfl
  · rw [if_neg h, if_neg h, if_neg (by omega)]
    simp only [bind, Except.bind]
    rw [if_neg (by simp)]
    rfl

/-- **The batch decoder** reads every format. -/
theorem IntegerFormat.integerArrayDecodeAll (h : IntegerFormat b vs) : integerArrayDecodeAll b = .ok vs := by
  cases h with
  | nil => rfl
  | raw vs =>
    unfold Tsm1.integerArrayDecodeAll integerBatchDecodeAllUncompressed
    rw [uncompressedFrame, if_neg (by simp), headD_cons, encoding_uncompressed, switchEncoding_zero]
    simp only [drop_succ_cons, drop_zero]
    rw [length_putWords, if_neg (by omega), words_putWords, zigZagDeltas, map_zigZagDecode, sums_deltas]
  | rle first delta n hn =>
    unfold Tsm1.integerArrayDecodeAll
    rw [if_neg (by simp [rleFrame]), integerBatchDecodeAllRLE_frame hn, rleFrame, headD_cons, encoding_rle,
      switchEncoding_two]
  | packed first rest ws hws =>
    rw [packedFrame, integerArrayDecodeAll_simple, length_putWords, if_neg (by omega), words_putWords,
      zigZagDecode_zigZagEncode, hws, map_zigZagDecode, sums_deltas]

/-! ## The decoder, one value at a time -/

namespace IntegerDecoder

/-- The values of the last word that have not been read. -/
def left (d : IntegerDecoder) : List Word := (d.values.take d.n.toNat).drop (d.i + 1).toNat

/-- With this encoding type, `decodeMore` takes the next word and unpacks it by `unpack`. -/
def Unpacks (unpack : Word → List Word) (encoding : Byte) (first : Bool) : Prop :=
  ∀ d : IntegerDecoder, d.encoding = encoding → d.first = first → (d.bytes = [] → d.decodeMore = d) ∧
      ∀ v rest, d.bytes = putUint64 v ++ rest → d.decodeMore = d.fetch (unpack v)

/-- The words are still to be decoded, each one by `unpack`. -/
structure Reading (unpack : Word → List Word) (d : IntegerDecoder) (ws : List Word) : Prop where
  err : d.err = none
  rle : d.encoding ≠ intCompressedRLE
  bytes : d.bytes = putWords ws
  i : 0 ≤ d.i
  n : d.n.toNat ≤ d.values.length
  unpacks : Unpacks unpack d.encoding d.first

variable {unpack : Word → List Word} {d : IntegerDecoder} {v : Word} {ws : List Word}

theorem Reading.next_of_lt (h : Reading unpack d ws) (hlt : d.i + 1 < d.n) : next d = (true, { d with i := d.i + 1 }) ∧
      d.left = d.values.getD (d.i + 1).toNat 0 :: ({ d with i := d.i + 1 } : IntegerDecoder).left := by
  have hi := h.i
  have hn := h.n
  refine ⟨?_, ?_⟩
  · rw [next, if_neg (by omega)]
    simp only
    rw [if_neg (by omega), h.err]
    simp [hlt]
  · have hlength : (d.i + 1).toNat < (d.values.take d.n.toNat).length := by
      rw [length_take]
      omega
    have hsucc : (d.i + 1 + 1).toNat = (d.i + 1).toNat + 1 := by omega
    rw [left, left, drop_eq_getElem_cons hlength, getElem_take, getD_eq_getElem _ _ (by omega), hsucc]

theorem Reading.next_of_word (h : Reading unpack d (v :: ws)) (hle : d.n ≤ d.i + 1) (hpos : 0 < (unpack v).length) :
    next d = (true, d.fetch (unpack v)) := by
  have hbytes : d.bytes.length ≠ 0 := by
    rw [h.bytes, length_putWords, length_cons]
    omega
  have hmore : { d with i := d.i + 1 }.decodeMore = d.fetch (unpack v) :=
    (h.unpacks { d with i := d.i + 1 } rfl rfl).2 v (putWords ws) h.bytes
  rw [next, if_neg (by simp [hbytes])]
  simp only
  rw [if_pos hle, hmore]
  simp [fetch, h.err, hpos]

theorem Reading.next_of_end (h : Reading unpack d []) (hle : d.n ≤ d.i + 1) : ∃ i, next d = (false, { d with i := i }) := by
  have hmore : { d with i := d.i + 1 }.decodeMore = { d with i := d.i + 1 } :=
    (h.unpacks { d with i := d.i + 1 } rfl rfl).1 h.bytes
  rw [next]
  by_cases hend : d.i ≥ d.n ∧ d.bytes.length = 0
  · rw [if_pos hend]
    exact ⟨d.i, rfl⟩
  · refine ⟨d.i + 1, ?_⟩
    rw [if_neg hend]
    simp only
    rw [if_pos hle, hmore]
    simp [hle]

theorem left_fetch (d : IntegerDecoder) (vs : List Word) : (d.fetch vs).left = vs.tail := by
  show (take (vs.length : Int).toNat (vs ++ d.values.drop vs.length)).drop 1 = vs.tail
  rw [Int.toNat_natCast, take_left, drop_one]

theorem left_eq_nil (hle : d.n ≤ d.i + 1) : d.left = [] := by
  refine drop_eq_nil_of_le ?_
  rw [length_take]
  omega

theorem read_eq (h : d.encoding ≠ intCompressedRLE) : read d = (d.prev + zigZagDecode (d.values.getD d.i.toNat 0),
      { d with prev := d.prev + zigZagDecode (d.values.getD d.i.toNat 0) }) := by
  rw [read, if_neg h, BitVec.add_comm]

theorem Reading.withPrev (h : Reading unpack d ws) (prev : Word) : Reading unpack { d with prev := prev } ws :=
  { h with }

theorem Reading.succ (h : Reading unpack d ws) : Reading unpack { d with i := d.i + 1 } ws :=
  ⟨h.err, h.rle, h.bytes, Int.add_nonneg h.i (by decide), h.n, h.unpacks⟩

theorem Reading.fetch (h : Reading unpack d (v :: ws)) : Reading unpack (d.fetch (unpack v)) ws := by
  refine ⟨h.err, h.rle, ?_, le_rfl, ?_, h.unpacks⟩
  · show d.bytes.drop 8 = putWords ws
    rw [h.bytes, putWords_cons, drop_left' (length_putUint64 v)]
  · show ((unpack v).length : Int).toNat ≤ (unpack v ++ d.values.drop (unpack v).length).length
    rw [Int.toNat_natCast, length_append]
    omega

/-- **Words.** What is left of the last word is read, and then the other words. -/
theorem Reading.collects (hpos : ∀ v, 0 < (unpack v).length) (h : Reading unpack d ws) :
    ∃ d', Collects next read d (sums d.prev ((d.left ++ ws.flatMap unpack).map zigZagDecode)) d' ∧ d'.err = none := by
  -- each value that is read makes this list shorter
  induction hk : (d.left ++ ws.flatMap unpack).length using Nat.strongRecOn generalizing d ws with
  | ind k ih =>
    subst hk
    by_cases hlt : d.i + 1 < d.n
    · obtain ⟨hnext, hleft⟩ := h.next_of_lt hlt
      have hread := read_eq (d := { d with i := d.i + 1 }) h.rle
      obtain ⟨d', hrest, herr⟩ := ih _ (by rw [hleft, cons_append]; exact Nat.lt_succ_self _)
        (h.succ.withPrev (d.prev + zigZagDecode (d.values.getD (d.i + 1).toNat 0))) rfl
      refine ⟨d', ?_, herr⟩
      rw [hleft, cons_append, map_cons, sums]
      exact collects_of_true hnext hread hrest
    · have hle : d.n ≤ d.i + 1 := not_lt.mp hlt
      rw [left_eq_nil hle, nil_append]
      cases ws with
      | nil =>
        obtain ⟨i, hnext⟩ := h.next_of_end hle
        exact ⟨_, collects_of_false hnext, h.err⟩
      | cons v ws =>
        obtain ⟨x, xs, hx⟩ := exists_cons_of_length_pos (hpos v)
        have hread := read_eq (d := d.fetch (unpack v)) h.rle
        have hvalue : (d.fetch (unpack v)).values.getD (d.fetch (unpack v)).i.toNat 0 = x := by
          show (unpack v ++ d.values.drop (unpack v).length).getD 0 0 = x
          rw [hx]
          rfl
        have hprev : (d.fetch (unpack v)).prev = d.prev := rfl
        rw [hvalue, hprev] at hread
        have hleft : ({ d.fetch (unpack v) with prev := d.prev + zigZagDecode x } : IntegerDecoder).left = xs := by
          have h := left_fetch d (unpack v)
          rwa [hx, tail_cons, ← hx] at h
        obtain ⟨d', hrest, herr⟩ := ih (xs ++ ws.flatMap unpack).length
          (by rw [left_eq_nil hle, flatMap_cons, hx]; simp)
          (h.fetch.withPrev (d.prev + zigZagDecode x)) (by rw [hleft])
        rw [hleft] at hrest
        refine ⟨d', ?_, herr⟩
        rw [flatMap_cons, hx, cons_append, map_cons, sums]
        exact collects_of_true (h.next_of_word hle (hpos v)) hread hrest

theorem unpacks_uncompressed (first : Bool) : Unpacks (fun v => [v]) intUncompressed first := by
  intro d hencoding _
  have hmore : d.decodeMore = d.decodeUncompressed := by rw [decodeMore, hencoding, intUncompressed, switchEncoding_zero]
  rw [hmore, decodeUncompressed]
  refine ⟨fun hbytes => if_pos (by rw [hbytes]; rfl), fun v rest hbytes => ?_⟩
  rw [hbytes, length_append, length_putUint64, if_neg (by omega), if_neg (by omega), uint64_putUint64_append]

theorem unpacks_simple : Unpacks decode intCompressedSimple false := by
  intro d hencoding hfirst
  have hmore : d.decodeMore = d.decodePacked := by rw [decodeMore, hencoding, intCompressedSimple, switchEncoding_one]
  rw [hmore, decodePacked]
  refine ⟨fun hbytes => if_pos (by rw [hbytes]; rfl), fun v rest hbytes => ?_⟩
  rw [hbytes, length_append, length_putUint64, if_neg (by omega), if_neg (by omega), if_neg (by simp [hfirst]),
    uint64_putUint64_append]

theorem setBytes_cons (d : IntegerDecoder) (header : Byte) (bytes : List Byte) : d.setBytes (header :: bytes) =
      { values := d.values, bytes := bytes, i := 0, n := 0, prev := 0, first := true, rleFirst := 0, rleDelta := 0,
        encoding := header >>> 4, err := none } := by
  rw [setBytes, if_pos (by simp)]
  rfl

theorem next_start {t : IntegerDecoder} (hi : d.i = 0) (hn : d.n = 0) (hbytes : d.bytes ≠ [])
    (hmore : { d with i := 1 }.decodeMore = t) (herr : t.err = none) (hlt : t.i < t.n) : next d = (true, t) := by
  have h1 : d.i + 1 = 1 := by rw [hi]; rfl
  rw [next, if_neg (by simp [hbytes])]
  simp only
  rw [h1, if_pos (by rw [hn]; decide), hmore, herr]
  simp [hlt]

theorem putUint64_append_ne_nil (v : Word) (rest : List Byte) : putUint64 v ++ rest ≠ [] :=
  append_ne_nil_of_left_ne_nil (ne_nil_of_length_pos (by rw [length_putUint64]; decide)) _

theorem collects_rle (herr : d.err = none) (hencoding : d.encoding = intCompressedRLE) (hbytes : d.bytes = []) :
    ∀ m i : ℕ, d.i = i → d.n = i + 1 + m → ∃ d', Collects next read d
      ((range' (i + 1) m).map fun k => zigZagDecode d.rleFirst + ofNat 64 k * zigZagDecode d.rleDelta) d' ∧
        d'.err = none := by
  intro m
  induction m generalizing d with
  | zero =>
    intro i hi hn
    have hmore : { d with i := d.i + 1 }.decodeMore = { d with i := d.i + 1 } := by
      rw [decodeMore, hencoding, intCompressedRLE, switchEncoding_two, decodeRLE, hbytes]
      rfl
    refine ⟨{ d with i := d.i + 1 }, collects_of_false ?_, herr⟩
    rw [next, if_neg (by omega)]
    simp only
    rw [if_pos (by omega), hmore]
    simp only [Prod.mk.injEq, Bool.and_eq_false_iff, decide_eq_false_iff_not, and_true]
    omega
  | succ m ih =>
    intro i hi hn
    obtain ⟨d', hrest, herr'⟩ := ih (d := { d with i := d.i + 1 }) herr hencoding hbytes (i + 1)
      (by simp only; omega) (by simp only; omega)
    refine ⟨d', ?_, herr'⟩
    rw [range'_succ, map_cons]
    refine collects_of_true (t := { d with i := d.i + 1 }) ?_ ?_ hrest
    · rw [next, if_neg (by omega)]
      simp only
      rw [if_neg (by omega), herr]
      simp only [Prod.mk.injEq, decide_true, Bool.true_and, decide_eq_true_eq, and_true]
      omega
    · have hindex : d.i + 1 = ((i + 1 : ℕ) : Int) := by omega
      rw [read, if_pos hencoding]
      rw [hindex, BitVec.ofInt_natCast]

theorem decodeRLE_frame (hn : n + 1 < 2 ^ 63) (first delta : Word)
    (hbytes : d.bytes = putUint64 first ++ (putUvarint delta ++ putUvarint (ofNat 64 n))) :
    d.decodeRLE = { d with rleFirst := first, rleDelta := delta, n := n + 1, i := 0, bytes := [] } := by
  have hlength : ¬ d.bytes.length < 8 := by
    rw [hbytes, length_append, length_putUint64]
    omega
  have hfirst : uint64 d.bytes = first := by rw [hbytes, uint64_putUint64_append]
  have hdelta : uvarint (d.bytes.drop 8) = (delta, ((putUvarint delta).length : Int)) := by
    rw [hbytes]
    exact frame_delta 0 first delta _
  have hcount : uvarint (d.bytes.drop (8 + (putUvarint delta).length)) =
      (ofNat 64 n, ((putUvarint (ofNat 64 n)).length : Int)) := by
    have h := frame_count 0 first delta (ofNat 64 n)
    rwa [show 9 + (putUvarint delta).length = 8 + (putUvarint delta).length + 1 by omega, drop_succ_cons,
      ← hbytes] at h
  rw [decodeRLE, if_neg (by omega), if_neg hlength, hfirst, hdelta]
  simp only [Int.toNat_natCast]
  rw [if_neg (not_length_putUvarint_le _), hcount]
  rw [if_neg (not_length_putUvarint_le _), ofNat_succ, (toInt_count hn).1]
  rfl

theorem collects_uncompressedFrame (d : IntegerDecoder) (vs : List Word) :
    ∃ d', Collects next read (d.setBytes (uncompressedFrame (intUncompressed <<< 4) (zigZagDeltas vs))) vs d' ∧
      d'.err = none := by
  rw [uncompressedFrame, setBytes_cons, encoding_uncompressed]
  set d₀ : IntegerDecoder := ⟨d.values, putWords (zigZagDeltas vs), 0, 0, 0, true, 0, 0, 0, none⟩
  have hrle : d₀.encoding ≠ intCompressedRLE := show (0 : Byte) ≠ 2 by decide
  have hreading : Reading (fun v => [v]) d₀ (zigZagDeltas vs) :=
    ⟨rfl, hrle, rfl, le_rfl, Nat.zero_le _, unpacks_uncompressed true⟩
  obtain ⟨d', hd', herr⟩ := hreading.collects fun v => (length_singleton (a := v)).symm ▸ Nat.one_pos
  rw [left_eq_nil (show (0 : Int) ≤ 0 + 1 by decide), nil_append, flatMap_singleton', zigZagDeltas,
    map_zigZagDecode] at hd'
  refine ⟨d', ?_, herr⟩
  rwa [sums_deltas] at hd'

theorem collects_rleFrame (d : IntegerDecoder) (hn : n + 1 < 2 ^ 63) (first delta : Word) :
    ∃ d', Collects next read (d.setBytes (rleFrame (intCompressedRLE <<< 4) (zigZagEncode first) (zigZagEncode delta)
      (ofNat 64 n))) (runLength first delta (n + 1)) d' ∧ d'.err = none := by
  rw [rleFrame, setBytes_cons, encoding_rle, runLength_succ]
  set d₀ : IntegerDecoder := ⟨d.values, [], 0, n + 1, 0, true, zigZagEncode first, zigZagEncode delta, 2, none⟩
  have hencoding : d₀.encoding = intCompressedRLE := rfl
  obtain ⟨d', hd', herr⟩ := collects_rle (d := d₀) rfl hencoding rfl n 0 rfl
    (show (n : Int) + 1 = (0 : ℕ) + 1 + n by omega)
  have hsums := sums_replicate first delta n 0
  have hzero : first + ofNat 64 0 * delta = first := by simp
  rw [hzero] at hsums
  rw [hsums]
  refine ⟨d', collects_of_true (t := d₀) (u := d₀) ?_ ?_ (by simpa [d₀] using hd'), herr⟩
  · refine next_start rfl rfl (putUint64_append_ne_nil _ _) ?_ rfl (show (0 : Int) < n + 1 by omega)
    rw [decodeMore, switchEncoding_two]
    exact decodeRLE_frame hn _ _ rfl
  · rw [read, if_pos hencoding]
    simp [d₀]

theorem collects_packedFrame (d : IntegerDecoder) {first : Word} {rest ws : List Word}
    (hws : ws.flatMap decode = (deltas first rest).map zigZagEncode) :
    ∃ d', Collects next read (d.setBytes (packedFrame (intCompressedSimple <<< 4) (zigZagEncode first) ws))
      (first :: rest) d' ∧ d'.err = none := by
  rw [packedFrame, setBytes_cons, encoding_simple]
  -- after the first word, which is not packed
  set d₀ : IntegerDecoder := ⟨zigZagEncode first :: d.values.drop 1, putWords ws, 0, 1, 0, false, 0, 0, 1, none⟩
  have hrle : d₀.encoding ≠ intCompressedRLE := show (1 : Byte) ≠ 2 by decide
  have hreading : Reading decode { d₀ with prev := first } ws :=
    ⟨rfl, hrle, rfl, le_rfl, Nat.succ_pos _, unpacks_simple⟩
  obtain ⟨d', hd', herr⟩ := hreading.collects fun v => by
    rw [length_decode]
    exact packingOf_pos v
  rw [left_eq_nil (show (1 : Int) ≤ 0 + 1 by decide), nil_append, hws, map_zigZagDecode, sums_deltas] at hd'
  refine ⟨d', collects_of_true (t := d₀) (u := { d₀ with prev := first }) ?_ ?_ hd', herr⟩
  · refine next_start rfl rfl (putUint64_append_ne_nil _ _) ?_ rfl (show (0 : Int) < 1 by decide)
    rw [decodeMore, switchEncoding_one, decodePacked]
    simp only [length_append, length_putUint64]
    rw [if_neg (by omega), if_neg (by omega), if_pos trivial, uint64_putUint64_append]
    simp only [fetch, d₀, drop_left' (length_putUint64 _)]
    rfl
  · rw [read_eq hrle]
    simp [d₀]

end IntegerDecoder

/-- **The decoder** reads every format. -/
theorem IntegerFormat.collects (h : IntegerFormat b vs) (d : IntegerDecoder) :
    ∃ d', Collects next read (d.setBytes b) vs d' ∧ d'.err = none := by
  cases h with
  | nil => exact ⟨_, collects_of_false rfl, rfl⟩
  | raw vs => exact d.collects_uncompressedFrame vs
  | rle first delta n hn => exact d.collects_rleFrame hn first delta
  | packed first rest ws hws => exact d.collects_packedFrame hws

/-! ## Encoding -/

section Formats

variable {first t : Word} {rest : List Word}

theorem format_runLength (hrun : ∀ v ∈ (zigZagDeltas (first :: t :: rest)).tail, v = zigZagEncode (t - first))
    (hlen : (first :: t :: rest).length < 2 ^ 63) :
    IntegerFormat (rleFrame (intCompressedRLE <<< 4) (zigZagEncode first) (zigZagEncode (t - first))
      (ofNat 64 (t :: rest).length)) (first :: t :: rest) := by
  have hdeltas : deltas first (t :: rest) = replicate (t :: rest).length (t - first) := by
    refine eq_replicate_iff.mpr ⟨length_deltas _ _, fun v hv => Function.LeftInverse.injective zigZagDecode_zigZagEncode (hrun _ ?_)⟩
    rw [zigZagDeltas_cons]
    exact mem_map_of_mem hv
  have h := IntegerFormat.rle first (t - first) (t :: rest).length hlen
  rwa [runLength_succ, ← hdeltas, sums_deltas] at h

theorem getD_zigZagDeltas (first t : Word) (rest : List Word) :
    (zigZagDeltas (first :: t :: rest)).getD 1 0 = zigZagEncode (t - first) := by
  rw [zigZagDeltas_cons]
  rfl

end Formats

namespace IntegerEncoder

variable {first : Word} {rest : List Word} {e : IntegerEncoder}

theorem run_concat {values : List Word} {enc : Word} (hrun : ∀ v ∈ values.tail, v = values.getD 1 0)
    (hlast : values.length > 1 → values.getLastD 0 = enc) :
    ∀ v ∈ (values ++ [enc]).tail, v = (values ++ [enc]).getD 1 0 := by
  rcases values with _ | ⟨a, _ | ⟨b, l⟩⟩
  · simp
  · simp
  · have hb : enc = b := by
      rw [← hlast (by simp), getLastD_cons, getLastD_eq_getLast?, getLast?_eq_some_getLast (by simp)]
      exact hrun _ (getLast_mem _)
    exact forall_mem_append.mpr ⟨hrun, forall_mem_singleton.mpr hb⟩

theorem foldl_write (e : IntegerEncoder) (vs : List Word) :
    (vs.foldl write e.reset).prev = vs.getLastD 0 ∧ (vs.foldl write e.reset).values = zigZagDeltas vs ∧
      ((vs.foldl write e.reset).rle = true → ∀ v ∈ (zigZagDeltas vs).tail, v = (zigZagDeltas vs).getD 1 0) := by
  induction vs using reverseRecOn with
  | nil => exact ⟨rfl, rfl, fun _ v hv => absurd hv not_mem_nil⟩
  | append_singleton vs v ih =>
    obtain ⟨hprev, hvalues, hrun⟩ := ih
    have hconcat : zigZagDeltas (vs ++ [v]) = zigZagDeltas vs ++ [zigZagEncode (v - vs.getLastD 0)] := by
      rw [zigZagDeltas, deltas_concat, map_append]
      rfl
    rw [foldl_append, foldl_cons, foldl_nil, hconcat]
    refine ⟨by simp [write], by simp only [write, hprev, hvalues], fun hrle => ?_⟩
    simp only [write, hprev, hvalues] at hrle
    split_ifs at hrle with hgt
    · rw [Bool.and_eq_true, beq_iff_eq] at hrle
      exact run_concat (hrun hrle.1) fun _ => hrle.2
    · exact run_concat (hrun hrle) fun h => absurd h hgt

theorem encodeRLE_eq (e : IntegerEncoder) : e.encodeRLE =
    .ok (rleFrame (intCompressedRLE <<< 4) (e.values.headD 0) (e.values.getD 1 0)
      (ofNat 64 (e.values.length - 1))) := by
  unfold encodeRLE
  rw [writeRLE_eq (by rw [length_replicate])]
  simp only [bind, Except.bind, take_left]
  rfl

theorem encodeUncompressed_eq (hne : e.values ≠ []) :
    e.encodeUncompressed = .ok (uncompressedFrame (intUncompressed <<< 4) e.values) := by
  unfold encodeUncompressed
  rw [if_neg (by simpa using hne), writeUncompressed_eq (by rw [length_replicate]),
    drop_eq_nil_of_le (by rw [length_replicate]), append_nil]

theorem encodePacked_eq (hne : e.values ≠ []) {ws : List Word} (hws : encodeAll e.values.tail = .ok ws) :
    e.encodePacked = .ok (packedFrame (intCompressedSimple <<< 4) (e.values.headD 0) ws) := by
  unfold encodePacked
  rw [if_neg (by simpa using hne), hws]
  simp only [bind, Except.bind]
  rw [writePacked_eq (by rw [length_replicate]), drop_eq_nil_of_le (by rw [length_replicate]), append_nil]

/-- **The encoder** writes one of the formats. -/
theorem getBytes_format (e : IntegerEncoder) (vs : List Word) (hlen : vs.length < 2 ^ 63) :
    ∃ b, (vs.foldl write e.reset).getBytes = .ok b ∧ IntegerFormat b vs := by
  obtain ⟨-, hvalues, hrun⟩ := foldl_write e vs
  generalize vs.foldl write e.reset = e' at hvalues hrun
  unfold getBytes
  cases vs with
  | nil =>
    refine ⟨[], ?_, .nil⟩
    have hvalues : e'.values = [] := hvalues
    rw [hvalues, if_neg (by simp), if_neg (by simp), encodePacked, hvalues]
    rfl
  | cons first rest =>
    have hne : e'.values ≠ [] := by
      rw [hvalues, zigZagDeltas_cons]
      exact cons_ne_nil _ _
    split_ifs with hrle hmax
    · obtain ⟨t, rest, rfl⟩ : ∃ t rest', rest = t :: rest' := by
        refine exists_cons_of_length_pos ?_
        have := hrle.2
        rw [hvalues, length_zigZagDeltas, length_cons] at this
        omega
      refine ⟨_, encodeRLE_eq e', ?_⟩
      rw [hvalues, getD_zigZagDeltas, length_zigZagDeltas, zigZagDeltas_cons, headD_cons]
      refine format_runLength (fun v hv => ?_) hlen
      rw [← getD_zigZagDeltas]
      exact hrun hrle.1 v hv
    · refine ⟨_, encodeUncompressed_eq hne, ?_⟩
      rw [hvalues]
      exact .raw _
    · have hsmall : ∀ v ∈ e'.values.tail, v ≤ maxValue := by
        intro v hv
        simp only [any_eq_true, decide_eq_true_eq, not_exists, not_and, not_lt] at hmax
        exact hmax v (mem_of_mem_tail hv)
      obtain ⟨ws, hencode, hws⟩ := encodeAll_spec hsmall
      refine ⟨_, encodePacked_eq hne hencode, ?_⟩
      rw [hvalues, zigZagDeltas_cons, headD_cons]
      rw [hvalues, zigZagDeltas_cons, tail_cons] at hws
      exact .packed first rest ws hws

end IntegerEncoder

section Batch

variable {first : Word} {rest : List Word} {buf : Slice}

/-- The deltas after the first are all the same, and there are enough of them to gain by that. -/
def IsRunLength (vs : List Word) : Prop :=
  vs.length > 2 ∧ ∀ v ∈ (zigZagDeltas vs).drop 2, (zigZagDeltas vs).getD 1 0 = v

/-- A delta after the first cannot be packed. -/
def IsTooLarge (vs : List Word) : Prop := ∃ v ∈ (zigZagDeltas vs).tail, v > maxValue

/-- The length of the packed encoding: a byte, the first value and the words of the deltas after it. -/
def packedSize (vs : List Word) : ℕ :=
  1 + (((Simple8b.encodeAll (zigZagDeltas vs).tail).toOption.getD []).length + 1) * 8

theorem rle_iff (vs : List Word) : ((zigZagDeltas vs).length > 2 ∧
    ((zigZagDeltas vs).drop 2).all fun v => (zigZagDeltas vs).getD 1 0 = v) ↔ IsRunLength vs := by
  rw [IsRunLength, length_zigZagDeltas, all_eq_true]
  simp only [decide_eq_true_eq]

theorem max_iff (vs : List Word) :
    (zigZagDeltas vs).tail.foldr (fun v max => if v > max then v else max) 0 > maxValue ↔ IsTooLarge vs := by
  rw [IsTooLarge, gt_iff_lt, ← not_le, foldr_max_le_iff]
  simp only [not_forall, not_le, exists_prop, gt_iff_lt]

theorem encodeAll_of_runLength (h : IsRunLength vs) (hlen : vs.length < 2 ^ 63) (buf : Slice) :
    ∃ b, integerArrayEncodeAll vs buf = .ok b ∧ IntegerFormat b vs := by
  rcases vs with _ | ⟨first, _ | ⟨t, rest⟩⟩
  · exact absurd h.1 (by simp)
  · exact absurd h.1 (by simp)
  unfold integerArrayEncodeAll
  rw [if_neg (by simp)]
  rw [if_pos ((rle_iff _).mpr h), writeRLE_eq (buf.le_length_grow 31), getD_zigZagDeltas, length_zigZagDeltas]
  simp only [bind, Except.bind, take_left]
  refine ⟨_, rfl, ?_⟩
  rw [zigZagDeltas_cons, headD_cons]
  refine format_runLength ?_ hlen
  have hall := h.2
  rw [getD_zigZagDeltas, zigZagDeltas_cons] at hall
  rw [zigZagDeltas_cons]
  exact forall_mem_cons.mpr ⟨rfl, fun v hv => (hall v hv).symm⟩

theorem encodeAll_of_tooLarge (hne : vs ≠ []) (hrle : ¬ IsRunLength vs) (h : IsTooLarge vs)
    (buf : Slice) : ∃ b, integerArrayEncodeAll vs buf = .ok b ∧ IntegerFormat b vs := by
  unfold integerArrayEncodeAll
  rw [if_neg (by simpa using hne)]
  simp only
  rw [if_neg (mt (rle_iff vs).mp hrle), if_pos ((max_iff vs).mpr h), writeUncompressed_eq (buf.le_length_grow _)]
  simp only [bind, Except.bind]
  rw [take_left' length_uncompressedFrame]
  exact ⟨_, rfl, .raw vs⟩

theorem encodeAll_of_packed (hrle : ¬ IsRunLength (first :: rest)) (hmax : ¬ IsTooLarge (first :: rest)) (buf : Slice) :
    ∃ ws, ws.flatMap decode = (deltas first rest).map zigZagEncode ∧
      packedSize (first :: rest) = 1 + (ws.length + 1) * 8 ∧ integerArrayEncodeAll (first :: rest) buf =
        .ok (packedFrame (intCompressedSimple <<< 4) (zigZagEncode first) ws ++
          (buf.grow (1 + (ws.length + 1) * 8)).drop (1 + (ws.length + 1) * 8)) := by
  have hsmall : ∀ v ∈ (zigZagDeltas (first :: rest)).tail, v ≤ maxValue := fun v hv =>
    not_lt.mp fun h => hmax ⟨v, hv, h⟩
  obtain ⟨ws, hencode, hws⟩ := encodeAll_spec hsmall
  refine ⟨ws, ?_, ?_, ?_⟩
  · rw [hws, zigZagDeltas_cons, tail_cons]
  · rw [packedSize, hencode]
    rfl
  · unfold integerArrayEncodeAll
    rw [if_neg (by simp)]
    rw [if_neg (mt (rle_iff _).mp hrle), if_neg (mt (max_iff _).mp hmax), hencode]
    simp only [bind, Except.bind]
    rw [writePacked_eq (buf.le_length_grow _), zigZagDeltas_cons, headD_cons]

theorem integerArrayDecodeAll_stale {ws : List Word} {old : List Byte}
    (hws : ws.flatMap decode = (deltas first rest).map zigZagEncode) (hold : old ≠ []) :
    integerArrayDecodeAll (packedFrame (intCompressedSimple <<< 4) (zigZagEncode first) ws ++ old) ≠
      .ok (first :: rest) := by
  rw [packedFrame, cons_append, append_assoc, integerArrayDecodeAll_simple, length_append, length_putWords]
  have hpos := length_pos_of_ne_nil hold
  split_ifs with h
  · exact fun h => by cases h
  · -- whole words: each of them adds at least one value
    intro heq
    rw [Except.ok.injEq, cons.injEq] at heq
    have hlength := congrArg length heq.2
    have hvalues := congrArg length hws
    rw [length_map, length_deltas] at hvalues
    obtain ⟨v, ws', hwords⟩ : ∃ v ws', words old = v :: ws' := ⟨_, _, words_of_le (by omega)⟩
    have hv := packingOf_pos v
    rw [length_sums, length_map, words_append, hwords, flatMap_append, length_append, hvalues,
      flatMap_cons, length_append, length_decode] at hlength
    omega

end Batch

/-! ## Round trip -/

/-- What either encoder writes, either decoder reads back. -/
def RoundTrips (encodeAll : List Word → Slice → Except String (List Byte))
    (decodeAll : List Byte → Except String (List Word)) (vs : List Word) (e : IntegerEncoder) (buf : Slice)
    (d : IntegerDecoder) : Prop :=
  ∃ b₁ b₂, (vs.foldl IntegerEncoder.write e.reset).getBytes = .ok b₁ ∧ encodeAll vs buf = .ok b₂ ∧ ∀ b ∈ [b₁, b₂],
      (∃ d', Collects IntegerDecoder.next IntegerDecoder.read (d.setBytes b) vs d' ∧ d'.err = none) ∧
        decodeAll b = .ok vs

theorem roundTrips_of_format (hlen : vs.length < 2 ^ 63) {b : List Byte} {buf : Slice}
    (hencode : integerArrayEncodeAll vs buf = .ok b) (h : IntegerFormat b vs) (e : IntegerEncoder)
    (d : IntegerDecoder) : RoundTrips integerArrayEncodeAll integerArrayDecodeAll vs e buf d := by
  obtain ⟨b₁, hb₁, hformat₁⟩ := e.getBytes_format vs hlen
  have hformat : ∀ b' ∈ [b₁, b], IntegerFormat b' vs := forall_mem_cons.mpr ⟨hformat₁, forall_mem_singleton.mpr h⟩
  exact ⟨b₁, b, hb₁, hencode, fun b' hb' => ⟨(hformat b' hb').collects d, (hformat b' hb').integerArrayDecodeAll⟩⟩

theorem unsignedArrayEncodeAll_eq : unsignedArrayEncodeAll = integerArrayEncodeAll := rfl

theorem unsignedArrayDecodeAll_eq : unsignedArrayDecodeAll = integerArrayDecodeAll := rfl

theorem roundTrips_of_packed (hlen : vs.length < 2 ^ 63) (hne : vs ≠ []) (hrle : ¬ IsRunLength vs)
    (hmax : ¬ IsTooLarge vs) (e : IntegerEncoder) (buf : Slice) (d : IntegerDecoder) :
    RoundTrips integerArrayEncodeAll integerArrayDecodeAll vs e buf d ↔ buf.len ≤ packedSize vs := by
  obtain ⟨first, rest, rfl⟩ := exists_cons_of_ne_nil hne
  obtain ⟨ws, hws, hsize, hencode⟩ := encodeAll_of_packed hrle hmax buf
  have hlength : ((buf.grow (1 + (ws.length + 1) * 8)).drop (1 + (ws.length + 1) * 8)).length =
      buf.len - (1 + (ws.length + 1) * 8) := by
    rw [length_drop, Slice.length_grow]
    split_ifs <;> omega
  rw [hsize]
  constructor
  · rintro ⟨b₁, b₂, -, hb₂, hall⟩
    by_contra hlt
    rw [hencode, Except.ok.injEq] at hb₂
    subst hb₂
    refine integerArrayDecodeAll_stale hws (ne_nil_of_length_pos ?_)
      (hall _ (mem_cons_of_mem _ (mem_singleton_self _))).2
    omega
  · intro hle
    rw [eq_nil_of_length_eq_zero (hlength.trans (by omega)), append_nil] at hencode
    exact roundTrips_of_format hlen hencode (.packed first rest ws hws) e d

/-- **Integers.** Whatever was in the encoder and the decoder, both encoders write bytes that both decoders read
back, unless the integers are packed into a buffer that is longer than their encoding. -/
theorem integers_round_trip_iff (vs : List Word) -- the length of a slice is an `int`
    (hlen : vs.length < 2 ^ 63) (e : IntegerEncoder) (buf : Slice) (d : IntegerDecoder) :
    (RoundTrips integerArrayEncodeAll integerArrayDecodeAll vs e buf d ∧
      RoundTrips unsignedArrayEncodeAll unsignedArrayDecodeAll vs e buf d) ↔
    (vs = [] ∨ IsRunLength vs ∨ IsTooLarge vs ∨ buf.len ≤ packedSize vs) := by
  rw [unsignedArrayEncodeAll_eq, unsignedArrayDecodeAll_eq, and_self]
  by_cases hne : vs = []
  · subst hne
    refine ⟨fun _ => .inl rfl, fun _ => ?_⟩
    exact roundTrips_of_format hlen rfl .nil e d
  by_cases hrle : IsRunLength vs
  · obtain ⟨b, hencode, hformat⟩ := encodeAll_of_runLength hrle hlen buf
    exact ⟨fun _ => .inr (.inl hrle), fun _ => roundTrips_of_format hlen hencode hformat e d⟩
  by_cases hmax : IsTooLarge vs
  · obtain ⟨b, hencode, hformat⟩ := encodeAll_of_tooLarge hne hrle hmax buf
    exact ⟨fun _ => .inr (.inr (.inl hmax)), fun _ => roundTrips_of_format hlen hencode hformat e d⟩
  rw [roundTrips_of_packed hlen hne hrle hmax]
  simp only [hne, hrle, hmax, false_or]

theorem integers_round_trip_nil_buffer :
    RoundTrips integerArrayEncodeAll integerArrayDecodeAll [5, 3, 9] IntegerEncoder.newIntegerEncoder (Slice.ofList [])
      IntegerDecoder.zero :=
  ((integers_round_trip_iff [5, 3, 9] (by decide) IntegerEncoder.newIntegerEncoder (Slice.ofList [])
    zero).mpr (.inr (.inr (.inr (Nat.zero_le _))))).1

/-- Two integers that are packed into 17 bytes, in a buffer of 25 bytes. -/
theorem integers_stale_buffer :
    ¬ RoundTrips integerArrayEncodeAll integerArrayDecodeAll [5, 3] IntegerEncoder.newIntegerEncoder
      (Slice.ofList (replicate 25 0)) IntegerDecoder.zero := by
  have htail : (zigZagDeltas [5, 3]).tail = [3] := rfl
  have hsmall : ¬ IsTooLarge [5, 3] := by
    rintro ⟨v, hv, hgt⟩
    rw [htail, mem_singleton] at hv
    subst hv
    exact absurd hgt (by decide)
  rw [roundTrips_of_packed (by decide) (by simp) (fun h => absurd h.1 (by decide)) hsmall, packedSize, htail]
  decide

end Influxdb.Tsm1
