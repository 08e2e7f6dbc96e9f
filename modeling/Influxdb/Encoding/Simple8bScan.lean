import Influxdb.Encoding.Simple8bCodec
import Influxdb.Lib.Except

/-!
# Simple8bScan — packed values read without unpacking

`EncodeAll` packs a list exactly if every value fits into 60 bits.  `ForEach` and `CountBytesBetween` do not unpack a
word: they shift it by the bits of a value and take the low bits.  For a run of ones these are no bits at all.
-/

namespace Influxdb.Simple8b

open List

/-- `DecodeAll`: the values that are written. -/
def decodeAll (src : List Word) : List Word := src.flatMap decode

def Decoder.newDecoder (b : List Byte) : Decoder := ⟨b, replicate 240 0, 0, 0⟩

variable {remaining src ws : List Word} {v : Word} {n : ℕ}

/-! ## Values that can be packed -/

theorem encodeRest_le : ∀ fuel remaining ws, remaining.length ≤ fuel → encodeRest fuel remaining = .ok ws →
    ∀ x ∈ remaining, x ≤ maxValue
  | 0, remaining, _, hlen, _ => by
    rw [length_eq_zero_iff.mp (Nat.le_zero.mp hlen)]
    simp
  | fuel + 1, [], _, _, _ => by simp
  | fuel + 1, y :: ys, ws, hlen, h => by
    rw [encodeRest, if_pos (by simp)] at h
    split at h
    next v n hnext =>
      obtain ⟨hpos, hle⟩ := encodeNext_le hnext
      obtain ⟨ws', hrest, -⟩ := bind_eq_ok h
      have hdrop := encodeRest_le fuel ((y :: ys).drop n) ws' (by rw [length_drop]; omega) hrest
      rw [← take_append_drop n (y :: ys), forall_mem_append]
      exact ⟨hle, hdrop⟩
    next => cases h

theorem encodeAll_le (h : encodeAll src = .ok ws) : ∀ x ∈ src, x ≤ maxValue :=
  encodeRest_le src.length src ws le_rfl (encodeAll_eq src ▸ h)

theorem decodeAll_encodeAll (h : encodeAll src = .ok ws) : ws.flatMap decode = src := by
  obtain ⟨ws', h', hsrc⟩ := encodeAll_spec (encodeAll_le h)
  obtain rfl : ws' = ws := Except.ok.inj (h'.symm.trans h)
  exact hsrc

/-- **Packing is exact.** -/
theorem encodeAll_exact (src : List Word) : ((∃ ws, encodeAll src = .ok ws) ↔ ∀ x ∈ src, x ≤ maxValue) ∧
    ∀ ws, encodeAll src = .ok ws → decodeAll ws = src ∧ decodeBytesBigEndian (putWords ws) = .ok src ∧
      countBytes (putWords ws) = .ok src.length ∧
      ∃ b e d, (src.foldlM Encoder.write Encoder.newEncoder >>= Encoder.getBytes) = .ok (b, e) ∧
        Collects Decoder.next Decoder.read (Decoder.newDecoder b) src d := by
  refine ⟨⟨fun ⟨ws, h⟩ => encodeAll_le h, fun h => (encodeAll_spec h).imp fun _ => And.left⟩, fun ws h => ?_⟩
  have hmax := encodeAll_le h
  have hsrc := decodeAll_encodeAll h
  refine ⟨hsrc, ?_, ?_, ?_⟩
  · rw [decodeBytesBigEndian_putWords, hsrc]
  · rw [countBytes_putWords, hsrc]
  · obtain ⟨e, hwrite, hholds⟩ := Encoder.holds_newEncoder.writeAll hmax
    obtain ⟨ws, e', hbytes, hvalues⟩ := hholds.getBytes hmax
    obtain ⟨d, hd⟩ := (Decoder.newDecoder []).collects (putWords ws)
    rw [words_putWords, hvalues] at hd
    exact ⟨_, e', d, by rw [hwrite]; exact hbytes, hd⟩

/-! ## Scanning -/

/-- The low bits of a word: `uint64(^(int64(^0) << bits))`. -/
def lowBits (bits : ℕ) : Word := ~~~(BitVec.allOnes 64 <<< bits)

/-- The loop of `ForEach` over the values of a word: what `fn` is called with, and whether it goes on. -/
def forEachWord (fn : Word → Bool) (bits : ℕ) : ℕ → Word → List Word × Bool
  | 0, _ => ([], true)
  | n + 1, v =>
    let val := v &&& lowBits bits
    if !fn val then ([val], false)
    else
      let (vals, more) := forEachWord fn bits n (v >>> bits)
      (val :: vals, more)

/-- The loop of `ForEach` over the words. -/
def forEachLoop (fn : Word → Bool) : List Word → List Word
  | [] => []
  | v :: ws =>
    let (vals, more) := forEachWord fn (packingOf v).bit (packingOf v).n v
    if more then vals ++ forEachLoop fn ws else vals

/-- `ForEach`: the values that `fn` is called with. -/
def forEach (b : List Byte) (fn : Word → Bool) : List Word := forEachLoop fn (words b)

/-- The loop of `CountBytesBetween` over the values of a word. -/
def countWord (min max : Word) (bits : ℕ) : ℕ → Word → ℕ
  | 0, _ => 0
  | n + 1, v =>
    let val := v &&& lowBits bits
    if val ≥ min ∧ val < max then countWord min max bits n (v >>> bits) + 1
    else if val > max then 0
    else countWord min max bits n (v >>> bits)

/-- What a word adds to the count; all its values may be below `min`. -/
def countOf (min max v : Word) : ℕ :=
  let maxValue := (1 : Word) <<< (packingOf v).bit - 1
  if maxValue < min then 0 else countWord min max (packingOf v).bit (packingOf v).n v

def countBytesBetween (b : List Byte) (min max : Word) : Except String ℕ :=
  let count := (words b).foldl (fun count v => count + countOf min max v) 0
  if b.length % 8 > 0 then .error ("invalid slice len remaining: " ++ toString (b.length % 8)) else .ok count

/-- The word holds no run of ones. -/
def Plain (v : Word) : Prop := 2 ≤ (v >>> 60).toNat
deriving Decidable

theorem unpackBits_succ (n bit : ℕ) (mask v : Word) :
    unpackBits (n + 1) bit mask v = (v &&& mask) :: unpackBits n bit mask (v >>> bit) := by
  simp [unpackBits, range_succ_eq_map, ← BitVec.shiftRight_add, Nat.add_mul, Nat.add_comm]

/-- **The low bits** of a plain word, shifted, are its values. -/
theorem decode_eq (h : Plain v) : decode v = unpackBits (packingOf v).n (packingOf v).bit (lowBits (packingOf v).bit) v ∧
    lowBits (packingOf v).bit = (1 : Word) <<< (packingOf v).bit - 1 := by
  have hmask : ∀ p ∈ selector, 0 < p.bit → lowBits p.bit = BitVec.ofNat 64 (2 ^ p.bit - 1) ∧
      lowBits p.bit = (1 : Word) <<< p.bit - 1 := by decide
  obtain ⟨hunpack, -, hpos, -⟩ := selector_fields ⟨(v >>> 60).toNat, sel_lt v⟩ h
  obtain ⟨hlow, hone⟩ := hmask _ (get_mem selector _) hpos
  exact ⟨(congrFun hunpack v).trans (congrArg (unpackBits _ _ · v) hlow.symm), hone⟩

theorem forEachWord_true (bits n : ℕ) (v : Word) :
    forEachWord (fun _ => true) bits n v = (unpackBits n bits (lowBits bits) v, true) := by
  induction n generalizing v with
  | zero => rfl
  | succ n ih =>
    rw [forEachWord, unpackBits_succ, ih]
    rfl

theorem length_unpacked (v : Word) : (unpackBits (packingOf v).n (packingOf v).bit (lowBits (packingOf v).bit) v).length =
    (decode v).length := by
  rw [length_unpackBits, length_decode]

/-- **A run of ones** is unpacked, and visited as zeros. -/
theorem unpackBits_eq_decode_iff :
    unpackBits (packingOf v).n (packingOf v).bit (lowBits (packingOf v).bit) v = decode v ↔ Plain v := by
  refine ⟨fun h => ?_, fun h => (decode_eq h).1.symm⟩
  by_contra hrun
  have hsel : (v >>> 60).toNat = 0 ∨ (v >>> 60).toNat = 1 := by
    have : ¬2 ≤ (v >>> 60).toNat := hrun
    omega
  have hone : decode v = replicate (packingOf v).n 1 ∧ (packingOf v).bit = 0 := by
    rw [decode, packingOf]
    obtain h0 | h1 := hsel
    · simp [h0, selector, unpack240]
    · simp [h1, selector, unpack120]
  obtain ⟨n, hn⟩ := Nat.exists_eq_succ_of_ne_zero (packingOf_pos v).ne'
  rw [hone.1, hone.2, hn, unpackBits_succ, replicate_succ] at h
  have hzero : v &&& lowBits 0 = 0 := by simp [lowBits]
  exact absurd (hzero.symm.trans (cons.inj h).1) (by decide)

/-- **`ForEach`** visits the values of all words exactly if none is a run of ones. -/
theorem forEachLoop_eq_iff : forEachLoop (fun _ => true) ws = ws.flatMap decode ↔ ∀ v ∈ ws, Plain v := by
  induction ws with
  | nil => simp [forEachLoop]
  | cons v ws ih =>
    rw [forEachLoop, forEachWord_true, flatMap_cons, forall_mem_cons, ← unpackBits_eq_decode_iff, ← ih]
    exact ⟨fun h => append_inj h (length_unpacked v), fun ⟨hv, hws⟩ => congrArg₂ (· ++ ·) hv hws⟩

/-- In a word, no value from `min` to `max` stands behind a value above `max`. -/
def NoneBehind (min max : Word) (vals : List Word) : Prop := vals.Pairwise fun a b => max < a → ¬(min ≤ b ∧ b < max)
deriving Decidable

/-- The number of values from `min` to `max`. -/
def between (min max : Word) (vals : List Word) : ℕ := vals.countP fun x => min ≤ x ∧ x < max

variable {min max : Word}

theorem between_eq_zero {vals : List Word} : between min max vals = 0 ↔ ∀ x ∈ vals, ¬(min ≤ x ∧ x < max) := by
  simp [between, countP_eq_zero]

/-- The loop stops early or not: it never counts too many. -/
theorem countWord_spec {bits : ℕ} : countWord min max bits n v ≤ between min max (unpackBits n bits (lowBits bits) v) ∧
    (countWord min max bits n v = between min max (unpackBits n bits (lowBits bits) v) ↔
      NoneBehind min max (unpackBits n bits (lowBits bits) v)) := by
  induction n generalizing v with
  | zero => exact ⟨le_rfl, iff_of_true rfl Pairwise.nil⟩
  | succ n ih =>
    obtain ⟨hle, hiff⟩ := @ih (v >>> bits)
    rw [unpackBits_succ, NoneBehind, pairwise_cons, countWord, between]
    generalize unpackBits n bits (lowBits bits) (v >>> bits) = vals at hle hiff ⊢
    split_ifs with hin habove
    · rw [countP_cons_of_pos (by simpa using hin), Nat.add_right_cancel_iff, ← between, hiff]
      exact ⟨by omega, fun h => ⟨fun _ _ hmax => absurd hin.2 (not_lt.mpr hmax.le), h⟩, And.right⟩
    · rw [countP_cons_of_neg (by simpa using hin), ← between, eq_comm, between_eq_zero]
      refine ⟨Nat.zero_le _, fun h => ⟨fun b hb _ => h b hb, ?_⟩, fun h b hb => h.1 b hb habove⟩
      exact pairwise_iff_forall_sublist.mpr fun hab _ => h _ (hab.subset (by simp))
    · rw [countP_cons_of_neg (by simpa using hin), ← between, hiff]
      exact ⟨hle, fun h => ⟨fun _ _ hmax => absurd hmax habove, h⟩, And.right⟩

theorem countOf_spec (hplain : Plain v) : countOf min max v ≤ between min max (decode v) ∧
    (countOf min max v = between min max (decode v) ↔ NoneBehind min max (decode v)) := by
  obtain ⟨hdecode, hlow⟩ := decode_eq hplain
  rw [hdecode, countOf]
  split_ifs with hskip
  · have hnone : ∀ x ∈ unpackBits (packingOf v).n (packingOf v).bit (lowBits (packingOf v).bit) v, ¬(min ≤ x ∧ x < max) := by
      rintro x hx ⟨hmin, -⟩
      obtain ⟨i, -, rfl⟩ := mem_map.mp hx
      have hle : (v >>> (i * (packingOf v).bit)) &&& lowBits (packingOf v).bit ≤ lowBits (packingOf v).bit :=
        Nat.and_le_right
      exact absurd (hmin.trans hle) (hlow ▸ not_le.mpr hskip)
    exact ⟨Nat.zero_le _, iff_of_true (between_eq_zero.mpr hnone).symm
      (pairwise_iff_forall_sublist.mpr fun hab _ => hnone _ (hab.subset (by simp)))⟩
  · exact countWord_spec

/-- No word counts too many, so that the sum is right exactly if every word is. -/
theorem foldl_count_spec (hplain : ∀ v ∈ ws, Plain v) (k : ℕ) :
    ws.foldl (fun count v => count + countOf min max v) k ≤ k + between min max (ws.flatMap decode) ∧
      (ws.foldl (fun count v => count + countOf min max v) k = k + between min max (ws.flatMap decode) ↔
        ∀ v ∈ ws, NoneBehind min max (decode v)) := by
  induction ws generalizing k with
  | nil => simp [between]
  | cons v ws ih =>
    obtain ⟨hv, hws⟩ := forall_mem_cons.mp hplain
    obtain ⟨hle, hiff⟩ := @countOf_spec v min max hv
    obtain ⟨hrest, hrestIff⟩ := ih hws (k + countOf min max v)
    have hsum : between min max ((v :: ws).flatMap decode) =
        between min max (decode v) + between min max (ws.flatMap decode) := by
      rw [flatMap_cons, between, countP_append, between, between]
    rw [foldl_cons, hsum, forall_mem_cons, ← hiff, ← hrestIff]
    omega

/-- A value that stands behind a larger one: a `max` between the two leaves it out of the count, unless there is none. -/
theorem forall_noneBehind_iff {vals : List Word} :
    (∀ min max, NoneBehind min max vals) ↔ vals.Pairwise fun a b => a.toNat ≤ b.toNat + 1 := by
  refine ⟨fun h => ?_, fun h min max => h.imp fun {a b} hab hmax hb => ?_⟩
  · refine pairwise_iff_forall_sublist.mpr fun {a b} hab => ?_
    by_contra hgap
    have hb : (b + 1).toNat = b.toNat + 1 := by
      rw [BitVec.toNat_add]
      exact Nat.mod_eq_of_lt (show b.toNat + 1 < 2 ^ 64 by have := a.isLt; omega)
    have hnot := pairwise_iff_forall_sublist.mp (h b (b + 1)) hab
    exact hnot (by rw [BitVec.lt_def]; omega) ⟨le_refl b, by rw [BitVec.lt_def]; omega⟩
  · have h1 := BitVec.lt_def.mp hmax
    have h2 := BitVec.lt_def.mp hb.2
    omega

/-- **Scanning** agrees with decoding exactly if no word is a run of ones and, in each word, every value is at most one
above each of those behind it. -/
theorem scan_exact_iff (h : encodeAll src = .ok ws) :
    (forEach (putWords ws) (fun _ => true) = src ∧
      ∀ min max, countBytesBetween (putWords ws) min max = .ok (src.countP fun x => min ≤ x ∧ x < max)) ↔
    ∀ v ∈ ws, Plain v ∧ (decode v).Pairwise fun a b => a.toNat ≤ b.toNat + 1 := by
  have hsrc := decodeAll_encodeAll h
  have hcount : (∀ v ∈ ws, Plain v) → ∀ min max,
      (countBytesBetween (putWords ws) min max = .ok (src.countP fun x => min ≤ x ∧ x < max) ↔
        ∀ v ∈ ws, NoneBehind min max (decode v)) := fun hplain min max => by
    rw [← (foldl_count_spec hplain 0).2, hsrc, Nat.zero_add, countBytesBetween, words_putWords, length_putWords, between]
    simp
  have hforEach : forEach (putWords ws) (fun _ => true) = src ↔ ∀ v ∈ ws, Plain v := by
    rw [forEach, words_putWords, ← forEachLoop_eq_iff, hsrc]
  rw [hforEach, forall₂_and]
  refine and_congr_right fun hplain => ?_
  simp only [hcount hplain, ← forall_noneBehind_iff]
  exact ⟨fun h v hv min max => h min max v hv, fun h min max v hv => h v hv min max⟩

theorem scan_exact_rising : encodeAll [3, 4, 5, 6, 7, 7, 8, 9, 2] = .ok [0x8012203870C14203, 0xF000000000000002] ∧
    forEach (putWords [0x8012203870C14203, 0xF000000000000002]) (fun _ => true) = [3, 4, 5, 6, 7, 7, 8, 9, 2] ∧
    ∀ min max, countBytesBetween (putWords [0x8012203870C14203, 0xF000000000000002]) min max =
      .ok ([3, 4, 5, 6, 7, 7, 8, 9, 2].countP fun x : Word => min ≤ x ∧ x < max) :=
  have hwords : encodeAll [3, 4, 5, 6, 7, 7, 8, 9, 2] = .ok [0x8012203870C14203, 0xF000000000000002] := by decide +kernel
  have hfirst : decode 0x8012203870C14203 = [3, 4, 5, 6, 7, 7, 8, 9] := by decide +kernel
  have hsecond : decode 0xF000000000000002 = [2] := by decide +kernel
  have hmeets : ∀ v ∈ [(0x8012203870C14203 : Word), 0xF000000000000002],
      Plain v ∧ (decode v).Pairwise fun a b => a.toNat ≤ b.toNat + 1 := by
    rw [forall_mem_cons, forall_mem_singleton, hfirst, hsecond]
    decide +kernel
  ⟨hwords, (scan_exact_iff hwords).mpr hmeets⟩

/-- A run of ones is visited as zeros, and the count stops at a value above `max`. -/
theorem scan_not_exact : encodeAll (replicate 120 1) = .ok [0x1000000000000000] ∧
    forEach (putWords [0x1000000000000000]) (fun _ => true) = replicate 120 0 ∧
    countBytesBetween (putWords [0x1000000000000000]) 1 2 = .ok 0 ∧
    encodeAll [5, 0] = .ok [0xE000000000000005] ∧ countBytesBetween (putWords [0xE000000000000005]) 0 3 = .ok 0 := by
  refine ⟨?_, ?_, ?_, ?_, ?_⟩
  all_goals decide +kernel

end Influxdb.Simple8b
