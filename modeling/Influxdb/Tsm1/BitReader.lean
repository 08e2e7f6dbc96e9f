import Influxdb.Lib.Bits

/-!
# BitReader — reading bits from bytes (`bit_reader.go`)

The reader keeps up to 64 bits of the data in a buffer, at its high end, and fills the buffer again when it is
empty.  `BitReader.rest` are the bits that have not been read; as long as there are enough of them, every
read takes them from the front.
-/

namespace Influxdb.Tsm1

open List

/-- `BitReader`: `v` are the buffered bits and `n` is their number. -/
structure BitReader where
  data : List Byte
  v : Word
  n : ℕ

namespace BitReader

/-- The bytes that are appended to the buffer. -/
def appendBytes : List Byte → Word → ℕ → Word × ℕ
  | [], v, n => (v, n)
  | x :: b, v, n => appendBytes b (v ||| x.setWidth 64 <<< (64 - (n + 8))) (n + 8)

variable (r : BitReader)

def readBuf : BitReader :=
  let byteN := min (8 - r.n / 8) r.data.length
  if byteN = 8 then ⟨r.data.drop 8, uint64 r.data, 64⟩
  else
    let (v, n) := appendBytes (r.data.take byteN) r.v r.n
    ⟨r.data.drop byteN, v, n⟩

def reset (_ : BitReader) (data : List Byte) : BitReader := readBuf ⟨data, 0, 0⟩

/-- Fill the buffer when it is empty. -/
def refill : BitReader := if r.n = 0 then r.readBuf else r

def canReadBitFast : Bool := decide (r.n > 1)

def readBitFast : Bool × BitReader :=
  (decide (r.v &&& (1 : Word) <<< 63 ≠ 0), { r with v := r.v <<< 1, n := r.n - 1 })

def readBits (nbits : ℕ) : Except String (Word × BitReader) :=
  if r.n = 0 then .error "EOF"
  else if nbits ≤ r.n then
    if nbits = 64 then .ok (r.v, readBuf ⟨r.data, 0, 0⟩)
    else .ok (r.v >>> (64 - nbits), refill { r with v := r.v <<< nbits, n := r.n - nbits })
  else
    -- all of the buffer, and the rest from the next one
    let s := readBuf ⟨r.data, 0, 0⟩
    let v := (r.v ||| s.v >>> r.n) >>> (64 - nbits)
    let bufN := min (nbits - r.n) s.n
    .ok (v, refill { s with v := s.v <<< bufN, n := s.n - bufN })

def readBit : Except String (Bool × BitReader) := do
  let (v, r) ← r.readBits 1
  return (decide (v ≠ 0), r)

def rest : List Bool := (toBits r.v).take r.n ++ bytesToBits r.data

/-- The buffer holds `n` bits and zeros; it is empty only at the end. -/
structure Inv (r : BitReader) : Prop where
  le : r.n ≤ 64
  zero : ∀ i, r.n ≤ i → r.v.getMsbD i = false
  filled : r.n = 0 → r.data = []

theorem appendBytes_spec : ∀ b v n, n + 8 * b.length ≤ 64 →
    (∀ i, n ≤ i → v.getMsbD i = false) → (appendBytes b v n).2 = n + 8 * b.length ∧
      (toBits (appendBytes b v n).1).take (n + 8 * b.length) = (toBits v).take n ++ bytesToBits b ∧
      ∀ i, n + 8 * b.length ≤ i → (appendBytes b v n).1.getMsbD i = false
  | [], v, n, _, hzero => by simpa [appendBytes] using hzero
  | x :: b, v, n, hlen, hzero => by
    rw [length_cons] at hlen ⊢
    have hbit : ∀ i, (v ||| x.setWidth 64 <<< (64 - (n + 8))).getMsbD i =
        if i < n then v.getMsbD i else x.getMsbD (i - n) := by
      intro i
      rw [BitVec.getMsbD_or, BitVec.getMsbD_shiftLeft, BitVec.getMsbD_setWidth]
      split_ifs with h
      · have h1 : ¬ 64 - 8 ≤ i + (64 - (n + 8)) := by omega
        rw [decide_eq_false h1, Bool.false_and, Bool.or_false]
      · have h1 : i + (64 - (n + 8)) + 8 - 64 = i - n := by omega
        have h2 : 64 - 8 ≤ i + (64 - (n + 8)) := by omega
        rw [hzero i (by omega), h1, decide_eq_true h2, Bool.true_and, Bool.false_or]
    have hn : n + 8 * (b.length + 1) = n + 8 + 8 * b.length := by omega
    obtain ⟨h1, h2, h3⟩ := appendBytes_spec b (v ||| x.setWidth 64 <<< (64 - (n + 8))) (n + 8) (by omega) (by
      intro i hi
      rw [hbit, if_neg (by omega), BitVec.getMsbD_of_ge x _ (by omega)])
    rw [appendBytes, hn]
    refine ⟨h1, ?_, h3⟩
    have hstep : (toBits (v ||| x.setWidth 64 <<< (64 - (n + 8)))).take (n + 8) = (toBits v).take n ++ toBits x := by
      refine bits_ext (by simp only [length_take, length_append, length_toBits]; omega) fun i hi => ?_
      rw [getD_take, getD_toBits, hbit, getD_append, getD_take, getD_toBits, getD_toBits]
      simp only [length_take, length_toBits] at hi ⊢
      have hmin : min n 64 = n := by omega
      rw [hmin, decide_eq_true (by omega), Bool.true_and]
      split_ifs with h
      · simp [h]
      · rfl
    rw [h2, hstep, bytesToBits_cons, append_assoc]

theorem readBuf_spec (data : List Byte) : (readBuf ⟨data, 0, 0⟩).Inv ∧ (readBuf ⟨data, 0, 0⟩).rest = bytesToBits data ∧
    ((readBuf ⟨data, 0, 0⟩).n = 64 ∨ (readBuf ⟨data, 0, 0⟩).data = []) := by
  unfold readBuf
  simp only [Nat.zero_div, Nat.sub_zero]
  by_cases h : 8 ≤ data.length
  · rw [if_pos (Nat.min_eq_left h)]
    refine ⟨⟨le_rfl, fun i hi => BitVec.getMsbD_of_ge _ _ hi, fun hn => absurd hn (Nat.succ_ne_zero 63)⟩, ?_, .inl rfl⟩
    rw [rest, take_of_length_le (by rw [length_toBits]), toBits_uint64 h, ← bytesToBits_append, take_append_drop]
  · have hmin : min 8 data.length = data.length := by omega
    rw [hmin, if_neg (by omega), take_length, drop_length]
    obtain ⟨h1, h2, h3⟩ := appendBytes_spec data 0 0 (by omega) (fun i _ => by simp)
    rw [Nat.zero_add] at h1 h2 h3
    refine ⟨⟨?_, ?_, fun _ => rfl⟩, ?_, .inr rfl⟩
    · simp only [h1]
      omega
    · simpa only [h1] using h3
    · rw [rest]
      simp only [h1]
      rw [h2, take_zero, nil_append, bytesToBits_nil, append_nil]

theorem reset_spec (data : List Byte) : (r.reset data).Inv ∧ (r.reset data).rest = bytesToBits data :=
  ⟨(readBuf_spec data).1, (readBuf_spec data).2.1⟩

variable {r : BitReader} {k : ℕ}

theorem length_rest (h : r.Inv) : r.rest.length = r.n + 8 * r.data.length := by
  have := h.le
  rw [rest, length_append, length_take, length_toBits, length_bytesToBits]
  omega

theorem refill_spec (hle : r.n ≤ 64) (hzero : ∀ i, r.n ≤ i → r.v.getMsbD i = false) :
    r.refill.Inv ∧ r.refill.rest = r.rest := by
  unfold refill
  split_ifs with hn
  · have hv : r.v = 0 := by
      refine BitVec.eq_of_getMsbD_eq fun i _ => ?_
      rw [hzero i (by omega)]
      simp
    obtain ⟨data, v, n⟩ := r
    subst hv hn
    refine ⟨(readBuf_spec data).1, ?_⟩
    rw [(readBuf_spec data).2.1, rest, take_zero, nil_append]
  · exact ⟨⟨hle, hzero, fun h => absurd h hn⟩, rfl⟩

theorem rest_shiftLeft (h : r.Inv) (hle : k ≤ r.n) : (refill { r with v := r.v <<< k, n := r.n - k }).Inv ∧
      (refill { r with v := r.v <<< k, n := r.n - k }).rest = r.rest.drop k := by
  have hn := h.le
  have hbit : ∀ i, (r.v <<< k).getMsbD i = r.v.getMsbD (k + i) := by
    intro i
    rw [BitVec.getMsbD_shiftLeft, Nat.add_comm]
  obtain ⟨hinv, hrest⟩ := refill_spec (r := { r with v := r.v <<< k, n := r.n - k })
    (by simp only; omega) (fun i hi => by simp only at hi ⊢; rw [hbit, h.zero _ (by omega)])
  refine ⟨hinv, hrest.trans ?_⟩
  have htake : (toBits (r.v <<< k)).take (r.n - k) = ((toBits r.v).take r.n).drop k := by
    refine bits_ext (by simp only [length_take, length_drop, length_toBits]; omega) fun i hi => ?_
    rw [length_take, length_toBits] at hi
    rw [getD_take, getD_toBits, hbit, getD_drop, getD_take, getD_toBits, decide_eq_true (by omega),
      decide_eq_true (by omega)]
  have hlength : k ≤ ((toBits r.v).take r.n).length := by
    rw [length_take, length_toBits]
    omega
  rw [rest, rest, drop_append_of_le_length hlength, htake]

theorem toBits_or_ushiftRight (h : r.Inv) (v : Word) :
    toBits (r.v ||| v >>> r.n) = (toBits r.v).take r.n ++ (toBits v).take (64 - r.n) := by
  have hn := h.le
  refine bits_ext (by simp only [length_append, length_take, length_toBits]; omega) fun i hi => ?_
  rw [length_toBits] at hi
  have hlength : ((toBits r.v).take r.n).length = r.n := by
    rw [length_take, length_toBits]
    omega
  rw [getD_toBits, BitVec.getMsbD_or, BitVec.getMsbD_ushiftRight, getD_append, getD_take, getD_take, getD_toBits,
    getD_toBits, hlength]
  split_ifs with hlt
  · simp [hlt]
  · rw [h.zero i (by omega), decide_eq_true hi, decide_eq_false hlt, decide_eq_true (by omega)]
    simp

/-- **Reading bits** takes them from the front. -/
theorem readBits_spec (h : r.Inv) (hpos : 0 < k) (hle : k ≤ 64) (hrest : k ≤ r.rest.length) :
    ∃ r', r.readBits k = .ok (ofBits (r.rest.take k), r') ∧ r'.Inv ∧ r'.rest = r.rest.drop k := by
  have hn := h.le
  have hlength : ((toBits r.v).take r.n).length = r.n := by
    rw [length_take, length_toBits]
    omega
  have hne : r.n ≠ 0 := by
    intro hzero
    rw [length_rest h, hzero, h.filled hzero, length_nil] at hrest
    omega
  unfold readBits
  rw [if_neg hne]
  by_cases hbuf : k ≤ r.n
  · have htake : r.rest.take k = (toBits r.v).take k := by
      rw [rest, take_append_of_le_length (by omega), take_take, Nat.min_eq_left hbuf]
    rw [if_pos hbuf, htake, ofBits_take_toBits _ hle]
    split_ifs with h64
    · obtain ⟨hinv, hdata, -⟩ := readBuf_spec r.data
      refine ⟨_, ?_, hinv, ?_⟩
      · rw [h64, Nat.sub_self, BitVec.ushiftRight_zero]
      · rw [hdata, rest, drop_left' (by omega)]
    · obtain ⟨hinv, hshift⟩ := rest_shiftLeft h hbuf
      exact ⟨_, rfl, hinv, hshift⟩
  · obtain ⟨hinv, hdata, hfull⟩ := readBuf_spec r.data
    simp only
    rw [if_neg hbuf]
    generalize readBuf ⟨r.data, 0, 0⟩ = s at hinv hdata hfull
    have hall : r.rest = (toBits r.v).take r.n ++ s.rest := by rw [hdata, rest]
    have hs : k - r.n ≤ s.n := by
      rw [hall, length_append, hlength, length_rest hinv] at hrest
      rcases hfull with hfull | hfull
      · omega
      · rw [hfull, length_nil] at hrest
        omega
    have hbits : r.rest.take k = (toBits (r.v ||| s.v >>> r.n)).take k := by
      have hsmall : k - r.n ≤ ((toBits s.v).take s.n).length := by
        have := hinv.le
        rw [length_take, length_toBits]
        omega
      have h1 : ((toBits s.v).take s.n).take (k - r.n) = (toBits s.v).take (k - r.n) := by
        rw [take_take, Nat.min_eq_left hs]
      have h2 : ((toBits s.v).take (64 - r.n)).take (k - r.n) = (toBits s.v).take (k - r.n) := by
        rw [take_take, Nat.min_eq_left (by omega)]
      rw [hall, toBits_or_ushiftRight h, take_append, take_append, hlength, rest,
        take_append_of_le_length hsmall, h1, h2]
    have hdrop : r.rest.drop k = s.rest.drop (k - r.n) := by
      rw [hall, drop_append, hlength, drop_eq_nil_of_le (by omega), nil_append]
    rw [hbits, ofBits_take_toBits _ hle, hdrop, Nat.min_eq_left hs]
    obtain ⟨hinv', hshift⟩ := rest_shiftLeft hinv hs
    exact ⟨_, rfl, hinv', hshift⟩

theorem readBit_spec {bit : Bool} {l : List Bool} (h : r.Inv) (hrest : r.rest = bit :: l) :
    ∃ r', r.readBit = .ok (bit, r') ∧ r'.Inv ∧ r'.rest = l := by
  obtain ⟨r', hread, hinv, hrest'⟩ := readBits_spec h Nat.one_pos (by omega) (by rw [hrest, length_cons]; omega)
  rw [hrest, take_succ_cons, take_zero] at hread
  refine ⟨r', ?_, hinv, by rw [hrest', hrest, drop_succ_cons, drop_zero]⟩
  rw [readBit, hread]
  cases bit <;> rfl

theorem readBitFast_spec {bit : Bool} {l : List Bool} (h : r.Inv) (hrest : r.rest = bit :: l)
    (hfast : r.canReadBitFast = true) : ∃ r', r.readBitFast = (bit, r') ∧ r'.Inv ∧ r'.rest = l := by
  have hn : 1 < r.n := of_decide_eq_true hfast
  obtain ⟨hinv, hshift⟩ := rest_shiftLeft h (k := 1) (by omega)
  have hrefill : refill { r with v := r.v <<< 1, n := r.n - 1 } = { r with v := r.v <<< 1, n := r.n - 1 } := by
    rw [refill, if_neg (by simp only; omega)]
  rw [hrefill] at hinv hshift
  refine ⟨_, ?_, hinv, by rw [hshift, hrest, drop_succ_cons, drop_zero]⟩
  have hbit : r.v.getMsbD 0 = bit := by
    have hget : r.rest.getD 0 false = bit := by rw [hrest, getD_cons_zero]
    rwa [rest, getD_append, if_pos (by rw [length_take, length_toBits]; omega), getD_take, getD_toBits,
      decide_eq_true (by omega), Bool.true_and] at hget
  have hmask : decide (r.v &&& (1 : Word) <<< 63 ≠ 0) = r.v.getMsbD 0 := by
    have htwo : (1 : Word) <<< 63 = BitVec.twoPow 64 63 := by decide
    rw [htwo, BitVec.and_twoPow, BitVec.getMsbD_eq_getLsbD]
    cases r.v.getLsbD 63 <;> simp
  rw [readBitFast, hmask, hbit]

end BitReader

end Influxdb.Tsm1
