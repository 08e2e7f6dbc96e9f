import Mathlib.Data.List.GetD
import Influxdb.Lib.Endian

/-!
# Bits — bit strings

Bit strings are lists of Booleans, most significant first.  `toBits` are the bits of a word, `lowBits n` its
`n` lowest ones, `ofBits` is the word with the bits at its low end, and `bytesToBits` and `bitsToBytes` go
from bytes to bits and back.  The facts are stated by position, with `getD`, so that bits behind the end are
zero.
-/

namespace Influxdb

open List

variable {w n i : ℕ} {l l' : List Bool} {b : List Byte}

/-! ## Positions -/

theorem getD_append (l l' : List Bool) (i : ℕ) :
    (l ++ l').getD i false = if i < l.length then l.getD i false else l'.getD (i - l.length) false := by
  split_ifs with h
  · exact List.getD_append _ _ _ _ h
  · exact getD_append_right _ _ _ _ (not_lt.mp h)

theorem getD_take (l : List Bool) (n i : ℕ) : (l.take n).getD i false = (decide (i < n) && l.getD i false) := by
  by_cases h : i < n
  · simp [getD_eq_getElem?_getD, getElem?_take_of_lt h, h]
  · rw [getD_eq_default _ _ (by rw [length_take]; omega)]
    simp [h]

theorem getD_drop (l : List Bool) (n i : ℕ) : (l.drop n).getD i false = l.getD (n + i) false := by
  simp [getD_eq_getElem?_getD, getElem?_drop]

theorem bits_ext (hlen : l.length = l'.length) (h : ∀ i < l.length, l.getD i false = l'.getD i false) : l = l' := by
  refine ext_getElem hlen fun i h1 h2 => ?_
  have := h i h1
  rwa [getD_eq_getElem _ _ h1, getD_eq_getElem _ _ h2] at this

theorem getD_of_lt_zeros : ∀ {l : List Bool} {i : ℕ}, i < (l.takeWhile (!·)).length → l.getD i false = false
  | [], _, _ => rfl
  | true :: l, i, h => absurd h (Nat.not_lt_zero i)
  | false :: _, 0, _ => rfl
  | false :: l, i + 1, h => by
    rw [getD_cons_succ]
    exact getD_of_lt_zeros (Nat.lt_of_succ_lt_succ h)

theorem getD_zeros : ∀ {l : List Bool}, true ∈ l → l.getD (l.takeWhile (!·)).length false = true
  | true :: _, _ => rfl
  | false :: l, h => by
    have hl : true ∈ l := by simpa using h
    have hzeros : ((false :: l).takeWhile (!·)).length = (l.takeWhile (!·)).length + 1 := rfl
    rw [hzeros, getD_cons_succ]
    exact getD_zeros hl

/-! ## Words -/

variable (x : BitVec w)

def toBits : List Bool := (range w).map x.getMsbD

def lowBits (n : ℕ) (x : Word) : List Bool := (range n).map fun j => x.getLsbD (n - 1 - j)

/-- The word with the bits at its low end. -/
def ofBits (l : List Bool) : Word := l.foldl (fun v bit => v <<< 1 ||| if bit then 1 else 0) 0

@[simp] theorem length_toBits : (toBits x).length = w := by rw [toBits, length_map, length_range]

@[simp] theorem length_lowBits (n : ℕ) (x : Word) : (lowBits n x).length = n := by
  rw [lowBits, length_map, length_range]

theorem getD_toBits (i : ℕ) : (toBits x).getD i false = x.getMsbD i := by
  by_cases h : i < w
  · rw [getD_eq_getElem _ _ (by rwa [length_toBits])]
    simp [toBits]
  · rw [getD_eq_default _ _ (by rw [length_toBits]; omega), BitVec.getMsbD_of_ge _ _ (by omega)]

theorem getD_lowBits (x : Word) (h : i < n) : (lowBits n x).getD i false = x.getLsbD (n - 1 - i) := by
  rw [getD_eq_getElem _ _ (by rwa [length_lowBits])]
  simp [lowBits]

theorem getD_reverse_toBits (h : i < w) : (toBits x).reverse.getD i false = x.getLsbD i := by
  have hindex : w - 1 - (w - 1 - i) = i := by omega
  rw [getD_eq_getElem _ _ (by rwa [length_reverse, length_toBits]), getElem_reverse]
  simp only [toBits, getElem_map, getElem_range, length_map, length_range]
  rw [BitVec.getMsbD_eq_getLsbD, hindex, decide_eq_true (by omega), Bool.true_and]

theorem true_mem_toBits {x : BitVec w} (h : x ≠ 0) : true ∈ toBits x := by
  by_contra hall
  refine h (BitVec.eq_of_getMsbD_eq fun i hi => ?_)
  have hzero : x.getMsbD i ≠ true := by
    intro htrue
    exact hall (mem_map.mpr ⟨i, mem_range.mpr hi, htrue⟩)
  rw [Bool.eq_false_iff.mpr hzero]
  simp

theorem getLsbD_ofBits (hlen : l.length ≤ 64) (i : ℕ) :
    (ofBits l).getLsbD i = (decide (i < l.length) && l.getD (l.length - 1 - i) false) := by
  induction l using reverseRecOn generalizing i with
  | nil => simp [ofBits]
  | append_singleton l bit ih =>
    rw [length_append, length_singleton] at hlen
    rw [ofBits, foldl_append, foldl_cons, foldl_nil, ← ofBits, BitVec.getLsbD_or, BitVec.getLsbD_shiftLeft, ih (by omega), length_append,
      length_singleton, getD_append]
    cases i with
    | zero => cases bit <;> simp
    | succ i =>
      have hbit : (if bit then (1 : Word) else 0).getLsbD (i + 1) = false := by cases bit <;> simp
      rw [hbit]
      by_cases h : i < l.length
      · have h1 : l.length + 1 - 1 - (i + 1) < l.length := by omega
        have h2 : l.length + 1 - 1 - (i + 1) = l.length - 1 - i := by omega
        rw [if_pos h1, h2]
        simp [h]
        omega
      · simp [h]

theorem ofBits_lowBits {x : Word} (hn : n ≤ 64) (hx : ∀ i, n ≤ i → x.getLsbD i = false) : ofBits (lowBits n x) = x := by
  refine BitVec.eq_of_getLsbD_eq fun i _ => ?_
  rw [getLsbD_ofBits (by rwa [length_lowBits]), length_lowBits]
  by_cases h : i < n
  · have hi : n - 1 - (n - 1 - i) = i := by omega
    rw [getD_lowBits x (by omega), hi]
    simp [h]
  · simp [h, hx i (by omega)]

theorem ofBits_take_toBits (x : Word) (hn : n ≤ 64) : ofBits ((toBits x).take n) = x >>> (64 - n) := by
  have hlen : ((toBits x).take n).length = n := by
    rw [length_take, length_toBits]
    omega
  refine BitVec.eq_of_getLsbD_eq fun i _ => ?_
  rw [getLsbD_ofBits (by omega), hlen, getD_take, getD_toBits, BitVec.getLsbD_ushiftRight, BitVec.getMsbD_eq_getLsbD]
  by_cases h : i < n
  · have h1 : n - 1 - i < n := by omega
    have h2 : n - 1 - i < 64 := by omega
    have hi : 64 - 1 - (n - 1 - i) = 64 - n + i := by omega
    rw [hi, decide_eq_true h, decide_eq_true h1, decide_eq_true h2, Bool.true_and, Bool.true_and, Bool.true_and]
  · rw [decide_eq_false h, Bool.false_and, BitVec.getLsbD_of_ge x _ (by omega)]

theorem toBits_ofBits (hlen : l.length = 64) : toBits (ofBits l) = l := by
  refine bits_ext (by rw [length_toBits, hlen]) fun i hi => ?_
  rw [length_toBits] at hi
  have hindex : l.length - 1 - (64 - 1 - i) = i := by omega
  rw [getD_toBits, BitVec.getMsbD_eq_getLsbD, getLsbD_ofBits (by omega), hindex]
  simp [hi]
  omega

theorem ofBits_toBits (x : Word) : ofBits (toBits x) = x := by
  have h := ofBits_take_toBits x (le_refl 64)
  rwa [take_of_length_le (by rw [length_toBits]), Nat.sub_self, BitVec.ushiftRight_zero] at h

theorem toBits_injective : Function.Injective (toBits (w := w)) := by
  intro x y h
  refine BitVec.eq_of_getMsbD_eq fun i _ => ?_
  rw [← getD_toBits, ← getD_toBits, h]

/-! ## Bytes -/

def bytesToBits (b : List Byte) : List Bool := b.flatMap toBits

@[simp] theorem bytesToBits_nil : bytesToBits [] = [] := rfl

@[simp] theorem bytesToBits_cons (x : Byte) (b : List Byte) : bytesToBits (x :: b) = toBits x ++ bytesToBits b := rfl

@[simp] theorem bytesToBits_append (b b' : List Byte) : bytesToBits (b ++ b') = bytesToBits b ++ bytesToBits b' :=
  flatMap_append

@[simp] theorem length_bytesToBits : ∀ b, (bytesToBits b).length = 8 * b.length
  | [] => rfl
  | x :: b => by
    rw [bytesToBits_cons, length_append, length_toBits, length_bytesToBits b, length_cons]
    omega

theorem getD_bytesToBits : ∀ b i, (bytesToBits b).getD i false = (b.getD (i / 8) 0).getMsbD (i % 8)
  | [], i => by simp
  | x :: b, i => by
    rw [bytesToBits_cons, getD_append, length_toBits]
    split_ifs with h
    · have h1 : i / 8 = 0 := by omega
      have h2 : i % 8 = i := by omega
      rw [getD_toBits, h1, h2]
      rfl
    · have h1 : i / 8 = (i - 8) / 8 + 1 := by omega
      have h2 : i % 8 = (i - 8) % 8 := by omega
      rw [getD_bytesToBits b, h1, h2, getD_cons_succ]

theorem bytesToBits_take : ∀ b n, bytesToBits (b.take n) = (bytesToBits b).take (8 * n)
  | [], n => by simp
  | x :: b, 0 => by simp
  | x :: b, n + 1 => by
    have h : 8 * (n + 1) = (toBits x).length + 8 * n := by
      rw [length_toBits]
      omega
    rw [take_succ_cons, bytesToBits_cons, bytesToBits_take b n, bytesToBits_cons, h, take_length_add_append]

theorem bytesToBits_drop (b : List Byte) (n : ℕ) : bytesToBits (b.drop n) = (bytesToBits b).drop (8 * n) := by
  have h := bytesToBits_append (b.take n) (b.drop n)
  rw [take_append_drop, bytesToBits_take] at h
  exact append_cancel_left (h.symm.trans (take_append_drop _ _).symm)

theorem bytesToBits_injective : Function.Injective bytesToBits := by
  have hget : ∀ {b : List Byte} {i : ℕ} (hi : i < b.length), toBits b[i] = ((bytesToBits b).drop (8 * i)).take 8 := by
    intro b i hi
    rw [← bytesToBits_drop, ← bytesToBits_take _ 1, drop_eq_getElem_cons hi, take_succ_cons, take_zero]
    exact (append_nil _).symm
  intro b b' h
  have hlen := congrArg length h
  rw [length_bytesToBits, length_bytesToBits] at hlen
  refine ext_getElem (by omega) fun i h1 h2 => toBits_injective ?_
  rw [hget h1, hget h2, h]

theorem ofBits_append_toBits (x : Byte) (hlen : l.length + 8 ≤ 64) :
    ofBits (l ++ toBits x) = ofBits l <<< 8 ||| x.setWidth 64 := by
  refine BitVec.eq_of_getLsbD_eq fun i hi => ?_
  rw [getLsbD_ofBits (by rw [length_append, length_toBits]; omega), BitVec.getLsbD_or, BitVec.getLsbD_shiftLeft,
    getLsbD_ofBits (by omega), BitVec.getLsbD_setWidth, length_append, length_toBits, getD_append, getD_toBits,
    BitVec.getMsbD_eq_getLsbD]
  by_cases h : i < 8
  · have h1 : ¬ l.length + 8 - 1 - i < l.length := by omega
    have h2 : 8 - 1 - (l.length + 8 - 1 - i - l.length) = i := by omega
    have h3 : i < l.length + 8 := by omega
    have h4 : l.length + 8 - 1 - i - l.length < 8 := by omega
    rw [if_neg h1, h2, decide_eq_true h3, decide_eq_true h4]
    simp [h, hi]
  · rw [BitVec.getLsbD_of_ge x i (by omega)]
    by_cases h1 : i < l.length + 8
    · have h2 : l.length + 8 - 1 - i < l.length := by omega
      have h3 : l.length + 8 - 1 - i = l.length - 1 - (i - 8) := by omega
      have h4 : i - 8 < l.length := by omega
      rw [if_pos h2, h3, decide_eq_true h1, decide_eq_true h4]
      simp [h, hi]
    · have h2 : ¬ i - 8 < l.length := by omega
      simp [h1, h2]

theorem foldl_bytes (hlen : b.length ≤ 8) :
    b.foldl (fun (v : Word) x => v <<< 8 ||| x.setWidth 64) 0 = ofBits (bytesToBits b) := by
  induction b using reverseRecOn with
  | nil => rfl
  | append_singleton b x ih =>
    rw [length_append, length_singleton] at hlen
    rw [foldl_append, foldl_cons, foldl_nil, ih (by omega), bytesToBits_append, bytesToBits_cons,
      bytesToBits_nil, append_nil, ofBits_append_toBits _ (by rw [length_bytesToBits]; omega)]

theorem ofNat_beGet (hlen : b.length ≤ 8) : BitVec.ofNat 64 (beGet b) = ofBits (bytesToBits b) := by
  induction b using reverseRecOn with
  | nil => rfl
  | append_singleton b x ih =>
    rw [length_append, length_singleton] at hlen
    rw [bytesToBits_append, bytesToBits_cons, bytesToBits_nil, append_nil,
      ofBits_append_toBits _ (by rw [length_bytesToBits]; omega), ← ih (by omega), beGet_concat]
    refine BitVec.eq_of_getLsbD_eq fun i hi => ?_
    have hx : x.toNat < 2 ^ 8 := x.isLt
    have h256 : beGet b * 256 + x.toNat = 2 ^ 8 * beGet b + x.toNat := by omega
    rw [BitVec.getLsbD_ofNat, BitVec.getLsbD_or, BitVec.getLsbD_shiftLeft, BitVec.getLsbD_setWidth, BitVec.getLsbD_ofNat,
      h256, Nat.testBit_two_pow_mul_add _ hx]
    by_cases h : i < 8
    · simp [h, hi, BitVec.getLsbD]
    · have h1 : i - 8 < 64 := by omega
      rw [BitVec.getLsbD_of_ge x i (by omega)]
      simp [h, hi, h1]

theorem uint64_eq_ofBits (b : List Byte) : uint64 b = ofBits (bytesToBits (b.take 8)) := by
  rw [uint64, ofNat_beGet (by rw [length_take]; omega)]

theorem toBits_uint64 (h : 8 ≤ b.length) : toBits (uint64 b) = bytesToBits (b.take 8) := by
  rw [uint64_eq_ofBits, toBits_ofBits (by rw [length_bytesToBits, length_take_of_le h])]

theorem bytesToBits_putUint64 (v : Word) : bytesToBits (putUint64 v) = toBits v := by
  have h := toBits_uint64 (length_putUint64 v).ge
  rw [uint64_putUint64, take_of_length_le (length_putUint64 v).le] at h
  exact h.symm

/-- The bytes of bits; bits that do not make a byte are left out. -/
def bitsToBytes (l : List Bool) : List Byte :=
  (range (l.length / 8)).map fun i => (ofBits ((l.drop (8 * i)).take 8)).setWidth 8

@[simp] theorem length_bitsToBytes (l : List Bool) : (bitsToBytes l).length = l.length / 8 := by
  rw [bitsToBytes, length_map, length_range]

theorem bytesToBits_bitsToBytes (hlen : l.length % 8 = 0) : bytesToBits (bitsToBytes l) = l := by
  refine bits_ext (by rw [length_bytesToBits, length_bitsToBytes]; omega) fun i hi => ?_
  rw [length_bytesToBits, length_bitsToBytes] at hi
  have hbyte : i / 8 < (bitsToBytes l).length := by
    rw [length_bitsToBytes]
    omega
  have htake : ((l.drop (8 * (i / 8))).take 8).length = 8 := by
    rw [length_take, length_drop]
    omega
  have hindex : 8 * (i / 8) + i % 8 = i := by omega
  have hrev : 8 - 1 - (8 - 1 - i % 8) = i % 8 := by omega
  rw [getD_bytesToBits, getD_eq_getElem _ _ hbyte]
  simp only [bitsToBytes, getElem_map, getElem_range]
  rw [BitVec.getMsbD_eq_getLsbD, BitVec.getLsbD_setWidth, getLsbD_ofBits (by omega), htake, hrev, getD_take, getD_drop,
    hindex]
  have h1 : i % 8 < 8 := by omega
  have h2 : 8 - 1 - i % 8 < 8 := by omega
  rw [decide_eq_true h1, decide_eq_true h2, Bool.true_and, Bool.true_and, Bool.true_and, Bool.true_and]

end Influxdb
