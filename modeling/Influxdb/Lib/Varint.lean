import Mathlib.Algebra.Ring.Nat
import Influxdb.Lib.Bytes

/-!
# Varint — variable length integers

`putUvarint` and `uvarint` are `binary.PutUvarint` and `binary.Uvarint`: seven bits to a byte, least
significant first, with the high bit on every byte but the last.
-/

namespace Influxdb

open BitVec

theorem toNat_or_shiftLeft {w : ℕ} {a b : BitVec w} {s : ℕ} (ha : a.toNat < 2 ^ s)
    (hb : b.toNat * 2 ^ s < 2 ^ w) : (a ||| b <<< s).toNat = a.toNat + b.toNat * 2 ^ s := by
  rw [toNat_or, toNat_shiftLeft, Nat.shiftLeft_eq, Nat.mod_eq_of_lt hb, Nat.or_comm,
    Nat.mul_comm, ← Nat.two_pow_add_eq_or_of_lt ha, Nat.add_comm]

/-! ## Writing -/

/-- The loop of `PutUvarint`, with `n` more bytes after the next one. -/
def putUvarintLoop : ℕ → Word → List Byte
  | 0, x => [x.setWidth 8]
  | n + 1, x => if x ≥ 0x80 then (x.setWidth 8 ||| 0x80) :: putUvarintLoop n (x >>> 7) else [x.setWidth 8]

variable (x : Word)

/-- `binary.PutUvarint`.  A word has at most ten groups of seven bits. -/
def putUvarint : List Byte := putUvarintLoop 9 x

def maxVarintLen64 : ℕ := 10

theorem length_putUvarintLoop_le : ∀ n x, (putUvarintLoop n x).length ≤ n + 1
  | 0, _ => le_rfl
  | n + 1, x => by
    rw [putUvarintLoop]
    split_ifs
    · have := length_putUvarintLoop_le n (x >>> 7)
      rw [List.length_cons]
      omega
    · rw [List.length_singleton]
      omega

theorem length_putUvarint_le : (putUvarint x).length ≤ maxVarintLen64 :=
  length_putUvarintLoop_le 9 x

theorem length_putUvarint_pos : 0 < (putUvarint x).length := by
  rw [putUvarint, putUvarintLoop]
  split_ifs <;> simp

/-! ## Reading -/

def uvarintLoop : ℕ → Word → List Byte → Word × Int
  | _, _, [] => (0, 0)
  | i, x, b :: rest =>
    -- overflow
    if i = maxVarintLen64 then (0, -(i + 1))
    else if b < 0x80 then
      if i = maxVarintLen64 - 1 ∧ b > 1 then (0, -(i + 1)) else (x ||| b.setWidth 64 <<< (7 * i), i + 1)
    else uvarintLoop (i + 1) (x ||| (b &&& 0x7f).setWidth 64 <<< (7 * i)) rest

/-- `binary.Uvarint`: the value and the number of bytes read, which is 0 when there are too few bytes and
negative for an overflow. -/
def uvarint (b : List Byte) : Word × Int := uvarintLoop 0 0 b

variable {i : ℕ}

theorem uvarintLoop_last (hi : i < maxVarintLen64) {acc x : Word} (hacc : acc.toNat < 2 ^ (7 * i))
    (hx : x.toNat * 2 ^ (7 * i) < 2 ^ 64) (hlow : x.toNat < 128) (rest : List Byte) :
    ∃ v, uvarintLoop i acc (x.setWidth 8 :: rest) = (v, (i : Int) + 1) ∧
      v.toNat = acc.toNat + x.toNat * 2 ^ (7 * i) := by
  have hbyte : (x.setWidth 8).toNat = x.toNat := by
    rw [toNat_setWidth]
    omega
  have hword : ((x.setWidth 8).setWidth 64).toNat = x.toNat := by
    rw [toNat_setWidth, hbyte]
    omega
  have hlt : x.setWidth 8 < 0x80 := by
    rw [lt_def, hbyte]
    exact hlow
  refine ⟨acc ||| (x.setWidth 8).setWidth 64 <<< (7 * i), ?_, ?_⟩
  · rw [uvarintLoop, if_neg hi.ne, if_pos hlt, if_neg]
    rintro ⟨rfl, hgt⟩
    rw [gt_iff_lt, lt_def, hbyte] at hgt
    have : x.toNat * 9223372036854775808 < 18446744073709551616 := hx
    have : 1 < x.toNat := hgt
    omega
  · rw [toNat_or_shiftLeft hacc (by rwa [hword]), hword]

theorem more_byte (b : Byte) : ¬ (b ||| 0x80) < 0x80 ∧ ((b ||| 0x80) &&& 0x7f).toNat = b.toNat % 128 := by
  revert b
  decide +kernel

theorem uvarintLoop_putUvarintLoop : ∀ n i, i + n = 9 → ∀ acc x, acc.toNat < 2 ^ (7 * i) →
    x.toNat * 2 ^ (7 * i) < 2 ^ 64 → ∀ rest : List Byte,
    ∃ v, uvarintLoop i acc (putUvarintLoop n x ++ rest) = (v, (i : Int) + (putUvarintLoop n x).length) ∧
      v.toNat = acc.toNat + x.toNat * 2 ^ (7 * i)
  | 0, i, hi, acc, x, hacc, hx, rest => by
    obtain rfl : i = 9 := hi
    have : x.toNat * 9223372036854775808 < 18446744073709551616 := hx
    exact uvarintLoop_last (by decide) hacc hx (by omega) rest
  | n + 1, i, hi, acc, x, hacc, hx, rest => by
    rw [putUvarintLoop]
    split_ifs with hge
    · rw [List.cons_append]
      obtain ⟨hmore, hlow⟩ := more_byte (x.setWidth 8)
      have hdigit : (((x.setWidth 8 ||| 0x80 : Byte) &&& 0x7f).setWidth 64).toNat = x.toNat % 128 := by
        rw [toNat_setWidth, hlow, toNat_setWidth]
        omega
      have hshift : (x >>> 7).toNat = x.toNat / 128 := by
        rw [toNat_ushiftRight, Nat.shiftRight_eq_div_pow]
      have hpow : 2 ^ (7 * (i + 1)) = 128 * 2 ^ (7 * i) := by
        rw [Nat.mul_succ, pow_add, Nat.mul_comm]
        rfl
      -- the digit and the rest make up the number
      have hsplit : x.toNat * 2 ^ (7 * i) = x.toNat % 128 * 2 ^ (7 * i) + x.toNat / 128 * (128 * 2 ^ (7 * i)) := by
        conv_lhs => rw [← Nat.mod_add_div x.toNat 128]
        rw [Nat.add_mul, Nat.mul_comm 128, Nat.mul_assoc]
      have hmod : x.toNat % 128 * 2 ^ (7 * i) ≤ 127 * 2 ^ (7 * i) := Nat.mul_le_mul_right _ (by omega)
      have hacc' := toNat_or_shiftLeft hacc (b := ((x.setWidth 8 ||| 0x80 : Byte) &&& 0x7f).setWidth 64)
        (by rw [hdigit]; omega)
      rw [hdigit] at hacc'
      obtain ⟨v, hv, hnat⟩ := uvarintLoop_putUvarintLoop n (i + 1) (by omega) _ (x >>> 7)
        (by rw [hacc', hpow]; omega) (by rw [hshift, hpow]; omega) rest
      refine ⟨v, ?_, ?_⟩
      · rw [uvarintLoop, if_neg (by rw [maxVarintLen64]; omega), if_neg hmore, hv, List.length_cons]
        push_cast
        rw [Int.add_assoc, Int.add_comm 1]
      · rw [hnat, hacc', hshift, hpow, hsplit]
        omega
    · rw [ge_iff_le, le_def, not_le] at hge
      exact uvarintLoop_last (by rw [maxVarintLen64]; omega) hacc hx hge rest

/-- **Variable length integers** can be read back, whatever follows them. -/
theorem uvarint_putUvarint (rest : List Byte) :
    uvarint (putUvarint x ++ rest) = (x, ((putUvarint x).length : Int)) := by
  obtain ⟨v, hv, hnat⟩ := uvarintLoop_putUvarintLoop 9 0 rfl 0 x (by simp) (by simpa using x.isLt) rest
  have : v = x := eq_of_toNat_eq (by simpa using hnat)
  rw [uvarint, putUvarint, hv, this]
  simp

end Influxdb
