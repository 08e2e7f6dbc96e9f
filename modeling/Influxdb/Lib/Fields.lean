import Mathlib.Data.Nat.Digits.Defs
import Influxdb.Lib.Varint

/-!
# Fields — values side by side in a word

`orFields` puts values into a word, `bit` bits each with the first one lowest, under a number that is
already in the bits from `top` on.  The fields and the number can be taken out again (`field_orFields`,
`top_orFields`).
-/

namespace Influxdb

open List Nat

variable (shift : ℕ → ℕ)

/-- Put the value of index `k` at bit `shift k`. -/
def orField (v : Word) (x : Word × ℕ) : Word := v ||| x.1 <<< shift x.2

/-- Put the values into the word. -/
def orFields (v : Word) (xs : List Word) : Word := xs.zipIdx.foldl (orField shift) v

variable {bit : ℕ} {xs : List Word}

theorem foldl_orField_or (u v : Word) (l : List (Word × ℕ)) :
    l.foldl (orField shift) (u ||| v) = l.foldl (orField shift) v ||| u := by
  induction l generalizing v with
  | nil => exact BitVec.or_comm u v
  | cons a l ih =>
    have h : orField shift (u ||| v) a = u ||| orField shift v a := BitVec.or_assoc u v _
    rw [foldl_cons, foldl_cons, h, ih]

theorem orFields_congr {f g : ℕ → ℕ} (v : Word) (h : ∀ k < xs.length, f k = g k) :
    orFields f v xs = orFields g v xs := by
  refine foldl_ext _ _ _ fun u x hx => ?_
  have hlt := snd_lt_of_mem_zipIdx hx
  rw [orField, orField, h _ (by omega)]

def fieldsNat (bit : ℕ) (xs : List Word) : ℕ := ofDigits (2 ^ bit) (xs.map (·.toNat))

theorem fieldsNat_lt (hbit : 0 < bit) (hxs : ∀ x ∈ xs, x.toNat < 2 ^ bit) :
    fieldsNat bit xs < 2 ^ (bit * xs.length) := by
  have h := ofDigits_lt_base_pow_length (b := 2 ^ bit) (l := xs.map (·.toNat))
    (Nat.one_lt_two_pow (by omega)) (by simpa using hxs)
  rwa [length_map, ← pow_mul] at h

theorem toNat_foldl_fields (xs : List Word) (hxs : ∀ x ∈ xs, x.toNat < 2 ^ bit) (k : ℕ)
    (acc : Word) (hacc : acc.toNat < 2 ^ (bit * k)) (hlen : bit * (k + xs.length) ≤ 64) :
    ((xs.zipIdx k).foldl (orField (· * bit)) acc).toNat = acc.toNat + fieldsNat bit xs * 2 ^ (bit * k) := by
  induction xs generalizing k acc with
  | nil => simp [fieldsNat]
  | cons x xs ih =>
    have hx : x.toNat < 2 ^ bit := hxs x mem_cons_self
    have hpow : 2 ^ (bit * (k + 1)) = 2 ^ bit * 2 ^ (bit * k) := by rw [mul_succ, pow_add, mul_comm]
    have hfit : x.toNat * 2 ^ (bit * k) + 2 ^ (bit * k) ≤ 2 ^ (bit * (k + 1)) := by
      rw [hpow, ← succ_mul]
      exact mul_le_mul_right _ hx
    have hword : 2 ^ (bit * (k + 1)) ≤ 2 ^ 64 := by
      refine Nat.pow_le_pow_right (by omega) (le_trans (mul_le_mul_left _ ?_) hlen)
      rw [length_cons]
      omega
    have hpos : 0 < 2 ^ (bit * k) := Nat.two_pow_pos _
    have hor : (orField (· * bit) acc (x, k)).toNat = acc.toNat + x.toNat * 2 ^ (bit * k) := by
      have hlt : x.toNat * 2 ^ (bit * k) < 2 ^ 64 := by omega
      rw [orField, mul_comm k bit]
      exact toNat_or_shiftLeft hacc hlt
    rw [zipIdx_cons, foldl_cons, ih (forall_mem_cons.mp hxs).2 (k + 1) _ (by rw [hor]; omega)
        (by rw [length_cons] at hlen; rwa [add_assoc, add_comm 1]), hor, hpow]
    simp only [fieldsNat, map_cons, ofDigits_cons]
    rw [add_mul, add_assoc, mul_comm (2 ^ bit) (ofDigits _ _), mul_assoc]

section OrFields

variable {top : ℕ} {sel : Word} (hbit : 0 < bit) (hxs : ∀ x ∈ xs, x.toNat < 2 ^ bit) (htop : bit * xs.length ≤ top)
  (htop' : top ≤ 64) (hsel : sel.toNat * 2 ^ top < 2 ^ 64)

include hbit hxs htop htop' hsel

theorem toNat_orFields : (orFields (· * bit) (sel <<< top) xs).toNat = fieldsNat bit xs + sel.toNat * 2 ^ top := by
  have hzero : (xs.zipIdx.foldl (orField (· * bit)) 0).toNat = fieldsNat bit xs := by
    simpa using toNat_foldl_fields xs hxs 0 0 (by simp) (by rw [zero_add]; omega)
  have hlt : fieldsNat bit xs < 2 ^ top :=
    lt_of_lt_of_le (fieldsNat_lt hbit hxs) (Nat.pow_le_pow_right (by omega) htop)
  have hinit : orFields (· * bit) (sel <<< top) xs = xs.zipIdx.foldl (orField (· * bit)) 0 ||| sel <<< top := by
    rw [← foldl_orField_or]
    simp [orFields]
  rw [hinit, toNat_or_shiftLeft (by rwa [hzero]) hsel, hzero]

theorem top_orFields : orFields (· * bit) (sel <<< top) xs >>> top = sel := by
  refine BitVec.eq_of_toNat_eq ?_
  have hlt : fieldsNat bit xs < 2 ^ top :=
    lt_of_lt_of_le (fieldsNat_lt hbit hxs) (Nat.pow_le_pow_right (by omega) htop)
  rw [BitVec.toNat_ushiftRight, shiftRight_eq_div_pow, toNat_orFields hbit hxs htop htop' hsel,
    add_mul_div_right _ _ (Nat.two_pow_pos _), div_eq_of_lt hlt, zero_add]

theorem field_orFields {mask : Word} (hmask : mask.toNat = 2 ^ bit - 1) {i : ℕ} (hi : i < xs.length) :
    (orFields (· * bit) (sel <<< top) xs >>> (i * bit)) &&& mask = xs[i] := by
  refine BitVec.eq_of_toNat_eq ?_
  have hle : bit * (i + 1) ≤ top := le_trans (mul_le_mul_left _ hi) htop
  -- the number above the fields is a multiple of what the field is read modulo
  have hpow : 2 ^ top = 2 ^ (top - bit * (i + 1)) * 2 ^ bit * 2 ^ (bit * i) := by
    rw [mul_assoc, ← pow_add, ← pow_add]
    congr 1
    rw [mul_succ] at hle ⊢
    omega
  have hdigit : fieldsNat bit xs / 2 ^ (bit * i) % 2 ^ bit = xs[i].toNat := by
    rw [fieldsNat, pow_mul, ofDigits_div_pow_eq_ofDigits_drop i (Nat.two_pow_pos _) _ (by simpa using hxs),
      ← map_drop, drop_eq_getElem_cons hi, map_cons, ofDigits_cons, add_mul_mod_self_left,
      mod_eq_of_lt (hxs _ (getElem_mem hi))]
  rw [BitVec.toNat_and, hmask, and_two_pow_sub_one_eq_mod, BitVec.toNat_ushiftRight,
    shiftRight_eq_div_pow, toNat_orFields hbit hxs htop htop' hsel, mul_comm i bit, hpow,
    ← mul_assoc, add_mul_div_right _ _ (Nat.two_pow_pos _), ← mul_assoc, add_mul_mod_self_right, hdigit]

end OrFields

end Influxdb
