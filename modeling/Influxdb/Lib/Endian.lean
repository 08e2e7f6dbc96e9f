import Mathlib.Algebra.Ring.Nat
import Mathlib.Data.List.Induction
import Influxdb.Lib.Bytes

/-!
# Endian — big endian numbers

`bePut k n` are the `k` low bytes of `n`, most significant first, and `beGet` reads them back.  `putUint64`
and `uint64` are `binary.BigEndian.PutUint64` and `Uint64`, and so for the smaller sizes; `words` reads one word
after the other.
-/

namespace Influxdb

open List

variable {b : List Byte}

/-- The `k` low bytes of `n`, most significant first. -/
def bePut : ℕ → ℕ → List Byte
  | 0, _ => []
  | k + 1, n => bePut k (n / 256) ++ [BitVec.ofNat 8 n]

/-- The number that the bytes hold, most significant first. -/
def beGet (b : List Byte) : ℕ := b.foldl (fun n x => n * 256 + x.toNat) 0

@[simp] theorem length_bePut : ∀ k n, (bePut k n).length = k
  | 0, _ => rfl
  | k + 1, n => by rw [bePut, length_append, length_bePut k, length_singleton]

theorem beGet_concat (b : List Byte) (x : Byte) : beGet (b ++ [x]) = beGet b * 256 + x.toNat := by
  rw [beGet, foldl_append]
  rfl

theorem beGet_bePut : ∀ k n, beGet (bePut k n) = n % 256 ^ k
  | 0, n => by
    rw [pow_zero, Nat.mod_one]
    rfl
  | k + 1, n => by
    have hmod : n % 256 ^ (k + 1) = n % 256 + 256 * (n / 256 % 256 ^ k) := by rw [pow_succ', Nat.mod_mul]
    rw [bePut, beGet_concat, beGet_bePut k, BitVec.toNat_ofNat, hmod]
    omega

theorem beGet_lt (b : List Byte) : beGet b < 256 ^ b.length := by
  induction b using reverseRecOn with
  | nil => exact Nat.one_pos
  | append_singleton b x ih =>
    have hx : x.toNat < 256 := x.isLt
    rw [beGet_concat, length_append, length_singleton, pow_succ]
    omega

theorem bePut_beGet (b : List Byte) : bePut b.length (beGet b) = b := by
  induction b using reverseRecOn with
  | nil => rfl
  | append_singleton b x ih =>
    have hx : x.toNat < 256 := x.isLt
    have hdiv : beGet (b ++ [x]) / 256 = beGet b := by
      rw [beGet_concat]
      omega
    have hmod : BitVec.ofNat 8 (beGet (b ++ [x])) = x := by
      refine BitVec.eq_of_toNat_eq ?_
      rw [BitVec.toNat_ofNat, beGet_concat]
      omega
    rw [length_append, length_singleton, bePut, hdiv, hmod, ih]

/-! ## Words -/

variable (v : Word)

/-- `binary.BigEndian.PutUint64`. -/
def putUint64 : List Byte := bePut 8 v.toNat

/-- `binary.BigEndian.Uint64`. -/
def uint64 (b : List Byte) : Word := BitVec.ofNat 64 (beGet (b.take 8))

/-- `binary.BigEndian.PutUint32`. -/
def putUint32 (v : BitVec 32) : List Byte := bePut 4 v.toNat

/-- `binary.BigEndian.Uint32`. -/
def uint32 (b : List Byte) : BitVec 32 := BitVec.ofNat 32 (beGet (b.take 4))

/-- `binary.BigEndian.PutUint16`. -/
def putUint16 (v : BitVec 16) : List Byte := bePut 2 v.toNat

/-- `binary.BigEndian.Uint16`. -/
def uint16 (b : List Byte) : BitVec 16 := BitVec.ofNat 16 (beGet (b.take 2))

@[simp] theorem length_putUint64 : (putUint64 v).length = 8 := length_bePut 8 _

@[simp] theorem length_putUint32 (v : BitVec 32) : (putUint32 v).length = 4 := length_bePut 4 _

@[simp] theorem length_putUint16 (v : BitVec 16) : (putUint16 v).length = 2 := length_bePut 2 _

theorem ofNat_beGet_bePut {w k : ℕ} {v : BitVec w} (h : v.toNat < 256 ^ k) (rest : List Byte) :
    BitVec.ofNat w (beGet ((bePut k v.toNat ++ rest).take k)) = v := by
  rw [take_left' (length_bePut k _), beGet_bePut, Nat.mod_eq_of_lt h, BitVec.ofNat_toNat, BitVec.setWidth_eq]

@[simp] theorem uint64_putUint64_append (rest : List Byte) : uint64 (putUint64 v ++ rest) = v :=
  ofNat_beGet_bePut v.isLt rest

@[simp] theorem uint32_putUint32_append (v : BitVec 32) (rest : List Byte) : uint32 (putUint32 v ++ rest) = v :=
  ofNat_beGet_bePut v.isLt rest

@[simp] theorem uint16_putUint16_append (v : BitVec 16) (rest : List Byte) : uint16 (putUint16 v ++ rest) = v :=
  ofNat_beGet_bePut v.isLt rest

theorem putUint32_uint32 (h : b.length = 4) : putUint32 (uint32 b) = b := by
  have hlt : beGet b < 2 ^ 32 := by
    have hget := beGet_lt b
    rw [h] at hget
    exact hget
  rw [uint32, take_of_length_le (by omega), putUint32, BitVec.toNat_ofNat, Nat.mod_eq_of_lt hlt]
  have hput := bePut_beGet b
  rwa [h] at hput

@[simp] theorem uint64_putUint64 : uint64 (putUint64 v) = v := by
  simpa using uint64_putUint64_append v []

def takeWords : ℕ → List Byte → List Word
  | 0, _ => []
  | n + 1, b => uint64 b :: takeWords n (b.drop 8)

/-- The words of the bytes, without what is left at the end. -/
def words (b : List Byte) : List Word := takeWords (b.length / 8) b

theorem words_of_lt (h : b.length < 8) : words b = [] := by
  rw [words, Nat.div_eq_of_lt h]
  rfl

theorem words_of_le (h : 8 ≤ b.length) : words b = uint64 b :: words (b.drop 8) := by
  obtain ⟨k, hk⟩ : ∃ k, b.length / 8 = k + 1 := ⟨b.length / 8 - 1, by omega⟩
  rw [words, hk, takeWords, words, length_drop]
  congr 2
  omega

variable (ws : List Word)

def putWords : List Byte := ws.flatMap putUint64

@[simp] theorem putWords_nil : putWords [] = [] := rfl

@[simp] theorem putWords_cons : putWords (v :: ws) = putUint64 v ++ putWords ws := rfl

@[simp] theorem putWords_append (ws ws' : List Word) : putWords (ws ++ ws') = putWords ws ++ putWords ws' :=
  flatMap_append

@[simp] theorem length_putWords : ∀ ws, (putWords ws).length = 8 * ws.length
  | [] => rfl
  | v :: ws => by
    rw [putWords_cons, length_append, length_putUint64, length_putWords ws, length_cons]
    omega

theorem takeWords_putWords : ∀ ws rest, takeWords ws.length (putWords ws ++ rest) = ws
  | [], _ => rfl
  | v :: ws, rest => by
    rw [putWords_cons, append_assoc, length_cons, takeWords, uint64_putUint64_append,
      drop_left' (length_putUint64 v), takeWords_putWords ws rest]

theorem length_words_le (b : List Byte) : 8 * (words b).length ≤ b.length := by
  induction hn : b.length using Nat.strongRecOn generalizing b with
  | ind n ih =>
    by_cases h : b.length < 8
    · rw [words_of_lt h]
      exact Nat.zero_le _
    · have hdrop := ih (b.drop 8).length (by rw [length_drop]; omega) (b.drop 8) rfl
      rw [length_drop] at hdrop
      rw [words_of_le (not_lt.mp h), length_cons]
      omega

theorem words_append (rest : List Byte) : ∀ ws, words (putWords ws ++ rest) = ws ++ words rest
  | [] => rfl
  | v :: ws => by
    have hlength : 8 ≤ (putWords (v :: ws) ++ rest).length := by
      rw [length_append, length_putWords, length_cons]
      omega
    rw [words_of_le hlength, putWords_cons, append_assoc, uint64_putUint64_append,
      drop_left' (length_putUint64 v), words_append rest ws, cons_append]

/-- **Words** can be read back. -/
@[simp] theorem words_putWords : words (putWords ws) = ws := by
  have h := takeWords_putWords ws []
  rw [append_nil] at h
  rw [words, length_putWords, Nat.mul_div_cancel_left _ (by omega), h]

end Influxdb
