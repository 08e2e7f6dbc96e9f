import Influxdb.Lib.Bytes

/-!
# Delta — deltas and prefix sums of words

`deltas prev l` are the differences of the values of `l` from the one before, the first from `prev`, and
`sums prev` adds them up again; both are modulo 2^64.
-/

namespace Influxdb

open List

/-- The differences of neighbours, the first one from `prev`. -/
def deltas (prev : Word) : List Word → List Word
  | [] => []
  | v :: l => (v - prev) :: deltas v l

def sums (prev : Word) : List Word → List Word
  | [] => []
  | d :: l => (prev + d) :: sums (prev + d) l

@[simp] theorem length_deltas : ∀ prev l, (deltas prev l).length = l.length
  | _, [] => rfl
  | _, v :: l => by rw [deltas, length_cons, length_deltas v l, length_cons]

@[simp] theorem length_sums : ∀ prev l, (sums prev l).length = l.length
  | _, [] => rfl
  | prev, d :: l => by rw [sums, length_cons, length_sums (prev + d) l, length_cons]

/-- **Deltas** add up to the values again. -/
@[simp] theorem sums_deltas : ∀ prev l, sums prev (deltas prev l) = l
  | _, [] => rfl
  | prev, v :: l => by
    have h : prev + (v - prev) = v := by rw [BitVec.add_comm, BitVec.sub_add_cancel]
    rw [deltas, sums, h, sums_deltas v l]

theorem deltas_concat (v : Word) : ∀ prev l, deltas prev (l ++ [v]) = deltas prev l ++ [v - l.getLastD prev]
  | _, [] => rfl
  | prev, w :: l => by
    rw [cons_append, deltas, deltas_concat v w l, deltas, cons_append, getLastD_cons]

theorem sums_replicate (first d : Word) (n k : ℕ) : sums (first + BitVec.ofNat 64 k * d) (replicate n d) =
    (range' (k + 1) n).map fun i => first + BitVec.ofNat 64 i * d := by
  induction n generalizing k with
  | zero => rfl
  | succ n ih =>
    have hnext : first + BitVec.ofNat 64 k * d + d = first + BitVec.ofNat 64 (k + 1) * d := by
      rw [BitVec.add_assoc, BitVec.ofNat_add, BitVec.add_mul, BitVec.one_mul]
    rw [replicate_succ, sums, hnext, ih (k + 1), range'_succ, map_cons]

end Influxdb
