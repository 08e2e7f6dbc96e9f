import Influxdb.Lib.Endian

/-!
# Buffer — writing into a byte slice

A slice has a length and a capacity; growing it within its capacity shows what was in it before.  A write
puts bytes at an index and panics out of range.  When every write starts where the one before ended, what
was in the buffer does not matter (`writeAt_append`, `writeWords_append`).
-/

namespace Influxdb

open List

/-- A byte slice: the bytes up to its capacity and its length. -/
structure Slice where
  data : List Byte
  len : ℕ
  le : len ≤ data.length

namespace Slice

variable (b : Slice)

def bytes : List Byte := b.data.take b.len

/-- A slice without spare capacity. -/
def ofList (l : List Byte) : Slice := ⟨l, l.length, le_rfl⟩

@[simp] theorem length_bytes : b.bytes.length = b.len := length_take_of_le b.le

variable (sz : ℕ)

/-- Make the slice at least `sz` long: within the capacity if possible, else with zeros behind it. -/
def grow : List Byte :=
  if b.len < sz ∧ b.data.length ≥ sz then b.data.take sz
  else if b.len < sz then b.bytes ++ List.replicate (sz - b.len) 0
  else b.bytes

theorem length_grow : (b.grow sz).length = if b.len < sz then sz else b.len := by
  unfold grow
  split_ifs with h1 h2 h2
  · exact length_take_of_le h1.2
  · exact absurd h1.1 h2
  · rw [length_append, length_bytes, length_replicate]
    omega
  · exact b.length_bytes

theorem le_length_grow : sz ≤ (b.grow sz).length := by
  rw [length_grow]
  split_ifs <;> omega

end Slice

/-- Overwrite the bytes from index `i` on; out of range is a panic. -/
def writeAt (b : List Byte) (i : ℕ) (bs : List Byte) : Except String (List Byte) :=
  if i + bs.length ≤ b.length then .ok (b.take i ++ bs ++ b.drop (i + bs.length))
  else .error "index out of range"

/-- Overwrite words from index `i` on. -/
def writeWords (b : List Byte) (i : ℕ) : List Word → Except String (List Byte)
  | [] => .ok b
  | v :: ws => do
    let b ← writeAt b i (putUint64 v)
    writeWords b (i + 8) ws

variable {w old bs : List Byte} {i : ℕ}

theorem writeAt_append (hi : i = w.length) (hlen : bs.length ≤ old.length) :
    writeAt (w ++ old) i bs = .ok (w ++ bs ++ old.drop bs.length) := by
  subst hi
  rw [writeAt, if_pos (by rw [length_append]; omega), take_left, drop_length_add_append]

theorem writeWords_append {ws : List Word} (hi : i = w.length) (hlen : 8 * ws.length ≤ old.length) :
    writeWords (w ++ old) i ws = .ok (w ++ putWords ws ++ old.drop (8 * ws.length)) := by
  induction ws generalizing w old i with
  | nil => simp [writeWords]
  | cons v ws ih =>
    rw [length_cons] at hlen
    rw [writeWords, writeAt_append hi (by rw [length_putUint64]; omega)]
    show writeWords (w ++ putUint64 v ++ old.drop (putUint64 v).length) (i + 8) ws = _
    rw [length_putUint64, ih (by rw [length_append, length_putUint64]; omega)
      (by rw [length_drop]; omega), putWords_cons, drop_drop, append_assoc w, length_cons,
      Nat.mul_succ, Nat.add_comm 8]

end Influxdb
