import Influxdb.Lib.Buffer
import Influxdb.Lib.Delta
import Influxdb.Lib.Varint

/-!
# Frame — the layout of encoded timestamps and integers

Both codecs put the encoding type into the 4 high bits of the first byte.  Run-length encoded values are a
first value and two variable length integers, packed ones a first value and words, uncompressed ones words
only.
-/

namespace Influxdb.Tsm1

open List

/-- The switch over the encoding types: uncompressed, packed and run-length encoded. -/
def switchEncoding {α : Type*} (encoding : Byte) (uncompressed packed rle invalid : α) : α :=
  if encoding = 0 then uncompressed
  else if encoding = 1 then packed
  else if encoding = 2 then rle
  else invalid

section Switch

variable {α : Type*} (uncompressed packed rle invalid : α)

@[simp] theorem switchEncoding_zero : switchEncoding 0 uncompressed packed rle invalid = uncompressed := rfl

@[simp] theorem switchEncoding_one : switchEncoding 1 uncompressed packed rle invalid = packed := rfl

@[simp] theorem switchEncoding_two : switchEncoding 2 uncompressed packed rle invalid = rle := rfl

end Switch

variable (b : List Byte)

variable (header : Byte)

/-- Write the header, the first value, the delta and the count; also the index behind them. -/
def writeRLE (first delta count : Word) : Except String (List Byte × ℕ) := do
  let b ← writeAt b 0 [header]
  let b ← writeAt b 1 (putUint64 first)
  let b ← writeAt b 9 (putUvarint delta)
  let i := 9 + (putUvarint delta).length
  let b ← writeAt b i (putUvarint count)
  return (b, i + (putUvarint count).length)

variable (first : Word)

/-- Write the header, the first value and the words. -/
def writePacked (encoded : List Word) : Except String (List Byte) := do
  let b ← writeAt b 0 [header]
  let b ← writeAt b 1 (putUint64 first)
  writeWords b 9 encoded

/-- Write the header, the first value and bytes that are packed already. -/
def writePackedBytes (packed : List Byte) : Except String (List Byte) := do
  let b ← writeAt b 0 [header]
  let b ← writeAt b 1 (putUint64 first)
  writeAt b 9 packed

def writeUncompressed (values : List Word) : Except String (List Byte) := do
  let b ← writeAt b 0 [header]
  writeWords b 1 values

/-- The values `acc, acc + delta, ...`. -/
def runLength (acc delta : Word) : ℕ → List Word
  | 0 => []
  | n + 1 => acc :: runLength (acc + delta) delta n

theorem toInt_count {n : ℕ} (hn : n < 2 ^ 63) : (BitVec.ofNat 64 n).toInt = n ∧ (BitVec.ofNat 64 n).toNat = n := by
  have hnat : (BitVec.ofNat 64 n).toNat = n := by
    rw [BitVec.toNat_ofNat]
    omega
  refine ⟨?_, hnat⟩
  rw [BitVec.toInt_eq_toNat_of_lt (by rw [hnat]; omega), hnat]

theorem length_runLength (acc delta : Word) (n : ℕ) : (runLength acc delta n).length = n := by
  induction n generalizing acc with
  | zero => rfl
  | succ n ih => rw [runLength, length_cons, ih]

theorem runLength_succ (first delta : Word) (n : ℕ) :
    runLength first delta (n + 1) = first :: sums first (List.replicate n delta) := by
  induction n generalizing first with
  | zero => rfl
  | succ n ih => rw [runLength, ih, replicate_succ, sums]

theorem foldr_max_le_iff (vs : List Word) (m : Word) :
    vs.foldr (fun v max => if v > max then v else max) 0 ≤ m ↔ ∀ v ∈ vs, v ≤ m := by
  induction vs with
  | nil => simp [BitVec.le_def]
  | cons d vs ih =>
    rw [foldr_cons, forall_mem_cons, ← ih]
    split_ifs with h
    · exact ⟨fun hd => ⟨hd, le_trans h.le hd⟩, fun hd => hd.1⟩
    · exact ⟨fun hd => ⟨le_trans (not_lt.mp h) hd, hd⟩, fun hd => hd.2⟩

/-! ## What is written -/

/-- Run-length encoded bytes. -/
def rleFrame (first delta count : Word) : List Byte :=
  header :: (putUint64 first ++ (putUvarint delta ++ putUvarint count))

def packedFrame (encoded : List Word) : List Byte :=
  header :: (putUint64 first ++ putWords encoded)

def uncompressedFrame (values : List Word) : List Byte := header :: putWords values

variable {b : List Byte} {header : Byte} {first delta count : Word} {encoded values : List Word}

theorem length_packedFrame : (packedFrame header first encoded).length = 1 + (encoded.length + 1) * 8 := by
  rw [packedFrame, length_cons, length_append, length_putUint64, length_putWords]
  omega

theorem length_uncompressedFrame : (uncompressedFrame header values).length = 1 + values.length * 8 := by
  rw [uncompressedFrame, length_cons, length_putWords]
  omega

theorem writeAt_header (hlen : 1 ≤ b.length) : writeAt b 0 [header] = .ok ([header] ++ b.drop 1) :=
  writeAt_append (w := []) rfl hlen

theorem writeFirst (hlen : 9 ≤ b.length) {α : Type} (k : List Byte → Except String α) :
    (do let b ← writeAt b 0 [header]; let b ← writeAt b 1 (putUint64 first); k b) =
      k ((header :: putUint64 first) ++ b.drop 9) := by
  have h1 : writeAt ([header] ++ b.drop 1) 1 (putUint64 first) =
      .ok ([header] ++ putUint64 first ++ (b.drop 1).drop (putUint64 first).length) :=
    writeAt_append rfl (by rw [length_putUint64, length_drop]; omega)
  rw [writeAt_header (by omega)]
  simp only [bind, Except.bind]
  rw [h1, length_putUint64, drop_drop]
  rfl

theorem writeRLE_eq (hlen : 31 ≤ b.length) : writeRLE b header first delta count =
    .ok (rleFrame header first delta count ++ b.drop (rleFrame header first delta count).length,
      (rleFrame header first delta count).length) := by
  have hdelta := length_putUvarint_le delta
  have hcount := length_putUvarint_le count
  rw [maxVarintLen64] at hdelta hcount
  have hframe : (rleFrame header first delta count).length =
      9 + (putUvarint delta).length + (putUvarint count).length := by
    simp only [rleFrame, length_cons, length_append, length_putUint64]
    omega
  rw [writeRLE, writeFirst (by omega), writeAt_append (by simp) (by rw [length_drop]; omega)]
  simp only [bind, Except.bind]
  rw [writeAt_append (by simp only [length_append, length_cons, length_putUint64])
    (by simp only [length_drop]; omega), hframe]
  simp [pure, Except.pure, rleFrame, drop_drop]

theorem writePacked_eq (hlen : 1 + (encoded.length + 1) * 8 ≤ b.length) : writePacked b header first encoded =
    .ok (packedFrame header first encoded ++ b.drop (1 + (encoded.length + 1) * 8)) := by
  rw [writePacked, writeFirst (by omega), writeWords_append (by simp) (by rw [length_drop]; omega), drop_drop]
  congr 3
  omega

theorem writePackedBytes_eq {packed : List Byte} (hlen : 9 + packed.length ≤ b.length) :
    writePackedBytes b header first packed =
      .ok (header :: (putUint64 first ++ packed) ++ b.drop (9 + packed.length)) := by
  rw [writePackedBytes, writeFirst (by omega), writeAt_append (by simp) (by rw [length_drop]; omega), drop_drop]
  rfl

theorem writeUncompressed_eq (hlen : 1 + values.length * 8 ≤ b.length) : writeUncompressed b header values =
    .ok (uncompressedFrame header values ++ b.drop (1 + values.length * 8)) := by
  rw [writeUncompressed, writeAt_header (by omega)]
  simp only [bind, Except.bind]
  rw [writeWords_append (by simp) (by rw [length_drop]; omega), drop_drop]
  congr 3
  omega

/-! ## What is read -/

variable (header first delta) (rest : List Byte)

theorem frame_length : ¬ (header :: (putUint64 first ++ rest)).length < 9 := by
  rw [length_cons, length_append, length_putUint64]
  omega

theorem frame_first : uint64 ((header :: (putUint64 first ++ rest)).drop 1) = first :=
  uint64_putUint64_append first rest

theorem frame_rest : (header :: (putUint64 first ++ rest)).drop 9 = rest := drop_left' (length_putUint64 first)

theorem frame_delta : uvarint ((header :: (putUint64 first ++ (putUvarint delta ++ rest))).drop 9) =
      (delta, ((putUvarint delta).length : Int)) := by
  rw [frame_rest, uvarint_putUvarint]

theorem not_length_putUvarint_le (v : Word) : ¬ ((putUvarint v).length : Int) ≤ 0 := by
  have := length_putUvarint_pos v
  omega

theorem frame_count (count : Word) :
    uvarint ((header :: (putUint64 first ++ (putUvarint delta ++ putUvarint count))).drop
      (9 + (putUvarint delta).length)) = (count, ((putUvarint count).length : Int)) := by
  have h := uvarint_putUvarint count []
  rw [append_nil] at h
  rw [← drop_drop, frame_rest, drop_left, h]

end Influxdb.Tsm1
