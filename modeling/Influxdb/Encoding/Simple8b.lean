import Influxdb.Lib.Endian
import Influxdb.Lib.Fields

/-!
# Simple8b — `pkg/encoding/simple8b`

A word holds as many values as fit: four bits select how many there are and how many bits each one has, and
the values lie side by side in the other 60 bits.  The first two selectors stand for runs of ones.
-/

namespace Influxdb.Simple8b

def maxValue : Word := 1152921504606846975

/-! ## Packing one word -/

/-- The values side by side, `bit` bits each, under the selector. -/
def packBits (sel bit : ℕ) (src : List Word) : Word := orFields (· * bit) (BitVec.ofNat 64 sel <<< 60) src

def unpackBits (n bit : ℕ) (mask : Word) (v : Word) : List Word :=
  (List.range n).map fun i => (v >>> (i * bit)) &&& mask

def pack240 (_ : List Word) : Word := 0

def pack120 (_ : List Word) : Word := 0

/-- `pack60`: 60 values using 1 bit each. -/
def pack60 : List Word → Word := packBits 2 1

/-- `pack30`: 30 values using 2 bits each. -/
def pack30 : List Word → Word := packBits 3 2

/-- `pack20`: 20 values using 3 bits each. -/
def pack20 : List Word → Word := packBits 4 3

/-- `pack15`: 15 values using 4 bits each. -/
def pack15 : List Word → Word := packBits 5 4

/-- `pack12`: 12 values using 5 bits each. -/
def pack12 : List Word → Word := packBits 6 5

/-- `pack10`: 10 values using 6 bits each. -/
def pack10 : List Word → Word := packBits 7 6

/-- `pack8`: 8 values using 7 bits each. -/
def pack8 : List Word → Word := packBits 8 7

/-- `pack7`: 7 values using 8 bits each. -/
def pack7 : List Word → Word := packBits 9 8

/-- `pack6`: 6 values using 10 bits each. -/
def pack6 : List Word → Word := packBits 10 10

/-- `pack5`: 5 values using 12 bits each. -/
def pack5 : List Word → Word := packBits 11 12

/-- `pack4`: 4 values using 15 bits each. -/
def pack4 : List Word → Word := packBits 12 15

/-- `pack3`: 3 values using 20 bits each. -/
def pack3 : List Word → Word := packBits 13 20

/-- `pack2`: 2 values using 30 bits each. -/
def pack2 : List Word → Word := packBits 14 30

/-- `pack1`: 1 value using 60 bits each. -/
def pack1 : List Word → Word := packBits 15 60

def unpack240 (_ : Word) : List Word := List.replicate 240 1

def unpack120 (_ : Word) : List Word := List.replicate 120 1

def unpack60 : Word → List Word := unpackBits 60 1 1

def unpack30 : Word → List Word := unpackBits 30 2 3

def unpack20 : Word → List Word := unpackBits 20 3 7

def unpack15 : Word → List Word := unpackBits 15 4 15

def unpack12 : Word → List Word := unpackBits 12 5 31

def unpack10 : Word → List Word := unpackBits 10 6 63

def unpack8 : Word → List Word := unpackBits 8 7 127

def unpack7 : Word → List Word := unpackBits 7 8 255

def unpack6 : Word → List Word := unpackBits 6 10 1023

def unpack5 : Word → List Word := unpackBits 5 12 4095

def unpack4 : Word → List Word := unpackBits 4 15 32767

def unpack3 : Word → List Word := unpackBits 3 20 1048575

def unpack2 : Word → List Word := unpackBits 2 30 1073741823

def unpack1 : Word → List Word := unpackBits 1 60 1152921504606846975

structure Packing where
  n : ℕ
  bit : ℕ
  unpack : Word → List Word
  pack : List Word → Word

def selector : List Packing :=
  [ ⟨240, 0, unpack240, pack240⟩, ⟨120, 0, unpack120, pack120⟩, ⟨60, 1, unpack60, pack60⟩, ⟨30, 2, unpack30, pack30⟩,
    ⟨20, 3, unpack20, pack20⟩, ⟨15, 4, unpack15, pack15⟩, ⟨12, 5, unpack12, pack12⟩, ⟨10, 6, unpack10, pack10⟩,
    ⟨8, 7, unpack8, pack8⟩, ⟨7, 8, unpack7, pack7⟩, ⟨6, 10, unpack6, pack6⟩, ⟨5, 12, unpack5, pack5⟩,
    ⟨4, 15, unpack4, pack4⟩, ⟨3, 20, unpack3, pack3⟩, ⟨2, 30, unpack2, pack2⟩, ⟨1, 60, unpack1, pack1⟩ ]

variable (v : Word)

theorem sel_lt : (v >>> 60).toNat < selector.length := by
  have h : v.toNat < 18446744073709551616 := v.isLt
  rw [BitVec.toNat_ushiftRight, Nat.shiftRight_eq_div_pow]
  show v.toNat / 1152921504606846976 < 16
  omega

def packingOf : Packing := selector.get ⟨(v >>> 60).toNat, sel_lt v⟩

def decode : List Word := (packingOf v).unpack v

variable (src : List Word)

def canPack (n bits : ℕ) : Bool :=
  if src.length < n then false
  -- selectors 0 and 1 use 0 bits to encode runs of 1's
  else if bits = 0 then src.all (· = 1)
  else
    let max := (1 : Word) <<< bits - 1
    (src.take n).all fun s => !(s > max)

/-- `Encode`: one word, and the number of values in it. -/
def encode : Except String (Word × ℕ) :=
  if canPack src 240 0 then .ok (0, 240)
  else if canPack src 120 0 then .ok ((1 : Word) <<< 60, 120)
  else
    match (selector.drop 2).find? fun p => canPack src p.n p.bit with
    | some p => .ok (p.pack (src.take p.n), p.n)
    | none =>
      if src.length > 0 then
        .error ("value out of bounds: [" ++ " ".intercalate (src.map fun v => toString v.toNat) ++ "]")
      else .ok (0, 0)

/-! ## Packing all values -/

def numBits : List (ℕ × ℕ) :=
  [(60, 1), (30, 2), (20, 3), (15, 4), (12, 5), (10, 6), (8, 7), (7, 8), (6, 10), (5, 12), (4, 15), (3, 20), (2, 30), (1, 60)]

/-- The loop over the codes. -/
def encodeCode (remaining : List Word) : ℕ → List (ℕ × ℕ) → Option (Word × ℕ)
  | _, [] => none
  | code, (intN, bitN) :: rest =>
    if intN > remaining.length then encodeCode remaining (code + 1) rest
    else if (remaining.take intN).any (· ≥ (1 : Word) <<< (bitN % 64)) then encodeCode remaining (code + 1) rest
    else
      some (orFields (· * bitN % 256 % 64) (BitVec.ofNat 64 (code + 2) <<< 60) (remaining.take intN), intN)

/-- The number of ones at the start of the first 240 or 120 values. -/
def leadingOnes (remaining : List Word) : ℕ :=
  ((remaining.take (if remaining.length ≥ 240 then 240 else 120)).takeWhile (· = 1)).length

/-- The next word, and the number of values in it. -/
def encodeNext (remaining : List Word) : Option (Word × ℕ) :=
  if remaining.length ≥ 120 ∧ leadingOnes remaining = 240 then some (0, 240)
  else if remaining.length ≥ 120 ∧ leadingOnes remaining ≥ 120 then some ((1 : Word) <<< 60, 120)
  else encodeCode remaining 0 numBits

/-- The loop of `EncodeAll`, with fuel: `dst` and `src` are one slice, read from `i` on and written at `j`. -/
def encodeAllLoop : ℕ → List Word → ℕ → ℕ → Except String (List Word)
  | 0, dst, _, j => .ok (dst.take j)
  | fuel + 1, dst, i, j =>
    if i < dst.length then
      match encodeNext (dst.drop i) with
      | some (v, n) => encodeAllLoop fuel (dst.set j v) (i + n) (j + 1)
      | none => .error "value out of bounds"
    else .ok (dst.take j)

/-- `EncodeAll`: the words are written over the values. -/
def encodeAll : Except String (List Word) := encodeAllLoop src.length src 0 0

/-! ## Unpacking all words -/

def countBytes (b : List Byte) : Except String ℕ :=
  let count := (words b).foldl (fun count v => count + (packingOf v).n) 0
  if b.length % 8 > 0 then .error ("invalid slice len remaining: " ++ toString (b.length % 8)) else .ok count

/-- `DecodeBytesBigEndian`: the values that are written. -/
def decodeBytesBigEndian (src : List Byte) : Except String (List Word) :=
  if src.length % 8 ≠ 0 then .error "src length is not multiple of 8" else .ok ((words src).flatMap decode)

/-! ## Encoder -/

/-- `Encoder`: `buf[:t]`, `h` and `bytes[:bp]`. -/
structure Encoder where
  buf : List Word
  h : ℕ
  bytes : List Byte

namespace Encoder

def cap : ℕ := 240

/-- `NewEncoder`; `Reset` brings every encoder back to it. -/
def newEncoder : Encoder := ⟨[], 0, []⟩

variable (e : Encoder)

def flush : Except String Encoder :=
  if e.buf.length = 0 then .ok e
  else do
    -- encode as many values into one as we can
    let (encoded, n) ← encode (e.buf.drop e.h)
    let e := { e with bytes := e.bytes ++ putUint64 encoded, h := e.h + n }
    return if e.h = e.buf.length then { e with buf := [], h := 0 } else e

def flushFull : Except String Encoder := if e.buf.length ≥ cap then e.flush else .ok e

def write (v : Word) : Except String Encoder := do
  let e ← e.flushFull
  -- the buf is full but there is space at the front
  let e := if e.buf.length ≥ cap then { e with buf := e.buf.drop e.h, h := 0 } else e
  return { e with buf := e.buf ++ [v] }

/-- The loop of `Bytes`, with fuel. -/
def bytesLoop : ℕ → Encoder → Except String Encoder
  | 0, e => .ok e
  | fuel + 1, e => if e.buf.length > 0 then do bytesLoop fuel (← e.flush) else .ok e

/-- `Bytes`; a flush takes at least one value. -/
def getBytes : Except String (List Byte × Encoder) := do
  let e ← bytesLoop (e.buf.length + 1) e
  return (e.bytes, e)

end Encoder

/-! ## Decoder -/

structure Decoder where
  bytes : List Byte
  buf : List Word
  i : ℕ
  n : ℕ

namespace Decoder

variable (d : Decoder)

def setBytes (b : List Byte) : Decoder := { d with bytes := b, i := 0, n := 0 }

/-- `read`, of a word.  The values are written over the first ones of `buf`. -/
def readWord : Decoder :=
  if d.bytes.length < 8 then d
  else
    let v := uint64 d.bytes
    { bytes := d.bytes.drop 8, buf := decode v ++ d.buf.drop (packingOf v).n, i := 0, n := (packingOf v).n }

def next : Bool × Decoder :=
  let d := { d with i := d.i + 1 }
  let d := if d.i ≥ d.n then d.readWord else d
  (decide (d.bytes.length ≥ 8) || decide (d.i < d.n), d)

def read : Word × Decoder := (d.buf.getD d.i 0, d)

end Decoder

end Influxdb.Simple8b
