import Mathlib.Data.Nat.Log
import Influxdb.Encoding.Simple8b
import Influxdb.Lib.Iter
import Influxdb.Tsm1.Frame

/-!
# Timestamp — the timestamp codec (`timestamp.go`, `batch_timestamp.go`)

Timestamps are `int64`s, taken as words.  Their deltas are run-length encoded when they are all the same,
packed with simple8b when they are small enough, after a division by a power of ten, and stored as they are
otherwise.  There is an encoder that is written to one value at a time, an encoder of a whole slice, and a
decoder for each.  A panic is an error too.
-/

namespace Influxdb.Tsm1

open Simple8b (maxValue)

def timeUncompressed : Byte := 0

def timeCompressedPackedSimple : Byte := 1

def timeCompressedRLE : Byte := 2

/-- `byte(math.Log10(float64(div)))`, which is exact on powers of ten. -/
def log10 (div : Word) : Byte := BitVec.ofNat 8 (Nat.log 10 div.toNat)

/-- `uint64(math.Pow10(int(b & 0xF)))`. -/
def pow10 (b : Byte) : Word := BitVec.ofNat 64 (10 ^ (b &&& 0xf).toNat)

/-- The header: the encoding type in the 4 high bits, the log10 of the divisor in the 4 low bits. -/
def header (encoding : Byte) (div : Word) : Byte := encoding <<< 4 ||| log10 div

/-- The loop `for div > 1 && v%div != 0 { div /= 10 }`, with fuel. -/
def shrinkDivisor : ℕ → Word → Word → Word
  | 0, _, div => div
  | fuel + 1, v, div => if div > 1 ∧ v % div ≠ 0 then shrinkDivisor fuel v (div / 10) else div

/-- The loop from a divisor of at most 1e12. -/
def fitDivisor (v div : Word) : Word := shrinkDivisor 13 v div

/-- The largest divisor that is tried, 1e12. -/
def maxDivisor : Word := 1000000000000

/-- The deltas, computed in place: the first value stays. -/
def inPlaceDeltas : List Word → List Word
  | [] => []
  | first :: rest => first :: deltas first rest

/-! ## The encoder -/

/-- `encoder`: `bytes` are the bytes up to the capacity of the buffer. -/
structure TimeEncoder where
  ts : List Word
  bytes : List Byte
  enc : Simple8b.Encoder

/-- What `reduce` computes; `next` is the delta it looked at before. -/
structure Reduced where
  max : Word
  divisor : Word
  rle : Bool
  next : Option Word

def reduceStep (v : Word) (r : Reduced) : Reduced where
  max := if v > r.max then v else r.max
  divisor := fitDivisor v r.divisor
  rle := r.next.isNone || r.rle && r.next == some v
  next := some v

namespace TimeEncoder

def newTimeEncoder : TimeEncoder := ⟨[], [], Simple8b.Encoder.newEncoder⟩

variable (e : TimeEncoder)

def reset : TimeEncoder := { e with ts := [], enc := Simple8b.Encoder.newEncoder }

def write (t : Word) : TimeEncoder := { e with ts := e.ts ++ [t] }

/-- `reduce`, from the last delta to the first. -/
def reduce (dts : List Word) : Reduced := dts.tail.foldr reduceStep ⟨0, maxDivisor, true, none⟩

/-- `e.bytes[:sz]`, after a new buffer was made if the capacity is too small. -/
def buffer (sz : ℕ) : List Byte :=
  if e.bytes.length < sz then List.replicate sz 0 else e.bytes.take sz

/-- The encoder after `b` was written to its buffer. -/
def setBuffer (b : List Byte) : TimeEncoder := { e with bytes := b ++ e.bytes.drop b.length }

def encodePacked (div : Word) (dts : List Word) : Except String (List Byte × TimeEncoder) := do
  let values := if div > 1 then dts.tail.map (· / div) else dts.tail
  let enc ← values.foldlM Simple8b.Encoder.write e.enc
  let (packed, enc) ← enc.getBytes
  let sz := 8 + 1 + packed.length
  let b ← writePackedBytes (e.buffer sz) (header timeCompressedPackedSimple div) (dts.headD 0) packed
  return (b.take (9 + packed.length), { e.setBuffer b with enc := enc })

def encodeRaw : Except String (List Byte × TimeEncoder) := do
  let sz := 1 + e.ts.length * 8
  let b ← writeUncompressed (e.buffer sz) (timeUncompressed <<< 4) e.ts
  return (b, e.setBuffer b)

def encodeRLE (first delta div : Word) (n : ℕ) : Except String (List Byte × TimeEncoder) := do
  let (b, i) ← writeRLE (e.buffer 31) (header timeCompressedRLE div) first (delta / div) (BitVec.ofNat 64 n)
  return (b.take i, e.setBuffer b)

def encodeDeltas (r : Reduced) : Except String (List Byte × TimeEncoder) :=
  -- the deltas are all the same, so we can run-length encode them
  if r.rle ∧ e.ts.length > 1 then e.encodeRLE (e.ts.getD 0 0) (e.ts.getD 1 0) r.divisor e.ts.length
  -- we can't compress this time-range
  else if r.max > maxValue then e.encodeRaw
  else e.encodePacked r.divisor e.ts

def getBytes : Except String (List Byte × TimeEncoder) :=
  if e.ts.length = 0 then .ok ([], e)
  else
    let dts := inPlaceDeltas e.ts
    { e with ts := dts }.encodeDeltas (reduce dts)

end TimeEncoder

/-! ## The batch encoder -/

variable (b : Slice)

variable (dts : List Word)

/-- The run-length encoding of `TimeArrayEncodeAll`. -/
def timeArrayEncodeRLE : Except String (List Byte) := do
  let delta := dts.getD 1 0
  let div := fitDivisor delta maxDivisor
  let (b, i) ← writeRLE (b.grow 31) (if div > 1 then header timeCompressedRLE div else timeCompressedRLE <<< 4)
    (dts.headD 0) (if div > 1 then delta / div else delta) (BitVec.ofNat 64 dts.length)
  return b.take i

/-- The uncompressed encoding of `TimeArrayEncodeAll`. -/
def timeArrayEncodeRaw : Except String (List Byte) := do
  let sz := 1 + dts.length * 8
  let b ← writeUncompressed (b.grow sz) (timeUncompressed <<< 4) dts
  return b.take sz

def timeArrayEncodePacked : Except String (List Byte) := do
  -- an empty list of deltas keeps the divisor
  let div := dts.tail.foldl (fun div v => if div > 1 then fitDivisor v div else div) maxDivisor
  let encoded ← Simple8b.encodeAll (if div > 1 then dts.tail.map (· / div) else dts.tail)
  let sz := 1 + (encoded.length + 1) * 8
  let b ← writePacked (b.grow sz) (header timeCompressedPackedSimple div) (dts.headD 0) encoded
  return b.take sz

def timeArrayEncodeAll (src : List Word) (b : Slice) : Except String (List Byte) :=
  if src.length = 0 then .ok []
  else
    let dts := inPlaceDeltas src
    let max := dts.tail.foldr (fun v max => if v > max then v else max) 0
    let rle := (dts.drop 2).all fun v => dts.getD 1 0 = v
    if dts.length > 1 ∧ rle then timeArrayEncodeRLE b dts
    else if max > maxValue then timeArrayEncodeRaw b dts
    else timeArrayEncodePacked b dts

/-! ## The decoder -/

structure TimeDecoder where
  v : Word
  i : Int
  n : Int
  ts : List Word
  dec : Simple8b.Decoder
  err : Option String
  rleDelta : Word
  encoding : Byte

namespace TimeDecoder

def zero : TimeDecoder := ⟨0, 0, 0, [], ⟨[], List.replicate 240 0, 0, 0⟩, none, 0, 0⟩

variable (d : TimeDecoder)

variable (b : List Byte)

/-- `decodePacked`.  A word holds at most 240 values. -/
def decodePacked : TimeDecoder :=
  if b.length < 9 then { d with err := some "TimeDecoder: not enough data to decode packed timestamps" }
  else
    let div := pow10 (b.headD 0)
    let first := uint64 (b.drop 1)
    match collect Simple8b.Decoder.next Simple8b.Decoder.read (240 * (b.length / 8) + 1)
        (d.dec.setBytes (b.drop 9)) with
    | none => d
    | some (dts, dec) =>
      -- compute the prefix sum and scale the deltas back up
      let ts := first :: sums first (if div > 1 then dts.map (· * div) else dts)
      { d with dec := dec, i := 0, ts := ts }

def decodeRLE (d : TimeDecoder) (b : List Byte) : TimeDecoder :=
  if b.length < 9 then { d with err := some "TimeDecoder: not enough data for initial RLE timestamp" }
  else
    let mod := pow10 (b.headD 0)
    let first := uint64 (b.drop 1)
    let (value, n) := uvarint (b.drop 9)
    if n ≤ 0 then { d with err := some "TimeDecoder: invalid run length in decodeRLE" }
    else
      let value := value * mod
      let (count, n) := uvarint (b.drop (9 + n.toNat))
      if n ≤ 0 then { d with err := some "TimeDecoder: invalid repeat value in decodeRLE" }
      else { d with v := first - value, rleDelta := value, i := -1, n := count.toInt }

def decodeRaw : TimeDecoder := { d with i := 0, ts := sums 0 (words b) }

def decode : TimeDecoder :=
  if b.length = 0 then d
  else switchEncoding d.encoding (d.decodeRaw (b.drop 1)) (d.decodePacked b) (d.decodeRLE b)
    { d with err := some ("unknown encoding: " ++ toString d.encoding.toNat) }

def init : TimeDecoder :=
  { d with
    v := 0
    i := 0
    ts := []
    err := none
    encoding := if b.length > 0 then b.headD 0 >>> 4 else d.encoding }.decode b

def next : Bool × TimeDecoder :=
  if d.err ≠ none then (false, d)
  else if d.encoding = timeCompressedRLE then
    if d.i ≥ d.n then (false, d)
    else
      let d := { d with i := d.i + 1, v := d.v + d.rleDelta }
      (decide (d.i < d.n), d)
  else if d.i ≥ d.ts.length then (false, d)
  else (true, { d with v := d.ts.getD d.i.toNat 0, i := d.i + 1 })

def read : Word × TimeDecoder := (d.v, d)

end TimeDecoder

variable (b : List Byte)

/-- The count of run-length encoded timestamps. -/
def countRLE : Except String Int :=
  if b.length < 9 then .error "slice bounds out of range"
  else
    let i := 9 + (uvarint (b.drop 9)).2
    if i < 0 ∨ i > b.length then .error "slice bounds out of range"
    else .ok (uvarint (b.drop i.toNat)).1.toInt

def countPacked : Except String Int :=
  if b.length < 9 then .error "slice bounds out of range"
  else
    match Simple8b.countBytes (b.drop 9) with
    | .ok count => .ok (count + 1)
    | .error _ => .ok 1

def countTimestamps : Except String Int :=
  if b.length = 0 then .ok 0
  else switchEncoding (b.headD 0 >>> 4) (.ok ((b.drop 1).length / 8 : ℕ)) (countPacked b) (countRLE b) (.ok 0)

/-! ## The batch decoder -/

def timeBatchDecodeAllUncompressed : Except String (List Word) :=
  let b := b.drop 1
  if b.length % 8 ≠ 0 then .error "TimeArrayDecodeAll: expected multiple of 8 bytes"
  else .ok (sums 0 (words b))

def timeBatchDecodeAllSimple : Except String (List Word) :=
  if b.length < 9 then .error "TimeArrayDecodeAll: not enough data to decode packed timestamps"
  else do
    let div := pow10 (b.headD 0)
    let count ← Simple8b.countBytes (b.drop 9)
    let first := uint64 (b.drop 1)
    let dts ← Simple8b.decodeBytesBigEndian (b.drop 9)
    if dts.length ≠ count then
      .error ("TimeArrayDecodeAll: unexpected number of values decoded; got=" ++ toString dts.length ++ ", exp=" ++
        toString count)
    else
      return first :: sums first (if div > 1 then dts.map (· * div) else dts)

/-- `timeBatchDecodeAllRLE`.  A slice has fewer than 2^63 elements. -/
def timeBatchDecodeAllRLE : Except String (List Word) :=
  if b.length < 9 then .error "TimeArrayDecodeAll: not enough data to decode RLE starting value"
  else
    let mod := pow10 (b.headD 0)
    let first := uint64 (b.drop 1)
    let (delta, n) := uvarint (b.drop 9)
    if n ≤ 0 then .error "TimeArrayDecodeAll: invalid run length in decodeRLE"
    else
      let (count, n) := uvarint (b.drop (9 + n.toNat))
      if n ≤ 0 then .error "TimeDecoder: invalid repeat value in decodeRLE"
      else if count.toInt < 0 then .error "slice bounds out of range"
      else .ok (runLength first (delta * mod) count.toNat)

def timeBatchDecodeAllInvalid : Except String (List Word) :=
  .error ("unknown encoding " ++ toString (b.headD 0 >>> 4).toNat)

/-- `TimeArrayDecodeAll`.  Every element of `dst` is written. -/
def timeArrayDecodeAll : Except String (List Word) :=
  if b.length = 0 then .ok []
  else switchEncoding (b.headD 0 >>> 4) (timeBatchDecodeAllUncompressed b) (timeBatchDecodeAllSimple b)
    (timeBatchDecodeAllRLE b) (timeBatchDecodeAllInvalid b)

end Influxdb.Tsm1
