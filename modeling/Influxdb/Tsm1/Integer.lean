import Influxdb.Encoding.Simple8b
import Influxdb.Lib.Iter
import Influxdb.Tsm1.Frame

/-!
# Integer — the integer codec (`int.go`, `batch_integer.go`)

Integers are `int64`s, taken as words.  Their deltas are zig-zag encoded and then run-length encoded, packed
with simple8b or stored as they are.  As for timestamps there is an encoder that is written to one value at a
time, an encoder of a whole slice, and a decoder for each; the unsigned integers go through the same
functions.  A panic is an error too.
-/

namespace Influxdb.Tsm1

open Simple8b (maxValue)

def intUncompressed : Byte := 0

def intCompressedSimple : Byte := 1

def intCompressedRLE : Byte := 2

def zigZagEncode (x : Word) : Word := x <<< 1 ^^^ x.sshiftRight 63

def zigZagDecode (v : Word) : Word := v >>> 1 ^^^ ((v &&& 1) <<< 63).sshiftRight 63

/-! ## The encoder -/

structure IntegerEncoder where
  prev : Word
  rle : Bool
  values : List Word

namespace IntegerEncoder

def newIntegerEncoder : IntegerEncoder := ⟨0, true, []⟩

def reset (_ : IntegerEncoder) : IntegerEncoder := ⟨0, true, []⟩

variable (e : IntegerEncoder)

def write (v : Word) : IntegerEncoder :=
  let enc := zigZagEncode (v - e.prev)
  { prev := v
    rle := if e.values.length > 1 then e.rle && e.values.getLastD 0 == enc else e.rle
    values := e.values ++ [enc] }

def encodeRLE : Except String (List Byte) := do
  let (b, i) ← writeRLE (List.replicate 31 0) (intCompressedRLE <<< 4) (e.values.headD 0) (e.values.getD 1 0)
    (BitVec.ofNat 64 (e.values.length - 1))
  return b.take i

def encodePacked : Except String (List Byte) :=
  if e.values.length = 0 then .ok []
  else do
    -- the first value is written unencoded
    let encoded ← Simple8b.encodeAll e.values.tail
    writePacked (List.replicate (1 + (encoded.length + 1) * 8) 0) (intCompressedSimple <<< 4) (e.values.headD 0)
      encoded

def encodeUncompressed : Except String (List Byte) :=
  if e.values.length = 0 then .ok []
  else writeUncompressed (List.replicate (1 + e.values.length * 8) 0) (intUncompressed <<< 4) e.values

def getBytes : Except String (List Byte) :=
  -- only run-length encode if it could reduce storage size
  if e.rle ∧ e.values.length > 2 then e.encodeRLE
  else if e.values.any (· > maxValue) then e.encodeUncompressed
  else e.encodePacked

end IntegerEncoder

/-! ## The batch encoder -/

variable (src : List Word)

/-- The zig-zag encoded deltas, computed in place. -/
def zigZagDeltas : List Word := (deltas 0 src).map zigZagEncode

/-- `IntegerArrayEncodeAll`.  Unlike the other two, the packed encoding returns all of `b`. -/
def integerArrayEncodeAll (b : Slice) : Except String (List Byte) :=
  if src.length = 0 then .ok []
  else
    let dts := zigZagDeltas src
    let max := dts.tail.foldr (fun v max => if v > max then v else max) 0
    if dts.length > 2 ∧ (dts.drop 2).all fun v => dts.getD 1 0 = v then do
      let (b, i) ← writeRLE (b.grow 31) (intCompressedRLE <<< 4) (dts.headD 0) (dts.getD 1 0)
        (BitVec.ofNat 64 (dts.length - 1))
      return b.take i
    else if max > maxValue then do
      let sz := 1 + dts.length * 8
      let b ← writeUncompressed (b.grow sz) (intUncompressed <<< 4) dts
      return b.take sz
    else do
      let encoded ← Simple8b.encodeAll dts.tail
      let sz := 1 + (encoded.length + 1) * 8
      writePacked (b.grow sz) (intCompressedSimple <<< 4) (dts.headD 0) encoded

def unsignedArrayEncodeAll (b : Slice) : Except String (List Byte) := integerArrayEncodeAll src b

/-! ## The decoder -/

structure IntegerDecoder where
  values : List Word
  bytes : List Byte
  i : Int
  n : Int
  prev : Word
  first : Bool
  rleFirst : Word
  rleDelta : Word
  encoding : Byte
  err : Option String

namespace IntegerDecoder

def zero : IntegerDecoder := ⟨List.replicate 240 0, [], 0, 0, 0, false, 0, 0, 0, none⟩

variable (d : IntegerDecoder)

def setBytes (b : List Byte) : IntegerDecoder where
  values := d.values
  bytes := b.drop 1
  i := 0
  n := 0
  prev := 0
  first := true
  rleFirst := 0
  rleDelta := 0
  encoding := if b.length > 0 then b.headD 0 >>> 4 else 0
  err := none

def decodeRLE : IntegerDecoder :=
  if d.bytes.length = 0 then d
  else if d.bytes.length < 8 then
    { d with err := some "IntegerDecoder: not enough data to decode RLE starting value" }
  else
    let first := uint64 d.bytes
    let (value, n) := uvarint (d.bytes.drop 8)
    if n ≤ 0 then { d with err := some "IntegerDecoder: invalid RLE delta value" }
    else
      let (count, n) := uvarint (d.bytes.drop (8 + n.toNat))
      if n ≤ 0 then { d with err := some "IntegerDecoder: invalid RLE repeat value" }
      else { d with rleFirst := first, rleDelta := value, n := (count + 1).toInt, i := 0, bytes := [] }

/-- Take the values `vs` of the next word. -/
def fetch (vs : List Word) : IntegerDecoder :=
  { d with values := vs ++ d.values.drop vs.length, i := 0, n := vs.length, bytes := d.bytes.drop 8 }

def decodePacked : IntegerDecoder :=
  if d.bytes.length = 0 then d
  else if d.bytes.length < 8 then
    { d with err := some "IntegerDecoder: not enough data to decode packed value" }
  else if d.first then { d with first := false }.fetch [uint64 d.bytes]
  else d.fetch (Simple8b.decode (uint64 d.bytes))

def decodeUncompressed : IntegerDecoder :=
  if d.bytes.length = 0 then d
  else if d.bytes.length < 8 then
    { d with err := some "IntegerDecoder: not enough data to decode uncompressed value" }
  else d.fetch [uint64 d.bytes]

def decodeMore : IntegerDecoder :=
  switchEncoding d.encoding d.decodeUncompressed d.decodePacked d.decodeRLE
    { d with err := some ("unknown encoding " ++ toString d.encoding.toNat) }

def next : Bool × IntegerDecoder :=
  if d.i ≥ d.n ∧ d.bytes.length = 0 then (false, d)
  else
    let d := { d with i := d.i + 1 }
    let d := if d.i ≥ d.n then d.decodeMore else d
    (decide (d.err = none) && decide (d.i < d.n), d)

def read : Word × IntegerDecoder :=
  if d.encoding = intCompressedRLE then
    (zigZagDecode d.rleFirst + BitVec.ofInt 64 d.i * zigZagDecode d.rleDelta, d)
  else
    let v := zigZagDecode (d.values.getD d.i.toNat 0) + d.prev
    (v, { d with prev := v })

end IntegerDecoder

/-! ## The batch decoder -/

variable (b : List Byte)

def integerBatchDecodeAllUncompressed : Except String (List Word) :=
  let b := b.drop 1
  if b.length % 8 ≠ 0 then .error "IntegerArrayDecodeAll: expected multiple of 8 bytes"
  else .ok (sums 0 ((words b).map zigZagDecode))

def integerBatchDecodeAllSimple : Except String (List Word) :=
  if (b.drop 1).length < 8 then .error "IntegerArrayDecodeAll: not enough data to decode packed value"
  else do
    let count ← Simple8b.countBytes (b.drop 9)
    let first := zigZagDecode (uint64 (b.drop 1))
    let dts ← Simple8b.decodeBytesBigEndian (b.drop 9)
    if dts.length ≠ count then
      .error ("IntegerArrayDecodeAll: unexpected number of values decoded; got=" ++ toString dts.length ++
        ", exp=" ++ toString count)
    else return first :: sums first (dts.map zigZagDecode)

/-- `integerBatchDecodeAllRLE`.  A slice has fewer than 2^63 elements. -/
def integerBatchDecodeAllRLE : Except String (List Word) :=
  if (b.drop 1).length < 8 then .error "IntegerArrayDecodeAll: not enough data to decode RLE starting value"
  else
    let first := zigZagDecode (uint64 (b.drop 1))
    let (value, n) := uvarint (b.drop 9)
    if n ≤ 0 then .error "IntegerArrayDecodeAll: invalid RLE delta value"
    else
      let (count, n) := uvarint (b.drop (9 + n.toNat))
      if n ≤ 0 then .error "IntegerArrayDecodeAll: invalid RLE repeat value"
      else if (count + 1).toInt < 0 then .error "slice bounds out of range"
      else if zigZagDecode value = 0 then .ok (List.replicate (count + 1).toNat first)
      else .ok (runLength first (zigZagDecode value) (count + 1).toNat)

def integerBatchDecodeAllInvalid : Except String (List Word) :=
  .error ("unknown encoding " ++ toString (b.headD 0 >>> 4).toNat)

/-- `IntegerArrayDecodeAll`.  Every element of `dst` is written. -/
def integerArrayDecodeAll : Except String (List Word) :=
  if b.length = 0 then .ok []
  else switchEncoding (b.headD 0 >>> 4) (integerBatchDecodeAllUncompressed b) (integerBatchDecodeAllSimple b)
    (integerBatchDecodeAllRLE b) (integerBatchDecodeAllInvalid b)

def unsignedArrayDecodeAll : Except String (List Word) :=
  if b.length = 0 then .ok []
  else switchEncoding (b.headD 0 >>> 4) (integerBatchDecodeAllUncompressed b) (integerBatchDecodeAllSimple b)
    (integerBatchDecodeAllRLE b) (integerBatchDecodeAllInvalid b)

end Influxdb.Tsm1
