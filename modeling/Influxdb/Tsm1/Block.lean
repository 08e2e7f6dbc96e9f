import Influxdb.Tsm1.Float
import Influxdb.Tsm1.Integer
import Influxdb.Tsm1.Timestamp

/-!
# Block — decoding a block with decoders from a pool (`encoding.go`, `bool.go`, `string.go`)

A block is a byte for its type, the length of the timestamps as a variable length integer, the timestamps and
the values.  To decode it a time decoder and a value decoder are taken from their pools, set to the bytes, asked
for pairs until one has no more, and put back as they are.  `Decoders` is what the pools hand out.  A panic is
an error too.
-/

namespace Influxdb.Tsm1

/-! ## Booleans -/

structure BooleanDecoder where
  b : List Byte
  i : Int
  n : Int
  err : Option String
deriving DecidableEq

namespace BooleanDecoder

def zero : BooleanDecoder := ⟨[], 0, 0, none⟩

variable (e : BooleanDecoder)

/-- `SetBytes`.  The first byte is the encoding type. -/
def setBytes (b : List Byte) : BooleanDecoder :=
  if b.length = 0 then e
  else
    let b := b.drop 1
    let (count, n) := uvarint b
    if n ≤ 0 then { e with err := some "BooleanDecoder: invalid count" }
    else
      let rest := b.drop n.toNat
      -- a truncated block has fewer bits than the count
      { e with b := rest, i := -1, n := min count.toInt (rest.length * 8) }

def next : Bool × BooleanDecoder :=
  if e.err ≠ none then (false, e) else (decide (e.i + 1 < e.n), { e with i := e.i + 1 })

def read : Bool × BooleanDecoder :=
  let mask := (1 : Byte) <<< (7 - e.i.toNat % 8)
  (decide (e.b.getD (e.i.toNat / 8) 0 &&& mask = mask), e)

end BooleanDecoder

/-! ## Strings -/

structure StringDecoder where
  b : List Byte
  l : Int
  i : Int
  err : Option String
deriving DecidableEq

namespace StringDecoder

def zero : StringDecoder := ⟨[], 0, 0, none⟩

/-- `SetBytes`, and its error.  The first byte is the encoding type; `decompress` is `snappy.Decode`. -/
def setBytes (decompress : List Byte → Except String (List Byte)) (e : StringDecoder) (b : List Byte) :
    StringDecoder × Option String :=
  if b.length = 0 then (⟨[], 0, 0, none⟩, none)
  else
    match decompress (b.drop 1) with
    | .error err => (e, some ("failed to decode string block: " ++ err))
    | .ok data => (⟨data, 0, 0, none⟩, none)

def next (e : StringDecoder) : Bool × StringDecoder :=
  if e.err ≠ none then (false, e) else (decide (e.i + e.l < e.b.length), { e with i := e.i + e.l })

/-- `Read`.  The sums are those of 64-bit integers. -/
def read (e : StringDecoder) : List Byte × StringDecoder :=
  let (length, n) := uvarint (e.b.drop e.i.toNat)
  if n ≤ 0 then ([], { e with err := some "StringDecoder: invalid encoded string length" })
  else
    let e := { e with l := (length + BitVec.ofInt 64 n).toInt }
    let lower := e.i + n
    let upper := (BitVec.ofInt 64 lower + length).toInt
    if upper < lower then ([], { e with err := some "StringDecoder: length overflow" })
    else if upper > e.b.length then
      ([], { e with err := some "StringDecoder: not enough data to represent encoded string" })
    else ((e.b.take upper.toNat).drop lower.toNat, e)

end StringDecoder

/-! ## Blocks -/

def blockFloat64 : Byte := 0

def blockInteger : Byte := 1

def blockBoolean : Byte := 2

def blockString : Byte := 3

def blockUnsigned : Byte := 4

/-- `unpackBlock`: the timestamps and the values. -/
def unpackBlock (buf : List Byte) : Except String (List Byte × List Byte) :=
  let (tsLen, i) := uvarint buf
  if i ≤ 0 then .error "unpackBlock: unable to read timestamp block length"
  else
    let tsIdx := (BitVec.ofInt 64 i + tsLen).toInt
    if tsIdx > buf.length then .error "unpackBlock: not enough data for timestamp"
    else if tsIdx < i then .error "slice bounds out of range"
    else .ok ((buf.take tsIdx.toNat).drop i.toNat, buf.drop tsIdx.toNat)

/-- `BlockCount`; a panic is not wrapped. -/
def blockCount (block : List Byte) : Except String Int :=
  if block.length ≤ 1 then .error ("count of short block: got " ++ toString block.length ++ ", exp 1")
  else
    match unpackBlock (block.drop 1) with
    | .error err =>
      .error (if err = "slice bounds out of range" then err else "BlockCount: error unpacking block: " ++ err)
    | .ok (tb, _) => countTimestamps tb

/-- What a value decoder offers; `setBytes` also returns its error. -/
structure ValueDecoder (D V : Type*) where
  setBytes : D → List Byte → D × Option String
  next : D → Bool × D
  read : D → V × D
  error : D → Option String

section Decode

variable {D V : Type*} (c : ValueDecoder D V)

/-- The loop over `j < len(a)`. -/
def decodePairs : ℕ → TimeDecoder → D → List (Word × V) × TimeDecoder × D
  | 0, tdec, vdec => ([], tdec, vdec)
  | n + 1, tdec, vdec =>
    match tdec.next with
    | (false, tdec) => ([], tdec, vdec)
    | (true, tdec) =>
      match c.next vdec with
      | (false, vdec) => ([], tdec, vdec)
      | (true, vdec) =>
        let r := decodePairs n tdec.read.2 (c.read vdec).2
        ((tdec.read.1, (c.read vdec).1) :: r.1, r.2)

/-- The values and the error of the bytes of a block, and the decoders as they go back to their pools. -/
def decodeBytes (tb vb : List Byte) (sz : ℕ) (tdec : TimeDecoder) (vdec : D) :
    (List (Word × V) × Option String) × TimeDecoder × D :=
  let tdec := tdec.init tb
  match c.setBytes vdec vb with
  | (vdec, some err) => (([], some err), tdec, vdec)
  | (vdec, none) =>
    let (vs, tdec, vdec) := decodePairs c sz tdec vdec
    ((vs, if tdec.err ≠ none then tdec.err else c.error vdec), tdec, vdec)

/-- The most bytes that `make` gives; it panics for more. -/
def maxAlloc : ℕ := 2 ^ 48

/-- The size of a `Value` of a type. -/
def valueSize (typ : Byte) : ℕ := if typ = blockString then 24 else 16

/-- What comes before the decoders: the bytes of the timestamps and the values, and the size of the slice. -/
def openBlock (typ : Byte) (block : List Byte) : Except String (List Byte × List Byte × ℕ) := do
  if block.length = 0 then .error "index out of range"
  else if block.headD 0 ≠ typ then
    .error ("invalid block type: exp " ++ toString typ.toNat ++ ", got " ++ toString (block.headD 0).toNat)
  else
    let (tb, vb) ← unpackBlock (block.drop 1)
    let sz ← countTimestamps tb
    if sz < 0 then .error "slice bounds out of range"
    else if valueSize typ * sz > maxAlloc then .error "makeslice: len out of range"
    else return (tb, vb, sz.toNat)

/-- The body that the functions for the types share. -/
def decodeTypedBlock (typ : Byte) (block : List Byte) (tdec : TimeDecoder) (vdec : D) :
    (List (Word × V) × Option String) × TimeDecoder × D :=
  match openBlock typ block with
  | .error err => (([], some err), tdec, vdec)
  | .ok (tb, vb, sz) => decodeBytes c tb vb sz tdec vdec

end Decode

def floatDecoder : ValueDecoder FloatDecoder Word where
  setBytes := FloatDecoder.setBytes
  next := FloatDecoder.next
  read := FloatDecoder.read
  error := FloatDecoder.err

def integerDecoder : ValueDecoder IntegerDecoder Word where
  setBytes d b := (d.setBytes b, none)
  next := IntegerDecoder.next
  read := IntegerDecoder.read
  error := IntegerDecoder.err

def booleanDecoder : ValueDecoder BooleanDecoder Bool where
  setBytes d b := (d.setBytes b, none)
  next := BooleanDecoder.next
  read := BooleanDecoder.read
  error := BooleanDecoder.err

variable (decompress : List Byte → Except String (List Byte))

def stringDecoder : ValueDecoder StringDecoder (List Byte) where
  setBytes := StringDecoder.setBytes decompress
  next := StringDecoder.next
  read := StringDecoder.read
  error := StringDecoder.err

def decodeFloatBlock := decodeTypedBlock floatDecoder blockFloat64

def decodeIntegerBlock := decodeTypedBlock integerDecoder blockInteger

/-- `DecodeUnsignedBlock`, which takes an integer decoder. -/
def decodeUnsignedBlock := decodeTypedBlock integerDecoder blockUnsigned

def decodeBooleanBlock := decodeTypedBlock booleanDecoder blockBoolean

def decodeStringBlock :=
  decodeTypedBlock (stringDecoder decompress) blockString

/-- `Value`, without its timestamp. -/
inductive Value where
  | float (v : Word)
  | integer (v : Word)
  | unsigned (v : Word)
  | boolean (v : Bool)
  | string (v : List Byte)
deriving DecidableEq

/-- The decoders that the pools hand out. -/
structure Decoders where
  time : TimeDecoder
  float : FloatDecoder
  integer : IntegerDecoder
  boolean : BooleanDecoder
  string : StringDecoder

def Decoders.zero : Decoders := ⟨.zero, .zero, .zero, .zero, .zero⟩

/-- The values of a block and its error. -/
abbrev Decoded := List (Word × Value) × Option String

def Decoded.of {V : Type*} (f : V → Value) (r : List (Word × V) × Option String) : Decoded :=
  (r.1.map fun p => (p.1, f p.2), r.2)

/-- `DecodeBlock`, and the decoders after it. -/
def decodeBlock (pool : Decoders) (block : List Byte) : Decoded × Decoders :=
  if block.length ≤ 1 then
    (([], some ("decode of short block: got " ++ toString block.length ++ ", exp 1")), pool)
  else if block.headD 0 = blockFloat64 then
    let (r, tdec, vdec) := decodeFloatBlock block pool.time pool.float
    (Decoded.of .float r, { pool with time := tdec, float := vdec })
  else if block.headD 0 = blockInteger then
    let (r, tdec, vdec) := decodeIntegerBlock block pool.time pool.integer
    (Decoded.of .integer r, { pool with time := tdec, integer := vdec })
  else if block.headD 0 = blockUnsigned then
    let (r, tdec, vdec) := decodeUnsignedBlock block pool.time pool.integer
    (Decoded.of .unsigned r, { pool with time := tdec, integer := vdec })
  else if block.headD 0 = blockBoolean then
    let (r, tdec, vdec) := decodeBooleanBlock block pool.time pool.boolean
    (Decoded.of .boolean r, { pool with time := tdec, boolean := vdec })
  else if block.headD 0 = blockString then
    let (r, tdec, vdec) := decodeStringBlock decompress block pool.time pool.string
    (Decoded.of .string r, { pool with time := tdec, string := vdec })
  else
    (([], some ("error decoding block type: unknown block type: " ++ toString (block.headD 0).toNat)), pool)

/-- The decoders after blocks that were decoded one after the other. -/
def decodeBlocks (pool : Decoders) (blocks : List (List Byte)) : Decoders :=
  blocks.foldl (fun pool block => (decodeBlock decompress pool block).2) pool

end Influxdb.Tsm1
