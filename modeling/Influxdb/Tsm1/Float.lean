import Influxdb.Lib.Buffer
import Influxdb.Tsm1.BitReader

/-!
# Float — the float codec (`float.go`, `batch_float.go`)

A `float64` is its bit pattern.  Every value is stored as the exclusive or with the one before: nothing when
they are the same, else the significant bits, in the window of leading and trailing zeros of an earlier value
or in a new one.  A NaN ends the values.  The writer of the encoder is a bit string; the batch versions pack
the bits themselves.  A panic is an error too.
-/

namespace Influxdb.Tsm1

def floatCompressedGorilla : Byte := 1

/-- `uvnan`, the bit pattern of `math.NaN()`. -/
def uvnan : Word := 0x7FF8000000000001

def isNaN (v : Word) : Bool :=
  decide (v &&& 0x7FF0000000000000 = 0x7FF0000000000000 ∧ v &&& 0x000FFFFFFFFFFFFF ≠ 0)

def leadingZeros64 (x : Word) : ℕ := ((toBits x).takeWhile (!·)).length

def trailingZeros64 (x : Word) : ℕ := ((toBits x).reverse.takeWhile (!·)).length

/-- `^uint64(0)`: there is no window yet. -/
def noWindow : ℕ := 2 ^ 64 - 1

/-- Clamp the number of leading zeros. -/
def clampLeading (leading : ℕ) : ℕ :=
  let leading := leading &&& 0x1F
  if leading ≥ 32 then 31 else leading

/-! ## The encoder -/

/-- `FloatEncoder`; `bits` is what `bw` has written behind the first byte. -/
structure FloatEncoder where
  val : Word
  err : Option String
  leading : ℕ
  trailing : ℕ
  bits : List Bool
  first : Bool
  finished : Bool

namespace FloatEncoder

def newFloatEncoder : FloatEncoder := ⟨0, none, noWindow, 0, [], true, false⟩

def reset (_ : FloatEncoder) : FloatEncoder := ⟨0, none, noWindow, 0, [], true, false⟩

variable (e : FloatEncoder)

def writeBit (bit : Bool) : FloatEncoder := { e with bits := e.bits ++ [bit] }

/-- `bw.WriteBits`: the `n` low bits of `u`, the most significant first. -/
def writeBits (u : Word) (n : ℕ) : FloatEncoder := { e with bits := e.bits ++ lowBits n u }

/-- The significant bits of a value that differs from the one before. -/
def writeDelta (vDelta : Word) : FloatEncoder :=
  let leading := clampLeading (leadingZeros64 vDelta)
  let trailing := trailingZeros64 vDelta
  if e.leading ≠ noWindow ∧ leading ≥ e.leading ∧ trailing ≥ e.trailing then
    (e.writeBit false).writeBits (vDelta >>> e.trailing) (64 - e.leading - e.trailing)
  else
    let e := { e with leading := leading, trailing := trailing }
    let sigbits := 64 - leading - trailing
    (((e.writeBit true).writeBits (BitVec.ofNat 64 leading) 5).writeBits (BitVec.ofNat 64 sigbits) 6).writeBits
      (vDelta >>> trailing) sigbits

def write (v : Word) : FloatEncoder :=
  if isNaN v ∧ ¬ e.finished then { e with err := some "unsupported value: NaN" }
  else if e.first then { e with val := v, first := false }.writeBits v 64
  else
    let vDelta := v ^^^ e.val
    let e := if vDelta = 0 then e.writeBit false else (e.writeBit true).writeDelta vDelta
    { e with val := v }

/-- `bw.Flush(bitstream.Zero)`: zeros up to the end of the byte. -/
def flushBits : FloatEncoder :=
  { e with bits := e.bits ++ List.replicate ((8 - e.bits.length % 8) % 8) false }

def flush : FloatEncoder :=
  if e.finished then e else ({ e with finished := true }.write uvnan).flushBits

def getBytes : List Byte × Option String :=
  ((floatCompressedGorilla <<< 4) :: bitsToBytes e.bits, e.err)

end FloatEncoder

/-! ## The decoder -/

structure FloatDecoder where
  val : Word
  leading : Word
  trailing : Word
  br : BitReader
  first : Bool
  finished : Bool
  err : Option String

namespace FloatDecoder

def zero : FloatDecoder := ⟨0, 0, 0, ⟨[], 0, 0⟩, false, false, none⟩

variable (d : FloatDecoder)

def setBytes (b : List Byte) : FloatDecoder × Option String :=
  if b.length = 0 then (⟨uvnan, 0, 0, d.br, true, false, none⟩, none)
  else
    -- the first byte is the compression type
    let br := d.br.reset (b.drop 1)
    match br.readBits 64 with
    | .error err => ({ d with br := br }, some err)
    | .ok (v, br) => (⟨v, 0, 0, br, true, false, none⟩, none)

/-- A bit, the fast way if possible. -/
def nextBit (r : BitReader) : Except String (Bool × BitReader) :=
  if r.canReadBitFast then .ok r.readBitFast else r.readBit

def readWindow : Except String FloatDecoder := do
  let (leading, br) ← d.br.readBits 5
  let (mbits, br) ← br.readBits 6
  -- 0 significant bits are 64
  let mbits := if mbits = 0 then 64 else mbits
  return { d with leading := leading, trailing := 64 - leading - mbits, br := br }

def readDelta : Except String (Bool × FloatDecoder) := do
  let mbits := 64 - d.leading - d.trailing
  let (bits, br) ← d.br.readBits mbits.toNat
  let d := { d with br := br }
  let vbits := d.val ^^^ bits <<< d.trailing.toNat
  if vbits = uvnan then return (false, { d with finished := true })
  else return (true, { d with val := vbits })

def readValue : Except String (Bool × FloatDecoder) := do
  let (bit, br) ← nextBit d.br
  let d := { d with br := br }
  if bit then
    let (bit, br) ← nextBit d.br
    let d := { d with br := br }
    if bit then
      let d ← d.readWindow
      d.readDelta
    else d.readDelta
  else return (true, d)

/-- `Next`.  After an error only the error is looked at. -/
def next : Bool × FloatDecoder :=
  if d.err.isSome ∨ d.finished then (false, d)
  else if d.first then
    let d := { d with first := false }
    if d.val = uvnan then (false, { d with finished := true }) else (true, d)
  else
    match d.readValue with
    | .ok r => r
    | .error err => (false, { d with err := some err })

def read : Word × FloatDecoder := (d.val, d)

end FloatDecoder

/-! ## The batch encoder -/

variable (b : List Byte)

def orAt (i : ℕ) (x : Byte) : Except String (List Byte) :=
  if i < b.length then .ok (b.set i (b.getD i 0 ||| x)) else .error "index out of range"

/-- `for k >= len(b) { b = append(b, 0) }`. -/
def growTo (k : ℕ) : List Byte := b ++ List.replicate (k + 1 - b.length) 0

/-- `if k >= len(b) { b = append(b, 0) }`. -/
def growOne (k : ℕ) : List Byte := if k ≥ b.length then b ++ [0] else b

variable (n l : ℕ)

/-- Write the `l` bits at the high end of `v`, at most 8 of them: 5 for the leading zeros and 6 for the number
of significant bits. -/
def writeShort (v : Word) : Except String (List Byte × ℕ) := do
  let b := growOne b ((n + l) / 8)
  let m := n % 8
  let mask := v >>> 56
  let b ← orAt b (n / 8) ((mask >>> m).setWidth 8)
  if m ≤ 8 - l then return (b, n + l)
  else
    -- the lost part of mask goes into the next byte
    let written := 8 - m
    let n := n + written
    let mask := v <<< written >>> 56
    let m := n % 8
    let b ← orAt b (n / 8) ((mask >>> m).setWidth 8)
    return (b, n + (l - written))

/-- Write the bits that are left, from a new byte on. -/
def writeRest (v : Word) (written : ℕ) : Except String (List Byte × ℕ) := do
  let vv := v <<< written
  let b := if n / 8 + 8 ≥ b.length then b ++ List.replicate 8 0 else b
  let b ← writeAt b (n / 8) (putUint64 vv)
  return (b, n + (l - written))

/-- Write the `l` bits at the high end of `v`. -/
def writeLong (v : Word) : Except String (List Byte × ℕ) := do
  let b := growTo b ((n + l) / 8)
  let m := n % 8
  if m > 0 then
    -- the current byte is not full
    let written := if l < 8 - m then l else 8 - m
    let mask := v >>> 56
    let b ← orAt b (n / 8) ((mask >>> m).setWidth 8)
    let n := n + written
    if l - written = 0 then return (b, n) else writeRest b n l v written
  else writeRest b n l v 0

/-- The variables of the loop of `FloatArrayEncodeAll`: the bytes and the number of bits written, the value
before and its window. -/
structure FloatArrayEncoder where
  b : List Byte
  n : ℕ
  prev : Word
  prevLeading : ℕ
  prevTrailing : ℕ

namespace FloatArrayEncoder

/-- The first control bit. -/
def startDelta (b : List Byte) (n : ℕ) : Except String (List Byte × ℕ) := do
  let b := growTo b (n / 8)
  let b ← orAt b (n / 8) ((128 : Byte) >>> (n % 8))
  return (b, n + 1)

def step (e : FloatArrayEncoder) (cur : Word) : Except String FloatArrayEncoder :=
  let vDelta := cur ^^^ e.prev
  -- a zero bit, and nothing else to do
  if vDelta = 0 then .ok { e with n := e.n + 1, prev := cur }
  else do
    let (b, n) ← startDelta e.b e.n
    let leading := clampLeading (leadingZeros64 vDelta)
    let trailing := trailingZeros64 vDelta
    let b := growOne b ((n + 2) / 8)
    if e.prevLeading ≠ noWindow ∧ leading ≥ e.prevLeading ∧ trailing ≥ e.prevTrailing then
      let l := 64 - e.prevLeading - e.prevTrailing
      let (b, n) ← writeLong b (n + 1) l (vDelta >>> e.prevTrailing <<< (64 - l))
      return { e with b := b, n := n, prev := cur }
    else
      let b ← orAt b (n / 8) ((128 : Byte) >>> (n % 8))
      let (b, n) ← writeShort b (n + 1) 5 (BitVec.ofNat 64 leading <<< 59)
      let sigbits := 64 - leading - trailing
      let (b, n) ← writeShort b n 6 (BitVec.ofNat 64 sigbits <<< 58)
      let (b, n) ← writeLong b n sigbits (vDelta >>> trailing <<< (64 - sigbits))
      return ⟨b, n, cur, leading, trailing⟩

end FloatArrayEncoder

/-- `b[:1]` and `b[:9]`, with room for the header and one value. -/
def floatBuffer (b : Slice) : List Byte := if b.data.length < 9 then List.replicate 9 0 else b.data.take 9

/-- `FloatArrayEncodeAll`; `add` is the addition of floats. -/
def floatArrayEncodeAll (add : Word → Word → Word) (src : List Word) (b : Slice) : Except String (List Byte) := do
  let b ← writeAt (floatBuffer b) 0 [floatCompressedGorilla <<< 4]
  if src.length > 0 ∧ isNaN (src.headD 0) then .error "unsupported value: NaN"
  else
    -- without values there is only the sentinel
    let first := src.headD uvnan
    let b ← writeAt b 1 (putUint64 first)
    let rest := if src.length = 0 then [] else src.tail ++ [uvnan]
    let e ← rest.foldlM FloatArrayEncoder.step ⟨b, 8 + 64, first, noWindow, 0⟩
    let sum := src.tail.foldl add 0
    if isNaN sum then .error "unsupported value: NaN"
    else
      let length := if e.n % 8 > 0 then e.n / 8 + 1 else e.n / 8
      if length ≤ e.b.length then .ok (e.b.take length) else .error "slice bounds out of range"

/-! ## The batch decoder -/

def bitMask (n : ℕ) : Word := if n % 64 = 0 then BitVec.allOnes 64 else BitVec.ofNat 64 (2 ^ (n % 64) - 1)

def subUint8 (a b : ℕ) : ℕ := (a + 256 - b) % 256

/-- `brCachedVal`, `brValidBits` and what is left of `b`. -/
structure BitCache where
  cachedVal : Word
  validBits : ℕ
  b : List Byte

namespace BitCache

/-- Refill `brCachedVal`, reading up to 8 bytes. -/
def refill (b : List Byte) : Option BitCache :=
  if b.length ≥ 8 then some ⟨uint64 b, 64, b.drop 8⟩
  else if b.length > 0 then
    let validBits := b.length * 8
    let cachedVal := b.foldl (fun (v : Word) x => v <<< 8 ||| x.setWidth 64) 0
    some ⟨cachedVal.rotateRight validBits, validBits, []⟩
  else none

variable (s : BitCache)

/-- Refill it when it is empty. -/
def fill : Option BitCache := if s.validBits > 0 then some s else refill s.b

def readBit : Option (Bool × BitCache) := do
  let s ← s.fill
  let cachedVal := s.cachedVal.rotateLeft 1
  return (decide (cachedVal &&& 1 > 0), { s with cachedVal := cachedVal, validBits := subUint8 s.validBits 1 })

/-- Read `n` bits, to the low end of a word; its other bits are anything. -/
def readBits (n : ℕ) : Option (Word × BitCache) :=
  if s.validBits ≥ n then
    let cachedVal := s.cachedVal.rotateLeft n
    some (cachedVal, { s with cachedVal := cachedVal, validBits := subUint8 s.validBits n })
  else do
    let (mBits, bits) := if s.validBits > 0 then (subUint8 n s.validBits, s.cachedVal.rotateLeft n) else (n, 0)
    let s ← refill s.b
    let cachedVal := s.cachedVal.rotateLeft mBits
    return (bits &&& ~~~ bitMask mBits ||| cachedVal &&& bitMask mBits,
      { s with cachedVal := cachedVal, validBits := subUint8 s.validBits mBits })

end BitCache

/-- The variables of the loop of `FloatArrayDecodeAll`, without the values. -/
structure FloatArrayDecoder where
  br : BitCache
  val : Word
  trailingN : ℕ
  meaningfulN : ℕ

namespace FloatArrayDecoder

variable (d : FloatArrayDecoder)

/-- A new window, if the control bit says so: 5 bits for the leading zeros and 6 for the significant bits. -/
def readWindow (bit : Bool) : Option FloatArrayDecoder :=
  if ¬ bit then some d else do
  let (lmBits, br) ← d.br.readBits 11
  let lmBits := lmBits &&& 0x7ff
  let leadingN := (lmBits >>> 6 &&& 0x1f).toNat
  let meaningfulN := (lmBits &&& 0x3f).toNat
  if meaningfulN > 0 then
    return { d with br := br, trailingN := subUint8 (subUint8 64 leadingN) meaningfulN, meaningfulN := meaningfulN }
  else return { d with br := br, trailingN := 0, meaningfulN := 64 }

def readDelta : Option FloatArrayDecoder := do
  let (sBits, br) ← d.br.readBits d.meaningfulN
  let sBits := sBits &&& bitMask d.meaningfulN
  return { d with br := br, val := d.val ^^^ sBits <<< (d.trailingN % 64) }

/-- One value, `none` at the end of the bytes; `false` for the value before. -/
def step : Option (Bool × FloatArrayDecoder) := do
  let (bit, br) ← d.br.readBit
  let d := { d with br := br }
  if bit then
    let (bit, br) ← d.br.readBit
    let d := { d with br := br }
    let d ← d.readWindow bit
    let d ← d.readDelta
    return (true, d)
  else return (false, d)

/-- The loop, up to a NaN; every round reads a bit. -/
def run : ℕ → FloatArrayDecoder → List Word → Except String (List Word)
  | 0, _, _ => .error "EOF"
  | fuel + 1, d, dst =>
    match d.step with
    | none => .error "EOF"
    | some (changed, d) => if changed ∧ d.val = uvnan then .ok dst else run fuel d (dst ++ [d.val])

end FloatArrayDecoder

/-- `FloatArrayDecodeAll`.  What was in `buf` does not matter. -/
def floatArrayDecodeAll : Except String (List Word) :=
  if b.length < 9 then .ok []
  else
    -- the first byte is the compression type
    let b := b.drop 1
    let val := uint64 b
    if val = uvnan then .ok []
    else
      let b := b.drop 8
      match BitCache.refill b with
      | none => .error "EOF"
      | some br => FloatArrayDecoder.run (8 * b.length + 1) ⟨br, val, 0, 64⟩ [val]

end Influxdb.Tsm1
