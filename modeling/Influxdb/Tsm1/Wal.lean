import Influxdb.Lib.Assoc
import Influxdb.Lib.Emit
import Influxdb.Tsm1.Block
import Influxdb.Tsm1.Types

/-!
# Wal — entries of the write ahead log (`wal.go`)

Three kinds of entries: values for keys, keys to delete, and keys to delete in a range of times.  Each is written into
a buffer whose size has been counted before, and read back from the bytes alone.

A map of keys is a list of pairs with different keys, in the order in which Go happens to walk over it.  An entry keeps
its size after the first count (`sz`); here it is counted each time.
-/

namespace Influxdb.Tsm1.Wal

def float64EntryType : Byte := 1

def integerEntryType : Byte := 2

def booleanEntryType : Byte := 3

def stringEntryType : Byte := 4

def unsignedEntryType : Byte := 5

def writeWALEntryType : Byte := 1

def deleteWALEntryType : Byte := 2

def deleteRangeWALEntryType : Byte := 3

def errWALCorrupt : String := "corrupted WAL entry"

def newline : Byte := 10

/-! ## Writes -/

/-- `WriteWALEntry`: for each key the times, as the bits of an `int64`, and values. -/
structure WriteWALEntry where
  values : List (Key × List (Word × Value))
  nodup : (values.map Prod.fst).Nodup

namespace WriteWALEntry

/-- The entry without values. -/
def empty : WriteWALEntry := ⟨[], List.nodup_nil⟩

variable (w : WriteWALEntry)

def set (k : Key) (values : List (Word × Value)) : WriteWALEntry :=
  ⟨Assoc.put k values w.values, Assoc.nodup_put w.nodup k values⟩

/-- The bytes of strings with their lengths, if all of the values are strings. -/
def stringsSize : List (Word × Value) → Option ℕ
  | [] => some 0
  | (_, .string v) :: vs => (stringsSize vs).map fun n => 4 + v.length + n
  | _ :: _ => none

/-- The bytes of some values with their times, by the type of the first one. -/
def valuesSize (vs : List (Word × Value)) : Option ℕ :=
  match vs with
  | [] => none
  | (_, .float _) :: _ | (_, .integer _) :: _ | (_, .unsigned _) :: _ => some (8 * vs.length + 8 * vs.length)
  | (_, .boolean _) :: _ => some (8 * vs.length + 1 * vs.length)
  | (_, .string _) :: _ => (stringsSize vs).map fun n => 8 * vs.length + n

/-- Add up the keys and values. -/
def sizeLoop : List (Key × List (Word × Value)) → ℕ → Option ℕ
  | [], encLen => some encLen
  | (k, v) :: rest, encLen => do
    let n ← valuesSize v
    sizeLoop rest (encLen + k.length + n)

/-- `MarshalSize`; 0 if a list is empty or has values of different types that are told apart. -/
def marshalSize : ℕ := (sizeLoop w.values (7 * w.values.length)).getD 0

def entryType : Value → Byte
  | .float _ => float64EntryType
  | .integer _ => integerEntryType
  | .unsigned _ => unsignedEntryType
  | .boolean _ => booleanEntryType
  | .string _ => stringEntryType

/-- The Go type of what `Value()` returns. -/
def goType : Value → String
  | .float _ => "float64"
  | .integer _ => "int64"
  | .unsigned _ => "uint64"
  | .boolean _ => "bool"
  | .string _ => "string"

def typeName : Value → String
  | .float _ => "tsm1.FloatValue"
  | .integer _ => "tsm1.IntegerValue"
  | .unsigned _ => "tsm1.UnsignedValue"
  | .boolean _ => "tsm1.BooleanValue"
  | .string _ => "tsm1.StringValue"

/-- Write a value without its time. -/
def encodeValue (v : Value) (o : Out) : Except String Out :=
  match v with
  | .float v | .integer v | .unsigned v => o.put (putUint64 v)
  | .boolean v => o.put [if v then 1 else 0]
  | .string v => do
    let o ← o.put (putUint32 (BitVec.ofNat 32 v.length))
    o.copy v

/-- Write a time and its value, which has to be of the type of the first one. -/
def encodePoint (first : Value) (p : Word × Value) (o : Out) : Except String Out := do
  let o ← o.put (putUint64 p.1)
  if entryType p.2 ≠ entryType first then
    .error ("incorrect value found in " ++ goType first ++ " slice: " ++ typeName p.2)
  else encodeValue p.2 o

def encodeKey (p : Key × List (Word × Value)) (o : Out) : Except String Out :=
  match p.2 with
  | [] => .error "index out of range [0] with length 0"
  | first :: _ => do
    let o ← o.put [entryType first.2]
    let o ← o.put (putUint16 (BitVec.ofNat 16 p.1.length))
    let o ← o.copy p.1
    let o ← o.put (putUint32 (BitVec.ofNat 32 p.2.length))
    p.2.foldlM (fun o q => encodePoint first.2 q o) o

def encode (dst : List Byte) : Except String (List Byte) := do
  let encLen := w.marshalSize
  let dst := if dst.length < encLen then List.replicate encLen 0 else dst.take encLen
  let o ← w.values.foldlM (fun o p => encodeKey p o) (Out.mk dst 0)
  .ok (o.buf.take o.n)

/-- Read points whose values have a fixed width. -/
def readFixed (width : ℕ) (read : List Byte → Value) : ℕ → List Byte → List (Word × Value) × List Byte
  | 0, b => ([], b)
  | n + 1, b =>
    let r := readFixed width read n (b.drop (8 + width))
    ((uint64 b, read (b.drop 8)) :: r.1, r.2)

/-- Read the points of a type with a fixed width, if there are enough bytes. -/
def readFixedChecked (width : ℕ) (read : List Byte → Value) (nvals : ℕ) (b : List Byte) :
    Except String (List (Word × Value) × List Byte) :=
  if b.length < (8 + width) * nvals then .error errWALCorrupt else .ok (readFixed width read nvals b)

/-- Read points whose values are strings. -/
def readStrings : ℕ → List Byte → Except String (List (Word × Value) × List Byte)
  | 0, b => .ok ([], b)
  | n + 1, b => do
    if b.length < 12 then .error errWALCorrupt
    else
      let un := uint64 b
      let b := b.drop 8
      let length := (uint32 b).toNat
      if b.length < length then .error errWALCorrupt
      else
        let b := b.drop 4
        if b.length < length then .error errWALCorrupt
        else
          let r ← readStrings n (b.drop length)
          .ok ((un, .string (b.take length)) :: r.1, r.2)

def showByte (b : Byte) : String := "0x" ++ String.ofList (Nat.toDigits 16 b.toNat)

def readValues (typ : Byte) (nvals : ℕ) (b : List Byte) : Except String (List (Word × Value) × List Byte) :=
  if typ = float64EntryType then readFixedChecked 8 (fun b => .float (uint64 b)) nvals b
  else if typ = integerEntryType then readFixedChecked 8 (fun b => .integer (uint64 b)) nvals b
  else if typ = unsignedEntryType then readFixedChecked 8 (fun b => .unsigned (uint64 b)) nvals b
  else if typ = booleanEntryType then readFixedChecked 1 (fun b => .boolean (b.headD 0 = 1)) nvals b
  else if typ = stringEntryType then readStrings nvals b
  else .error ("unsupported value type: " ++ showByte typ)

/-- Read a key with its values; `total` is the length of all of the bytes. -/
def readKey (total : ℕ) (typ : Byte) (b : List Byte) : Except String ((Key × List (Word × Value)) × List Byte) := do
  if b.length < 2 then .error errWALCorrupt
  else
    let length := (uint16 b).toNat
    let b := b.drop 2
    if b.length < length then .error errWALCorrupt
    else
      let k := b.take length
      let b := b.drop length
      if b.length < 4 then .error errWALCorrupt
      else
        let nvals := (uint32 b).toNat
        let b := b.drop 4
        if nvals = 0 ∨ nvals > total then .error errWALCorrupt
        else
          let r ← readValues typ nvals b
          .ok ((k, r.1), r.2)

/-- The loop over the keys, on the bytes from `i` on; `fuel` bounds the number of keys. -/
def unmarshalLoop (total : ℕ) : ℕ → List Byte → WriteWALEntry → Except String WriteWALEntry
  | 0, _, _ => .error "out of fuel"
  | _ + 1, [], w => .ok w
  | fuel + 1, typ :: b, w => do
    let r ← readKey total typ b
    unmarshalLoop total fuel r.2 (w.set r.1.1 r.1.2)

/-- `UnmarshalBinary` into an entry without values. -/
def unmarshalBinary (b : List Byte) : Except String WriteWALEntry := unmarshalLoop b.length (b.length + 1) b empty

end WriteWALEntry

/-! ## Deletions -/

structure DeleteWALEntry where
  keys : List Key
deriving DecidableEq

namespace DeleteWALEntry

def marshalSize (w : DeleteWALEntry) : ℕ := w.keys.length + (w.keys.map List.length).sum

def encodeKey (k : Key) (o : Out) : Except String Out := do
  let o ← o.copy k
  o.copy [newline]

/-- `Encode`, without the last newline; there is none if there are no keys. -/
def encode (w : DeleteWALEntry) (dst : List Byte) : Except String (List Byte) := do
  let sz := w.marshalSize
  let dst := if dst.length < sz then List.replicate sz 0 else dst
  let o ← w.keys.foldlM (fun o k => encodeKey k o) (Out.mk dst 0)
  if o.n = 0 then .error "slice bounds out of range [:-1]" else .ok (o.buf.take (o.n - 1))

/-- `UnmarshalBinary` into an entry without keys. -/
def unmarshalBinary (b : List Byte) : DeleteWALEntry := if b.length = 0 then ⟨[]⟩ else ⟨b.splitOn newline⟩

end DeleteWALEntry

/-- `DeleteRangeWALEntry`; the times are the bits of an `int64`. -/
structure DeleteRangeWALEntry where
  keys : List Key
  min : Word
  max : Word
deriving DecidableEq

namespace DeleteRangeWALEntry

def marshalSize (w : DeleteRangeWALEntry) : ℕ := 16 + w.keys.length * 4 + (w.keys.map List.length).sum

/-- Write a key with its length. -/
def encodeKey (k : Key) (o : Out) : Except String Out := do
  let o ← o.put (putUint32 (BitVec.ofNat 32 k.length))
  o.copy k

def encode (w : DeleteRangeWALEntry) (dst : List Byte) : Except String (List Byte) := do
  let sz := w.marshalSize
  let dst := if dst.length < sz then List.replicate sz 0 else dst
  let o ← (Out.mk dst 0).put (putUint64 w.min)
  let o ← o.put (putUint64 w.max)
  let o ← w.keys.foldlM (fun o k => encodeKey k o) o
  .ok (o.buf.take o.n)

/-- The loop over the keys, on the bytes from `i` on; `fuel` bounds the number of keys. -/
def readKeys : ℕ → List Byte → Except String (List Key)
  | 0, _ => .error "out of fuel"
  | fuel + 1, b => do
    if b.length = 0 then .ok []
    else if b.length < 4 then .error errWALCorrupt
    else
      let sz := (uint32 b).toNat
      let b := b.drop 4
      if b.length < sz then .error errWALCorrupt
      else
        let keys ← readKeys fuel (b.drop sz)
        .ok (b.take sz :: keys)

/-- `UnmarshalBinary` into an entry without keys. -/
def unmarshalBinary (b : List Byte) : Except String DeleteRangeWALEntry := do
  if b.length < 16 then .error errWALCorrupt
  else
    let keys ← readKeys (b.length + 1) (b.drop 16)
    .ok ⟨keys, uint64 b, uint64 (b.drop 8)⟩

end DeleteRangeWALEntry

/-! ## Entries -/

inductive WALEntry where
  | write (w : WriteWALEntry)
  | delete (w : DeleteWALEntry)
  | deleteRange (w : DeleteRangeWALEntry)

namespace WALEntry

def type : WALEntry → Byte
  | .write _ => writeWALEntryType
  | .delete _ => deleteWALEntryType
  | .deleteRange _ => deleteRangeWALEntryType

def encode (dst : List Byte) : WALEntry → Except String (List Byte)
  | .write w => w.encode dst
  | .delete w => w.encode dst
  | .deleteRange w => w.encode dst

/-- Make an entry of a type and read it. -/
def unmarshalBinary (entryType : Byte) (data : List Byte) : Except String WALEntry :=
  if entryType = writeWALEntryType then (WriteWALEntry.unmarshalBinary data).map .write
  else if entryType = deleteWALEntryType then .ok (.delete (DeleteWALEntry.unmarshalBinary data))
  else if entryType = deleteRangeWALEntryType then (DeleteRangeWALEntry.unmarshalBinary data).map .deleteRange
  else .error ("unknown wal entry type: " ++ toString entryType.toNat)

end WALEntry

end Influxdb.Tsm1.Wal
