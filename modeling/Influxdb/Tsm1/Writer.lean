import Influxdb.Tsm1.Block
import Influxdb.Tsm1.Index

/-!
# Writer — writing a TSM file (`writer.go`)

`WriteBlock` appends a block with its checksum to the file and records it in the index.  `DirectIndex` keeps the
entries of the last key only: it writes a key out when the next one comes, and the last one when the index is
written.  The writers never fail, and syncing is left out.
-/

namespace Influxdb.Tsm1.Disk

def maxIndexEntries : ℕ := 65535

def maxKeyLength : ℕ := 65535

/-- `directIndex`: the bytes written to `w`, and the last key with its entries. -/
structure DirectIndex where
  keyCount : ℕ
  size : BitVec 32
  w : List Byte
  key : Key
  typ : Byte
  entries : List IndexEntry
deriving DecidableEq

namespace DirectIndex

/-- `NewIndexWriter` and `NewDiskIndexWriter`. -/
def new : DirectIndex := ⟨0, 0, [], [], 0, []⟩

def entriesSorted : List IndexEntry → Bool
  | a :: b :: rest => !decide (b.minTime.toInt < a.minTime.toInt) && entriesSorted (b :: rest)
  | _ => true

def sortEntries (es : List IndexEntry) : List IndexEntry :=
  if entriesSorted es then es else es.mergeSort fun a b => decide (a.minTime.toInt ≤ b.minTime.toInt)

variable (d : DirectIndex)

def flush : DirectIndex × Option String :=
  if d.key.length = 0 then (d, none)
  else if d.entries.length > maxIndexEntries then
    (d, some ("key '" ++ text d.key ++ "' exceeds max index entries: " ++ toString d.entries.length ++ " > " ++
      toString maxIndexEntries))
  else
    ({ d with
        w := d.w ++ (putUint16 (BitVec.ofNat 16 d.key.length) ++ (d.key ++
          (d.typ :: (putUint16 (BitVec.ofNat 16 d.entries.length) ++
            (sortEntries d.entries).flatMap IndexEntry.appendTo))))
        key := []
        typ := 0
        entries := [] }, none)

variable (key : Key)

/-- A new key with its first entry. -/
def start (blockType : Byte) (e : IndexEntry) : DirectIndex :=
  { d with
    keyCount := d.keyCount + 1
    size := d.size + BitVec.ofNat 32 (2 + key.length + indexCountSize + indexEntrySize)
    key := key
    typ := blockType
    entries := d.entries ++ [e] }

def add (blockType : Byte) (e : IndexEntry) : Except String DirectIndex :=
  if d.key.length = 0 then .ok (d.start key blockType e)
  else if d.key = key then
    .ok { d with entries := d.entries ++ [e], size := d.size + BitVec.ofNat 32 indexEntrySize }
  -- the error of `flush` is dropped
  else if d.key < key then .ok (d.flush.1.start key blockType e)
  else .error "keys must be added in sorted order"

def entriesOf : List IndexEntry :=
  if d.key.length = 0 then [] else if d.key = key then d.entries else []

def writeTo : Except String (List Byte) :=
  match d.flush with
  | (_, some err) => .error err
  | (d, none) => .ok d.w

end DirectIndex

/-! ## The file -/

def magicNumber : BitVec 32 := 0x16D116D1

def version : Byte := 1

def header : List Byte := putUint32 magicNumber ++ [version]

/-- `tsmWriter`: the bytes written, their number and the index. -/
structure TSMWriter where
  w : List Byte
  n : ℕ
  index : DirectIndex
deriving DecidableEq

def TSMWriter.new : TSMWriter := ⟨[], 0, .new⟩

def blockType (block : List Byte) : Except String Byte :=
  if block.headD 0 ∈ [blockFloat64, blockInteger, blockUnsigned, blockBoolean, blockString] then .ok (block.headD 0)
  else .error ("unknown block type: " ++ toString (block.headD 0).toNat)

structure BlockWrite where
  key : Key
  minTime : Word
  maxTime : Word
  block : List Byte

end Influxdb.Tsm1.Disk
