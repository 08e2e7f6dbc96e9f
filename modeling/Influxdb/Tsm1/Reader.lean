import Influxdb.Tsm1.Tombstone
import Influxdb.Tsm1.Writer

/-!
# Reader — `TSMReader` (`reader.go`)

A reader has the bytes of its file, the index loaded from their end, and the tombstones beside the file.  Deletions go
to the tombstone file first; then what has been added to it since the last time is applied to the index, in batches of
keys with the same range.  `ReadAll` decodes the blocks of a key with decoders from the pools and leaves out the
points that have been deleted.
-/

namespace Influxdb.Tsm1.Disk

open IndirectIndex

def verifyVersion (b : List Byte) : Except String Unit :=
  if b.length < 4 then
    .error ("init: error reading magic number of file: " ++ if b.length = 0 then "EOF" else "unexpected EOF")
  else if uint32 b ≠ magicNumber then .error "can only read from tsm file"
  else if b.length < 5 then .error "init: error reading version: EOF"
  else if b.getD 4 0 ≠ version then
    .error ("init: file is version " ++ String.ofList (Nat.toDigits 2 (b.getD 4 0).toNat) ++ ". expected " ++
      String.ofList (Nat.toDigits 2 version.toNat))
  else .ok ()

def init (b : List Byte) : Except String IndirectIndex := do
  verifyVersion b
  if b.length < 8 then .error "mmapAccessor: byte slice too small for indirectIndex"
  else
    let indexOfsPos := b.length - 8
    let indexStart := (uint64 (b.drop indexOfsPos)).toNat
    if indexStart ≥ indexOfsPos then .error "mmapAccessor: invalid indexStart"
    else unmarshalBinary ((b.take indexOfsPos).drop indexStart)

structure TSMReader where
  b : List Byte
  index : IndirectIndex
  tombstoner : Tombstoner

/-! ## Applying tombstones -/

/-- The index, the keys that wait for the deletion of a range, and the last tombstone. -/
structure Batch where
  index : IndirectIndex
  batch : List Key
  prev : Tombstone

namespace Batch

variable (s : Batch)

/-- Delete the range of the last tombstone from the keys. -/
def apply : Except String Batch := do
  let index ← s.index.deleteRange s.batch s.prev.min.toInt s.prev.max.toInt
  return { s with index := index, batch := [] }

/-- A tombstone with another range: the keys before it are done first. -/
def turn (ts : Tombstone) : Except String Batch :=
  if s.batch ≠ [] ∧ (s.prev.min ≠ ts.min ∨ s.prev.max ≠ ts.max) then s.apply else .ok s

def fill : Except String Batch := if s.batch.length ≥ 4096 then s.apply else .ok s

/-- The function that `applyTombstones` walks with. -/
def push (ts : Tombstone) : Except String Batch := do
  let s ← s.turn ts
  let s ← fill { s with batch := s.batch ++ [ts.key] }
  return { s with prev := ts }

def finish : Except String Batch := if s.batch ≠ [] then s.apply else .ok s

end Batch

namespace TSMReader

variable (g : Gzip)

variable (t : TSMReader)

def applyTombstones : Except String TSMReader :=
  match t.tombstoner.walk g with
  | ((l, err), tombstoner) => do
    let s ← l.foldlM Batch.push ⟨t.index, [], ⟨[], 0, 0⟩⟩
    match err with
    | some err => .error ("init: read tombstones: " ++ err)
    | none => do
      let s ← s.finish
      return { t with index := s.index, tombstoner := tombstoner }

/-- `NewTSMReader` of a file and the tombstones beside it. -/
def new (g : Gzip) (b : List Byte) (disk : Option (List Byte)) : Except String TSMReader := do
  let index ← init b
  applyTombstones g ⟨b, index, .new disk⟩

def batchDeleteRange (keys : List Key) (minTime maxTime : Word) : TSMReader :=
  match keys.head?, keys.getLast? with
  | some minKey, some maxKey =>
    if t.index.overlapsKeyRange minKey maxKey = false then t
    else if t.index.overlapsTimeRange minTime.toInt maxTime.toInt = false then t
    else { t with tombstoner := t.tombstoner.addRange g t.index.containsKey keys minTime maxTime }
  | _, _ => t

def commit : Except String TSMReader :=
  applyTombstones g { t with tombstoner := t.tombstoner.flush g }

def deleteRange (keys : List Key) (minTime maxTime : Word) : Except String TSMReader :=
  if keys = [] then .ok t else commit g (batchDeleteRange g t keys minTime maxTime)

/-! ## Reading -/

/-- The bytes of a block behind its checksum. -/
def blockAt (b : List Byte) (e : IndexEntry) : Except String (List Byte) :=
  slice b (int64 (e.offset.toInt + 4)) (int64 (e.offset.toInt + e.size.toNat))

def pointsOf (d : Decoded) : Cursors.ValueArray Value := d.1.map fun p => (p.1.toInt, p.2)

def covers (block : IndexEntry) (t : TimeRange) : Bool :=
  decide (t.min ≤ block.minTime.toInt) && decide (t.max ≥ block.maxTime.toInt)

variable (decompress : List Byte → Except String (List Byte))

/-- The loop of `mmapAccessor.readAll` over the blocks of a key, and the decoders after it. -/
def readBlocks (b : List Byte) (tombstones : List TimeRange) :
    List IndexEntry → Decoders → Except String (Cursors.ValueArray Value) × Decoders
  | [], pool => (.ok [], pool)
  | block :: blocks, pool =>
    if tombstones.any (covers block) then readBlocks b tombstones blocks pool
    else
      match blockAt b block with
      | .error err => (.error err, pool)
      | .ok bytes =>
        match decodeBlock decompress pool bytes with
        | ((_, some err), pool) => (.error err, pool)
        | ((temp, none), pool) =>
          let r := readBlocks b tombstones blocks pool
          (r.1.map (excludeTombstones tombstones (pointsOf (temp, none)) ++ ·), r.2)

def readAll (t : TSMReader) (pool : Decoders) (key : Key) : Except String (Cursors.ValueArray Value) × Decoders :=
  match t.index.entries key with
  | .error err => (.error err, pool)
  | .ok blocks => readBlocks decompress t.b (t.index.tombstoneRange key) blocks pool

def containsValue (key : Key) (ts : Int) : Except String Bool := t.index.containsValue key ts

end TSMReader

end Influxdb.Tsm1.Disk
