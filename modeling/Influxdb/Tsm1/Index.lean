import Influxdb.Lib.Endian
import Influxdb.Tsm1.Types

/-!
# Index — the index of a TSM file in memory (`reader.go`)

The index bytes hold, for every key in order, the length of the key, the key, the block type, the count of the
entries and the entries.  `IndirectIndex` keeps the bytes as they are and a table of 32-bit offsets, one for each
key that is not deleted; a key is found by a binary search through the table.  Deleting a time range either
removes offsets or adds to the tombstones of a key.

The source keeps the table as bytes; here it is a list of 32-bit words.  A panic is an error too.
-/

namespace Influxdb.Tsm1.Disk

/-- The value of an `int32` that a sum or a conversion gives. -/
def int32 (x : Int) : Int := (BitVec.ofInt 32 x).toInt

/-- The value of an `int64` that a sum gives. -/
def int64 (x : Int) : Int := (BitVec.ofInt 64 x).toInt

def slice (b : List Byte) (lo hi : Int) : Except String (List Byte) :=
  if 0 ≤ lo ∧ lo ≤ hi ∧ hi ≤ b.length then .ok ((b.take hi.toNat).drop lo.toNat)
  else .error "slice bounds out of range"

/-! ## Entries -/

def indexEntrySize : ℕ := 28

def indexCountSize : ℕ := 2

/-- `IndexEntry`; the times are the bits of an `int64`. -/
structure IndexEntry where
  minTime : Word
  maxTime : Word
  offset : Word
  size : BitVec 32
deriving DecidableEq

def IndexEntry.unmarshalBinary (b : List Byte) : Except String IndexEntry :=
  if b.length < indexEntrySize then
    .error ("unmarshalBinary: short buf: " ++ toString b.length ++ " < " ++ toString indexEntrySize)
  else .ok ⟨uint64 b, uint64 (b.drop 8), uint64 (b.drop 16), uint32 (b.drop 24)⟩

/-- `IndexEntry.AppendTo` a new buffer. -/
def IndexEntry.appendTo (e : IndexEntry) : List Byte :=
  putUint64 e.minTime ++ (putUint64 e.maxTime ++ (putUint64 e.offset ++ putUint32 e.size))

def IndexEntry.contains (e : IndexEntry) (t : Int) : Bool :=
  decide (e.minTime.toInt ≤ t) && decide (e.maxTime.toInt ≥ t)

def readKey (b : List Byte) : Except String (ℕ × Key) :=
  if b.length < 2 then .error "slice bounds out of range"
  else
    let size := (uint16 b).toNat
    if b.length < 2 + size then .error "slice bounds out of range" else .ok (2 + size, (b.drop 2).take size)

def readEntriesLoop : ℕ → List Byte → Except String (List IndexEntry)
  | 0, _ => .ok []
  | n + 1, b =>
    match IndexEntry.unmarshalBinary b with
    | .error err => .error ("readEntries: unmarshal error: " ++ err)
    | .ok e => do
      let es ← readEntriesLoop n (b.drop indexEntrySize)
      return e :: es

/-- `readEntries`: the bytes read, the block type and the entries. -/
def readEntries (b : List Byte) : Except String (ℕ × Byte × List IndexEntry) :=
  if b.length < 1 + indexCountSize then .error "readEntries: data too short for headers"
  else do
    let count := (uint16 (b.drop 1)).toNat
    let es ← readEntriesLoop count (b.drop 3)
    return (3 + count * indexEntrySize, b.headD 0, es)

/-! ## Searching -/

/-- `bytesutil.SearchBytesFixed`, by the number of the element; the last one is not looked at. -/
def searchBytesFixed (n : ℕ) (fn : ℕ → Bool) : ℕ := searchLoop (fun i => !fn i) n 0 (n - 1)

structure IndirectIndex where
  b : List Byte
  offsets : List (BitVec 32)
  minKey : Key
  maxKey : Key
  minTime : Int
  maxTime : Int
  tombstones : Key → List TimeRange

namespace IndirectIndex

variable (d : IndirectIndex)

/-- The key at an offset, as the callbacks of the searches and `Delete` read it. -/
def keyOf (offset : BitVec 32) : Key :=
  (d.b.drop (offset.toNat + 2)).take (uint16 (d.b.drop offset.toNat)).toNat

variable (key : Key)

/-- The search that `searchOffset` and `search` share. -/
def find : ℕ :=
  searchBytesFixed d.offsets.length fun i => decide (d.keyOf (d.offsets.getD i 0) ≥ key)

def searchOffset : ℕ :=
  if d.find key < d.offsets.length then d.find key else d.offsets.length

def seek : ℕ := d.searchOffset key

def containsKey : Bool := decide (key ≥ d.minKey) && decide (key ≤ d.maxKey)

/-- `search`: the byte position of the key, or the length of the index. -/
def search : ℕ :=
  if d.containsKey key = false then d.b.length
  else if d.find key < d.offsets.length then
    let ofs := d.offsets.getD (d.find key) 0
    if key ≠ d.keyOf ofs then d.b.length else ofs.toNat
  else d.b.length

def readEntriesAt (ofs : ℕ) : Except String (Key × List IndexEntry) := do
  let (n, k) ← readKey (d.b.drop ofs)
  match readEntries (d.b.drop (ofs + n)) with
  | .error err => .error ("error reading entries: " ++ err)
  | .ok (_, _, es) => return (k, es)

def entries : Except String (List IndexEntry) :=
  if d.search key < d.b.length then do
    let (k, es) ← d.readEntriesAt (d.search key)
    if key ≠ k then return [] else return es
  else .ok []

def entry (timestamp : Int) : Except String (Option IndexEntry) := do
  let es ← d.entries key
  return es.find? (·.contains timestamp)

def keyCount : ℕ := d.offsets.length

/-- `KeyAt`; without a key there the source returns `nil` and 0. -/
def keyAt (idx : ℕ) : Except String (Option (Key × Byte)) :=
  if idx ≥ d.offsets.length then .ok none
  else do
    let ofs := (d.offsets.getD idx 0).toNat
    let (n, key) ← readKey (d.b.drop ofs)
    if ofs + n ≥ d.b.length then .error "index out of range" else return some (key, d.b.getD (ofs + n) 0)

def overlapsTimeRange (min max : Int) : Bool :=
  decide (d.minTime ≤ max) && decide (d.maxTime ≥ min)

def overlapsKeyRange (min max : Key) : Bool :=
  decide (d.minKey ≤ max) && decide (d.maxKey ≥ min)

def tombstoneRange : List TimeRange := d.tombstones key

def containsValue (timestamp : Int) : Except String Bool := do
  match ← d.entry key timestamp with
  | none => return false
  | some _ => return !(d.tombstones key).any fun t => decide (t.min ≤ timestamp) && decide (t.max ≥ timestamp)

/-! ## Deleting -/

def nilOffset : BitVec 32 := BitVec.allOnes 32

/-- `bytesutil.Pack` with width 4: it looks at the first byte only. -/
def pack (offsets : List (BitVec 32)) (val : Byte) : List (BitVec 32) :=
  offsets.filter fun o => (o >>> 24).setWidth 8 ≠ val

variable (keys : List Key)

/-- `bytesutil.Sort`, for keys that are not sorted yet. -/
def sortKeys : List Key := keys.mergeSort fun a b => decide (a ≤ b)

/-- The loop of `Delete` over the rest of the table. -/
def deleteLoop (d : IndirectIndex) : List (BitVec 32) → List Key → List (BitVec 32)
  | [], _ => []
  | offset :: rest, keys =>
    match keys.dropWhile (· < d.keyOf offset) with
    | [] => offset :: rest
    | key :: keys =>
      if key = d.keyOf offset then nilOffset :: d.deleteLoop rest keys
      else offset :: d.deleteLoop rest (key :: keys)

def delete : IndirectIndex :=
  match sortKeys keys with
  | [] => d
  | key :: keys =>
    let start := d.searchOffset key
    { d with offsets := pack (d.offsets.take start ++ d.deleteLoop (d.offsets.drop start) (key :: keys)) 255 }

def overlaps (t : TimeRange) (min max : Int) : Bool := decide (t.min ≤ max) && decide (t.max ≥ min)

/-- The order of the tombstones of a key. -/
def rangeLess (a b : TimeRange) : Bool := if a.min = b.min then decide (a.max ≤ b.max) else decide (a.min < b.min)

def rangesSorted : List TimeRange → Bool
  | a :: b :: rest => !rangeLess b a && rangesSorted (b :: rest)
  | _ => true

def sortRanges (ts : List TimeRange) : List TimeRange := if rangesSorted ts then ts else ts.mergeSort rangeLess

/-- The window that the tombstones after `prev` extend, if there are no gaps. -/
def windowLoop (minTs maxTs : Int) (prev : TimeRange) : List TimeRange → Int × Int
  | [] => (minTs, maxTs)
  | ts :: rest =>
    if prev.max ≠ int64 (ts.min - 1) ∧ overlaps prev ts.min ts.max = false then (maxInt64, minInt64)
    else
      windowLoop (if ts.min < minTs then ts.min else minTs) (if ts.max > maxTs then ts.max else maxTs) ts rest

def window : List TimeRange → Int × Int
  | [] => (maxInt64, minInt64)
  | ts :: rest => windowLoop ts.min ts.max ts rest

/-- What a range does to a key: nothing, delete it, or leave it with tombstones that may add up to all of it. -/
inductive Verdict where
  | skip
  | full
  | left (newTs : List TimeRange)
  | covered (newTs : List TimeRange)

/-- The body of `DeleteRange` for a key with the given entries and tombstones. -/
def verdict (existing : List TimeRange) (minTime maxTime : Int) (entries : List IndexEntry) : Verdict :=
  match entries.head?, entries.getLast? with
  | some first, some last =>
    let min := first.minTime.toInt
    let max := last.maxTime.toInt
    if minTime > max ∨ maxTime < min then .skip
    else if minTime ≤ min ∧ maxTime ≥ max then .full
    else
      let newTs := sortRanges (existing ++ [⟨minTime, maxTime⟩])
      if (window newTs).1 ≤ min ∧ (window newTs).2 ≥ max then .covered newTs else .left newTs
  | _, _ => .skip

/-- The loop of `DeleteRange` over the table: the keys to delete and the new tombstones, the last one first. -/
def deleteRangeLoop (d : IndirectIndex) (minTime maxTime : Int) :
    List (BitVec 32) → List Key → List Key → List (Key × List TimeRange) →
      Except String (List Key × List (Key × List TimeRange))
  | [], _, fullKeys, tombstones => .ok (fullKeys, tombstones)
  | offset :: rest, keys, fullKeys, tombstones =>
    if keys = [] then .ok (fullKeys, tombstones)
    else do
      let (k, es) ← d.readEntriesAt offset.toNat
      match keys.dropWhile (· < k) with
      | [] => .ok (fullKeys, tombstones)
      | key :: keys =>
        if key > k then d.deleteRangeLoop minTime maxTime rest (key :: keys) fullKeys tombstones
        else
          match verdict (d.tombstones k ++ (tombstones.lookup k).getD []) minTime maxTime es with
          | .skip => d.deleteRangeLoop minTime maxTime rest (key :: keys) fullKeys tombstones
          | .full => d.deleteRangeLoop minTime maxTime rest keys (fullKeys ++ [key]) tombstones
          | .left newTs =>
            d.deleteRangeLoop minTime maxTime rest (key :: keys) fullKeys ((k, newTs) :: tombstones)
          | .covered newTs =>
            d.deleteRangeLoop minTime maxTime rest keys (fullKeys ++ [key]) ((k, newTs) :: tombstones)

def deleteRange (minTime maxTime : Int) : Except String IndirectIndex :=
  if keys = [] then .ok d
  else if minTime = minInt64 ∧ maxTime = maxInt64 then .ok (d.delete keys)
  -- outside of the time range of the file
  else if minTime > d.maxTime ∨ maxTime < d.minTime then .ok d
  else do
    let (fullKeys, tombstones) ← d.deleteRangeLoop minTime maxTime d.offsets (sortKeys keys) [] []
    let d := d.delete fullKeys
    return { d with tombstones := tombstones.foldr (fun p m => Function.update m p.1 p.2) d.tombstones }

/-! ## Loading -/

/-- What `UnmarshalBinary` has found so far, and the position of the next key. -/
structure Scan where
  i : Int
  offsets : List Int
  minTime : Int
  maxTime : Int

/-- One round of the loop of `UnmarshalBinary`: the key, the count, and the times of the first and last entry. -/
def scanKey (b : List Byte) (iMax : Int) (s : Scan) : Except String Scan := do
  let i := s.i
  if int32 (i + 2) ≥ iMax then .error "indirectIndex: not enough data for key length value"
  else
    let keyLen ← slice b i (int32 (i + 2))
    let i := int32 (i + (3 + (uint16 keyLen).toNat))
    if int32 (i + 2) ≥ iMax then .error "indirectIndex: not enough data for index entries count"
    else
      let count ← slice b i (int32 (i + 2))
      let i := int32 (i + 2)
      if int32 (i + 8) ≥ iMax then .error "indirectIndex: not enough data for min time"
      else
        let minT ← slice b i (int32 (i + 8))
        let i := int32 (i + ((uint16 count).toNat - 1) * 28)
        if int32 (i + 16) ≥ iMax then .error "indirectIndex: not enough data for max time"
        else
          let maxT ← slice b (int32 (i + 8)) (int32 (i + 16))
          return {
            i := int32 (i + 28)
            offsets := s.offsets ++ [s.i]
            minTime := min (uint64 minT).toInt s.minTime
            maxTime := max (uint64 maxT).toInt s.maxTime }

/-- The loop of `UnmarshalBinary`; a round moves on by at least one byte. -/
def scanKeys (b : List Byte) (iMax : Int) : ℕ → Scan → Except String Scan
  | 0, _ => .error "out of fuel"
  | fuel + 1, s =>
    if s.i < iMax then do
      let s ← scanKey b iMax s
      scanKeys b iMax fuel s
    else .ok s

def unmarshalBinary (b : List Byte) : Except String IndirectIndex :=
  if b.length = 0 then .ok ⟨[], [], [], [], 0, 0, fun _ => []⟩
  else do
    let s ← scanKeys b (int32 b.length) (b.length + 1) ⟨0, [], maxInt64, 0⟩
    match s.offsets.head?, s.offsets.getLast? with
    | some firstOfs, some lastOfs =>
      let (_, minKey) ← readKey (b.drop firstOfs.toNat)
      let (_, maxKey) ← readKey (b.drop lastOfs.toNat)
      return ⟨b, s.offsets.map (BitVec.ofInt 32), minKey, maxKey, s.minTime, s.maxTime, fun _ => []⟩
    | _, _ => .error "index out of range"

end IndirectIndex

end Influxdb.Tsm1.Disk
