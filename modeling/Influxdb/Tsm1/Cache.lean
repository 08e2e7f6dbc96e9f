import Influxdb.Lib.Assoc
import Influxdb.Lib.LastWrite
import Influxdb.Tsm1.Block
import Influxdb.Tsm1.Types
import Mathlib.Data.BitVec

/-!
# Cache — the in-memory cache (`cache.go`, `ring.go`)

Values wait in the cache until they are in a TSM file.  A snapshot swaps the store of the cache with an empty one;
reads take the snapshot first and then the store.  Entries are sorted and freed of overwritten values when they are
read or filtered, in place.

A map of keys is a list of pairs, in the order in which Go happens to walk over it.  The store that is allocated at the
first use is there from the start.
-/

namespace Influxdb.Tsm1

open Assoc Cursors

/-! ## Values -/

def Value.size : Value → ℕ
  | .float _ => 16
  | .integer _ => 16
  | .unsigned _ => 16
  | .boolean _ => 9
  | .string v => 8 + v.length

def valueType : Value → ℕ
  | .float _ => 1
  | .integer _ => 2
  | .string _ => 3
  | .boolean _ => 4
  | .unsigned _ => 5

def sizeOfValues (a : ValueArray Value) : ℕ := (a.map fun p => p.2.size).sum

def ordered : ValueArray Value → Bool
  | p :: q :: a => decide (p.1 < q.1) && ordered (q :: a)
  | _ => true

def deduplicate (a : ValueArray Value) : ValueArray Value :=
  if ordered a then a
  else
    match Timed.sortStable a with
    | [] => []
    | p :: a => Timed.dedupLoop p a

/-! ## Entries -/

/-- `entry`; the type of no values is 0. -/
structure Entry where
  values : ValueArray Value
  vtype : ℕ

def errFieldTypeConflict : String := "field type conflict"

def newEntryValues (values : ValueArray Value) : Except String Entry :=
  match values with
  | [] => .ok ⟨[], 0⟩
  | p :: rest =>
    if (p :: rest).all fun q => valueType p.2 == valueType q.2 then .ok ⟨p :: rest, valueType p.2⟩
    else .error errFieldTypeConflict

namespace Entry

variable (e : Entry)

def add (values : ValueArray Value) : Except String Entry :=
  match values with
  | [] => .ok e
  | p :: rest =>
    if e.vtype ≠ 0 ∧ ((p :: rest).all fun q => e.vtype == valueType q.2) = false then .error errFieldTypeConflict
    else if e.values.length = 0 then .ok ⟨p :: rest, valueType p.2⟩
    else .ok { e with values := e.values ++ p :: rest }

def deduplicate (e : Entry) : Entry :=
  if e.values.length ≤ 1 then e else { e with values := Tsm1.deduplicate e.values }

def filter (min max : Int) : Entry :=
  let values := if e.values.length > 1 then Tsm1.deduplicate e.values else e.values
  { e with values := values.exclude min max }

def size : ℕ := sizeOfValues e.values

def count : ℕ := e.values.length

end Entry

/-! ## The store -/

/-- `ring`, with 16 partitions. -/
structure Ring where
  partitions : Fin 16 → List (Key × Entry)

namespace Ring

/-- `newring`, and what `reset` leaves. -/
def empty : Ring := ⟨fun _ => []⟩

variable (hash : Key → ℕ)

/-- `getPartition`; the hash is `xxhash.Sum64`. -/
def getPartition (key : Key) : Fin 16 := ⟨hash key % 16, Nat.mod_lt _ (by decide)⟩

variable (r : Ring)

def entry (key : Key) : Option Entry := get key (r.partitions (getPartition hash key))

/-- Change the partition of a key. -/
def update (r : Ring) (key : Key) (f : List (Key × Entry) → List (Key × Entry)) : Ring :=
  ⟨Function.update r.partitions (getPartition hash key) (f (r.partitions (getPartition hash key)))⟩

/-- `ring.write`: whether the key is new, and the store. -/
def write (key : Key) (values : ValueArray Value) : Except String (Bool × Ring) :=
  match r.entry hash key with
  | some e => do
    let e ← e.add values
    return (false, r.update hash key (put key e))
  | none => do
    let e ← newEntryValues values
    return (true, r.update hash key (put key e))

def remove (key : Key) : Ring := r.update hash key (erase key)

/-- The entry of a key is changed in place. -/
def modify (key : Key) (f : Entry → Entry) : Ring :=
  match r.entry hash key with
  | none => r
  | some e => r.update hash key (put key (f e))

/-- `ring.apply` of a function without an error. -/
def apply (f : Entry → Entry) : Ring := ⟨fun i => mapValues f (r.partitions i)⟩

end Ring

/-! ## The cache -/

structure Snapshot where
  size : Word
  store : Ring

structure Cache where
  size : Word
  snapshotSize : Word
  store : Ring
  maxSize : Word
  snapshot : Option Snapshot
  snapshotting : Bool

namespace Cache

def new (maxSize : Word) : Cache := ⟨0, 0, .empty, maxSize, none, false⟩

variable (c : Cache)

def totalSize : Word := c.size + c.snapshotSize

def decreaseSize (delta : Word) : Cache := { c with size := c.size + ~~~(delta - 1) }

def bytesOf (values : ValueArray Value) : Word := BitVec.ofNat 64 (sizeOfValues values)

variable (hash : Key → ℕ)

/-- What `WriteMulti` has done: the cache, and the error. -/
structure Writing where
  cache : Cache
  werr : Option String

/-- The loop of `WriteMulti`. -/
def writeKeys : Writing → List (Key × ValueArray Value) → Writing
  | s, [] => s
  | s, (k, v) :: rest =>
    match s.cache.store.write hash k v with
    | .error err => writeKeys ⟨s.cache.decreaseSize (bytesOf v), some err⟩ rest
    | .ok (newKey, store) =>
      let size := if newKey then s.cache.size + BitVec.ofNat 64 k.length else s.cache.size
      writeKeys { s with cache := { s.cache with store := store, size := size } } rest

def addedSize (values : List (Key × ValueArray Value)) : Word := (values.map fun p => bytesOf p.2).sum

def errCacheMemorySizeLimitExceeded (n limit : Word) : String :=
  "cache-max-memory-size exceeded: (" ++ toString n.toNat ++ "/" ++ toString limit.toNat ++ ")"

def writeMulti (c : Cache) (values : List (Key × ValueArray Value)) : Writing :=
  let n := c.totalSize + addedSize values
  if c.maxSize > 0 ∧ n > c.maxSize then ⟨c, some (errCacheMemorySizeLimitExceeded n c.maxSize)⟩
  else writeKeys hash ⟨{ c with size := c.size + addedSize values }, none⟩ values

/-- A snapshot that failed is there and is tried again. -/
def retries : Bool :=
  match c.snapshot with
  | none => false
  | some s => decide (s.size > 0)

/-- `Snapshot`: the cache, and the error. -/
def takeSnapshot : Cache × Option String :=
  if c.snapshotting then (c, some "snapshot in progress")
  else if c.retries then ({ c with snapshotting := true }, none)
  else
    ({ c with
        snapshotting := true
        snapshot := some ⟨c.totalSize, c.store⟩
        snapshotSize := c.totalSize
        store := .empty
        size := 0 }, none)

def deduplicate : Cache := { c with store := c.store.apply Entry.deduplicate }

/-- `ClearSnapshot`; without a snapshot the source dereferences `nil`. -/
def clearSnapshot (success : Bool) : Except String Cache :=
  match c.snapshot with
  | none => .error "invalid memory address or nil pointer dereference"
  | some _ =>
    if success then .ok { c with snapshotting := false, snapshot := some ⟨0, .empty⟩, snapshotSize := 0 }
    else .ok { c with snapshotting := false }

def snapshotEntry (c : Cache) (key : Key) : Option Entry :=
  match c.snapshot with
  | none => none
  | some s => s.store.entry hash key

def valuesOf (e : Option Entry) : ValueArray Value :=
  match e with
  | none => []
  | some e => e.values

/-- `Values`: the values, and the cache with the entries of the key deduplicated. -/
def values (c : Cache) (key : Key) : ValueArray Value × Cache :=
  let c := { c with
    store := c.store.modify hash key Entry.deduplicate
    snapshot := c.snapshot.map fun s => { s with store := s.store.modify hash key Entry.deduplicate } }
  let all := valuesOf (c.snapshotEntry hash key) ++ valuesOf (c.store.entry hash key)
  (if all.length = 0 then [] else Tsm1.deduplicate all, c)

def deleteKey (min max : Int) (c : Cache) (k : Key) : Cache :=
  match c.store.entry hash k with
  | none => c
  | some e =>
    let origSize := BitVec.ofNat 64 e.size
    if min = minInt64 ∧ max = maxInt64 then
      { c.decreaseSize (origSize + BitVec.ofNat 64 k.length) with store := c.store.remove hash k }
    else
      let e := e.filter min max
      if e.count = 0 then
        { c.decreaseSize (origSize + BitVec.ofNat 64 k.length) with store := c.store.remove hash k }
      else
        { c.decreaseSize (origSize - BitVec.ofNat 64 e.size) with
          store := c.store.modify hash k fun e => e.filter min max }

def deleteRange (c : Cache) (keys : List Key) (min max : Int) : Cache := keys.foldl (deleteKey hash min max) c

end Cache

end Influxdb.Tsm1
