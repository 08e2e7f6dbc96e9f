import Influxdb.Lib.InsertionSort
import Influxdb.Tsm1.Types

/-!
# KeyCursor — `KeyCursor` of `file_store.go` and `file_store_array.gen.go`

The cursor that reads the blocks of one key from all files of a store, in time order, and merges the
blocks that overlap.  The locations are shared by `seeks` and `current` in the source; here `seeks` owns
them and `current` holds positions of `seeks`.  Reading a block is parametric in the codec and the type
of the `Read*ArrayBlock` family.
-/

namespace Influxdb.Tsm1

open Cursors

variable {Buf V : Type*}

def int64 (x : Int) : Int := (x + 9223372036854775808) % 18446744073709551616 - 9223372036854775808

def minNanoTime : Int := minInt64 + 2

def maxNanoTime : Int := maxInt64 - 1

def IndexEntry.contains (e : IndexEntry Buf) (t : Int) : Bool := e.minTime ≤ t && e.maxTime ≥ t

def IndexEntry.overlapsTimeRange (e : IndexEntry Buf) (min max : Int) : Bool :=
  e.minTime ≤ max && e.maxTime ≥ min

def TSMReader.readEntries (r : TSMReader Buf) (key : Key) : List (IndexEntry Buf) :=
  ((r.index.find? fun ki => ki.key = key).map (·.entries)).getD []

/-- Widen a time range by the first and the last entry of a key. -/
def KeyIndex.widen (range : Int × Int) (ki : KeyIndex Buf) : Int × Int :=
  (ki.entries.head?.elim range.1 fun e => if e.minTime < range.1 then e.minTime else range.1,
    ki.entries.getLast?.elim range.2 fun e => if e.maxTime > range.2 then e.maxTime else range.2)

/-- `TimeRange`, as `UnmarshalBinary` finds it. -/
def TSMReader.timeRange (r : TSMReader Buf) : Int × Int := r.index.foldl KeyIndex.widen (maxInt64, 0)

/-- A file of the store, with its path. -/
structure TSMFile (Buf : Type*) where
  path : List Byte
  reader : TSMReader Buf

structure Location (Buf : Type*) where
  r : TSMFile Buf
  entry : IndexEntry Buf
  readMin : Int
  readMax : Int

namespace Location

def read (l : Location Buf) : Bool := l.readMin ≤ l.entry.minTime && l.readMax ≥ l.entry.maxTime

def markRead (l : Location Buf) (min max : Int) : Location Buf :=
  { l with
    readMin := if min < l.readMin then min else l.readMin
    readMax := if max > l.readMax then max else l.readMax }

def ascLess (a b : Location Buf) : Bool :=
  if a.entry.overlapsTimeRange b.entry.minTime b.entry.maxTime then a.r.path < b.r.path
  else a.entry.minTime < b.entry.minTime

def descLess (a b : Location Buf) : Bool :=
  if a.entry.overlapsTimeRange b.entry.minTime b.entry.maxTime then a.r.path < b.r.path
  else a.entry.maxTime < b.entry.maxTime

end Location

/-- The location of one block of the file, unless it is skipped. -/
def TSMFile.location? (f : TSMFile Buf) (key : Key) (t : Int) (ascending : Bool) (ie : IndexEntry Buf) :
    Option (Location Buf) :=
  -- skip any blocks that only contain values that are tombstoned
  if (f.reader.tombstoneRange key).any (fun ts => ts.min ≤ ie.minTime && ts.max ≥ ie.maxTime) then none
  else if ascending && ie.maxTime < t then none
  else if !ascending && ie.minTime > t then none
  else if ascending then
    -- everything before the seek time is marked as read
    some { r := f, entry := ie, readMin := minInt64, readMax := int64 (t - 1) }
  else some { r := f, entry := ie, readMin := int64 (t + 1), readMax := maxInt64 }

/-- The locations of one file for a key and time. -/
def TSMFile.locations (f : TSMFile Buf) (key : Key) (t : Int) (ascending : Bool) : List (Location Buf) :=
  let (minTime, maxTime) := f.reader.timeRange
  if ascending && maxTime < t then []
  else if !ascending && minTime > t then []
  else (f.reader.readEntries key).filterMap (f.location? key t ascending)

def locations (files : List (TSMFile Buf)) (key : Key) (t : Int) (ascending : Bool) : List (Location Buf) :=
  files.flatMap (·.locations key t ascending)

structure KeyCursor (Buf : Type*) where
  key : Key
  seeks : List (Location Buf)
  current : List ℕ
  pos : Int
  ascending : Bool

namespace KeyCursor

variable (c : KeyCursor Buf)

/-- The positions of `seeks` in scan order for which `p` holds. -/
def positions (p : Location Buf → Bool) : List ℕ :=
  let all := List.range c.seeks.length
  (if c.ascending then all else all.reverse).filter fun i => (c.seeks[i]?).any p

def seek (t : Int) : KeyCursor Buf :=
  let current := c.positions fun e =>
    if c.ascending then t < e.entry.minTime || e.entry.contains t
    else t > e.entry.maxTime || e.entry.contains t
  { c with current, pos := current.head?.elim 0 fun i => i }

/-- A cursor over sorted locations, before the seek. -/
def ofLocations (key : Key) (seeks : List (Location Buf)) (ascending : Bool) : KeyCursor Buf :=
  { key, seeks, current := [], pos := 0, ascending }

/-- `ascLocations` or `descLocations`. -/
def lessOf (ascending : Bool) : Location Buf → Location Buf → Bool :=
  if ascending then Location.ascLess else Location.descLess

def newKeyCursor (files : List (TSMFile Buf)) (key : Key) (t : Int) (ascending : Bool) : KeyCursor Buf :=
  let seeks := insertionSort (lessOf ascending) (locations files key t ascending)
  (ofLocations key seeks ascending).seek t

/-- The location at position `i` still has to be read. -/
def unread (seeks : List (Location Buf)) (i : ℕ) : Bool := (seeks[i]?).any (fun l => !l.read)

/-- `nextAscending`, with `current` empty. -/
def nextAscending : KeyCursor Buf :=
  let later := (List.range c.seeks.length).filter (fun i : ℕ => (i : Int) > c.pos)
  match later.find? (unread c.seeks) with
  | none => { c with pos := c.seeks.length, current := [] }
  | some pos => { c with pos, current := pos :: later.filter (fun i => i > pos && unread c.seeks i) }

/-- `nextDescending`, with `current` empty; the position found is listed twice. -/
def nextDescending : KeyCursor Buf :=
  let earlier := (List.range c.seeks.length).reverse.filter (fun i : ℕ => (i : Int) < c.pos)
  match earlier.find? (unread c.seeks) with
  | none => { c with pos := -1, current := [] }
  | some pos => { c with pos, current := pos :: earlier.filter (fun i => i ≤ pos && unread c.seeks i) }

def next : KeyCursor Buf :=
  match c.current with
  | [] => c
  | i :: _ =>
    if unread c.seeks i then c
    else if c.ascending then nextAscending c else nextDescending c

/-! ## Reading a block -/

section Read

variable (C : BlockCodec Buf V) (ty : BlockType)

/-- The window of an ascending read: it starts no later than any unread block and ends no earlier than
the first unread block that overlaps it, if there is one. -/
def ascWindow (rest : List (Location Buf)) (minT maxT : Int) : Int × Int × Bool :=
  let minT := rest.foldl (fun minT cur => if cur.entry.minTime < minT && !cur.read then cur.entry.minTime
    else minT) minT
  match rest.find? (fun cur => cur.entry.overlapsTimeRange minT maxT && !cur.read) with
  | none => (minT, maxT, false)
  | some cur => (minT, if cur.entry.maxTime > maxT then cur.entry.maxTime else maxT, true)

def descWindow (rest : List (Location Buf)) (minT maxT : Int) : Int × Int × Bool :=
  let maxT := rest.foldl (fun maxT cur => if cur.entry.maxTime > maxT && !cur.read then cur.entry.maxTime
    else maxT) maxT
  match rest.find? (fun cur => cur.entry.overlapsTimeRange minT maxT && !cur.read) with
  | none => (minT, maxT, false)
  | some cur => (if cur.entry.minTime < minT then cur.entry.minTime else minT, maxT, true)

/-- Merge the unread values of the other blocks in the window, and mark them as read. -/
def mergeRest (key : Key) (ascending : Bool) (minT maxT : Int) :
    List ℕ → List (Location Buf) → ValueArray V → Except String (ValueArray V × List (Location Buf))
  | [], seeks, values => .ok (values, seeks)
  | i :: rest, seeks, values =>
    match seeks[i]? with
    | none => mergeRest key ascending minT maxT rest seeks values
    | some cur =>
      let marked := seeks.set i (cur.markRead minT maxT)
      if !cur.entry.overlapsTimeRange minT maxT || cur.read then
        mergeRest key ascending minT maxT rest marked values
      else
        match C.decode ty cur.entry.b with
        | .error e => .error e
        | .ok v =>
          let v := excludeTombstones (cur.r.reader.tombstoneRange key) v
          let v := v.exclude cur.readMin cur.readMax
          let values :=
            if v.length > 0 then
              let v := v.include minT maxT
              if ascending then values.merge v else v.merge values
            else values
          mergeRest key ascending minT maxT rest marked values

/-- `Read*ArrayBlock`, on the positions of `current`. -/
def readFrom (key : Key) (ascending : Bool) (seeks : List (Location Buf)) :
    List ℕ → Except String (ValueArray V × List (Location Buf) × List ℕ)
  | [] => .ok ([], seeks, [])
  | i :: rest =>
    match seeks[i]? with
    | none => readFrom key ascending seeks rest
    | some first =>
      match C.decode ty first.entry.b with
      | .error e => .error e
      | .ok values =>
        let values := values.exclude first.readMin first.readMax
        let values := excludeTombstones (first.r.reader.tombstoneRange key) values
        if values.length = 0 then readFrom key ascending seeks rest
        else if rest.length = 0 then
          .ok (values, seeks.set i (first.markRead values.minTime values.maxTime), [i])
        else
          let others := rest.filterMap (seeks[·]?)
          let (minT, maxT, found) := if ascending then ascWindow others values.minTime values.maxTime
            else descWindow others values.minTime values.maxTime
          let values := if found then values.include minT maxT else values
          match mergeRest C ty key ascending minT maxT rest seeks values with
          | .error e => .error e
          | .ok (values, seeks) => .ok (values, seeks.modify i (·.markRead minT maxT), i :: rest)

def readArrayBlock (c : KeyCursor Buf) : Except String (ValueArray V × KeyCursor Buf) :=
  match readFrom C ty c.key c.ascending c.seeks c.current with
  | .error e => .error e
  | .ok (values, seeks, current) => .ok (values, { c with seeks, current })

/-- The blocks read, moving on with `Next` after each, until an empty one; out of fuel is `none`. -/
def readAll : ℕ → KeyCursor Buf → Option (Except String (List (ValueArray V)))
  | 0, _ => none
  | fuel + 1, c =>
    match c.readArrayBlock C ty with
    | .error e => some (.error e)
    | .ok (values, c) =>
      if values = [] then some (.ok []) else (readAll fuel c.next).map (Except.map (values :: ·))

end Read

end KeyCursor

end Influxdb.Tsm1
