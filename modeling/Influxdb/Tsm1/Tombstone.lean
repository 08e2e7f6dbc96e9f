import Influxdb.Lib.Endian
import Influxdb.Lib.Gzip
import Influxdb.Tsm1.Types

/-!
# Tombstone — tombstone files (`tombstone.go`)

Four formats: lines of text, records, one compressed stream of records, and compressed members of records one behind
the other.  A deletion is written to a copy of a file of the last format that replaces it at `Flush`; for the other
formats the file is written anew at once, from what is in memory.

The file system never fails, and a tombstoner has a path.  A member that ends too early is read up to there: if that is
between two records or in the length of one it passes for the end of the file, and only behind the first member so does
a header that is cut off.
-/

namespace Influxdb.Tsm1.Disk

/-- `Tombstone`; the times are the bits of an `int64`. -/
structure Tombstone where
  key : Key
  min : Word
  max : Word
deriving DecidableEq

def v2header : BitVec 32 := 0x1502

def v3header : BitVec 32 := 0x1503

def v4header : BitVec 32 := 0x1504

def headerSize : ℕ := 4

/-- `Tombstoner`: the file on disk, the file in progress with what went into its compressor, the tombstones in memory,
and how much of the file has been applied. -/
structure Tombstoner where
  disk : Option (List Byte)
  pending : Option (List Byte × List Byte)
  tombstones : List Tombstone
  lastAppliedOffset : ℕ

namespace Tombstoner

/-- `NewTombstoner` for a file. -/
def new (disk : Option (List Byte)) : Tombstoner := ⟨disk, none, [], 0⟩

/-! ## Writing -/

def writeTombstone (ts : Tombstone) : List Byte :=
  putUint32 (BitVec.ofNat 32 ts.key.length) ++ (ts.key ++ (putUint64 ts.min ++ putUint64 ts.max))

def writeTombstones (ts : List Tombstone) : List Byte := ts.flatMap writeTombstone

variable (g : Gzip)

variable (t : Tombstoner)

def commit : Tombstoner :=
  match t.pending with
  | none => t
  | some (file, gz) => { t with disk := some (file ++ g.compress gz), pending := none }

def writeTombstoneV3 (ts : List Tombstone) : Tombstoner :=
  commit g { t with pending := some (putUint32 v3header, writeTombstones ts), tombstones := [] }

/-- `prepareV4`; `none` is `errIncompatibleVersion`. -/
def prepareV4 : Option Tombstoner :=
  match t.pending with
  | some _ => some t
  | none =>
    match t.disk with
    | none => some { t with pending := some (putUint32 v4header, []) }
    | some file =>
      if file.length ≥ 4 then
        if uint32 file ≠ v4header then none else some { t with pending := some (file, []) }
      -- a file that is too short is not copied, and the header is written to new files only
      else some { t with pending := some ([], []) }

/-- The tombstones of the keys that pass the filter. -/
def tombstonesOf (filterFn : Key → Bool) (keys : List Key) (min max : Word) : List Tombstone :=
  (keys.filter filterFn).map fun k => ⟨k, min, max⟩

def addRange (filterFn : Key → Bool) (t : Tombstoner) (keys : List Key) (min max : Word) : Tombstoner :=
  match keys.dropWhile (!filterFn ·) with
  | [] => t
  | key :: keys =>
    match t.prepareV4 with
    | none =>
      let ts := t.tombstones ++ tombstonesOf filterFn (key :: keys) min max
      writeTombstoneV3 g { t with tombstones := ts } ts
    | some t =>
      { t with
        pending := t.pending.map fun p =>
          (p.1, p.2 ++ writeTombstones (tombstonesOf filterFn (key :: keys) min max)) }

def flush : Tombstoner := commit g t

def rollback : Tombstoner := { t with pending := none }

/-! ## Reading -/

/-- The tombstones that `Walk` has passed on, and its error. -/
abbrev Walked := List Tombstone × Option String

/-- The tombstones in memory come last, unless there is an error. -/
def Walked.andThen (w : Walked) (ts : List Tombstone) : Walked :=
  match w with
  | (l, some err) => (l, some err)
  | (l, none) => (l ++ ts, none)

/-- The lines of a file of the first version; a `bufio.Scanner` takes lines below 64 KiB. -/
def readLines : List (List Byte) → Walked
  | [] => ([], none)
  | line :: lines =>
    if line.length ≥ 65536 then ([], some "bufio.Scanner: token too long")
    else
      let line := if line.getLast? = some 13 then line.dropLast else line
      let r := readLines lines
      if line = [] then r
      else (⟨line, BitVec.ofInt 64 minInt64, BitVec.ofInt 64 maxInt64⟩ :: r.1, r.2)

variable (file : List Byte)

def readTombstoneV1 (ts : List Tombstone) : Walked := (readLines (file.splitOn 10)).andThen ts

/-- `f.Read(b[:k])`: the buffer and the rest of the file. -/
def readInto (b file : List Byte) (k : ℕ) : Option (List Byte × List Byte) :=
  if k > 0 ∧ file = [] then none else some (file.take k ++ b.drop (min k file.length), file.drop k)

/-- The loop of `readTombstoneV2` at position `n`.  The key is a part of the buffer that the times are read into. -/
def readV2Loop (size : ℕ) : ℕ → ℕ → List Byte → List Byte → Walked
  | 0, _, _, _ => ([], some "out of fuel")
  | fuel + 1, n, b, file =>
    if n ≥ size then ([], none)
    else
      match readInto b file 4 with
      | none => ([], some "EOF")
      | some (b, file) =>
        let keyLen := (uint32 b).toNat
        let b := if keyLen > b.length then List.replicate keyLen 0 else b
        match readInto b file keyLen with
        | none => ([], some "EOF")
        | some (b, file) =>
          match readInto b file 8 with
          | none => ([], some "EOF")
          | some (b, file) =>
            let min := uint64 b
            match readInto b file 8 with
            | none => ([], some "EOF")
            | some (b, file) =>
              let r := readV2Loop size fuel (n + (4 + keyLen + 16)) b file
              (⟨b.take keyLen, min, uint64 b⟩ :: r.1, r.2)

def readTombstoneV2 (ts : List Tombstone) : Walked :=
  (readV2Loop file.length file.length 4 (List.replicate 4096 0) (file.drop headerSize)).andThen ts

/-- The error of `io.ReadFull` in a record: that of the stream, or nothing is left, or not enough. -/
def shortRead (ending : Option GzipError) (b : List Byte) (keyLen : ℕ) : String :=
  match ending with
  | some err => err.text
  | none => if b.length = 4 ∨ b.length = 4 + keyLen ∨ b.length = 4 + keyLen + 8 then "EOF" else "unexpected EOF"

/-- The records of a stream and how it ends; every record has at least 20 bytes. -/
def readRecords (ending : Option GzipError) : ℕ → List Byte → Walked
  | 0, _ => ([], some "out of fuel")
  | fuel + 1, b =>
    if b.length < 4 then
      match ending with
      | none | some .unexpectedEOF => ([], none)
      | some (.other err) => ([], some err)
    else
      let keyLen := (uint32 b).toNat
      if b.length < 4 + keyLen + 16 then ([], some (shortRead ending b keyLen))
      else
        let r := readRecords ending fuel (b.drop (4 + keyLen + 16))
        (⟨(b.drop 4).take keyLen, uint64 (b.drop (4 + keyLen)), uint64 (b.drop (4 + keyLen + 8))⟩ :: r.1, r.2)

def readTombstoneV3 (ts : List Tombstone) : Walked :=
  let b := file.drop headerSize
  if b = [] then ([], some "EOF")
  else
    match g.next b with
    | .error err => ([], some err.text)
    | .ok _ =>
      let r := g.readAll b.length b
      (readRecords r.2 (r.1.length + 1) r.1).andThen ts

/-- The records of a member, and what comes behind it. -/
def readMember (m : Member) : Walked × List Byte :=
  match m.rest with
  | .error err => (readRecords (some err) (m.content.length + 1) m.content, [])
  | .ok rest => (readRecords none (m.content.length + 1) m.content, rest)

/-- The loop of `readTombstoneV4` over the members.  An error of `gr.Reset` is the first one that is read next. -/
def readMembers (g : Gzip) (ts : List Tombstone) : ℕ → List Byte → Walked
  | 0, _ => ([], some "out of fuel")
  | fuel + 1, b =>
    match g.next b with
    | .error .unexpectedEOF => (ts, none)
    | .error (.other err) => ([], some err)
    | .ok m =>
      match readMember m with
      | ((l, some err), _) => (l, some err)
      | ((l, none), rest) =>
        if rest = [] then (l ++ ts, none)
        else
          let r := readMembers g ts fuel rest
          (l ++ ts ++ r.1, r.2)

/-- `readTombstoneV4`, and what has been applied then. -/
def readTombstoneV4 : Walked × ℕ :=
  let b := file.drop (if t.lastAppliedOffset ≠ 0 then t.lastAppliedOffset else headerSize)
  if b = [] then (([], none), t.lastAppliedOffset)
  else
    match g.next b with
    | .error err => (([], some err.text), t.lastAppliedOffset)
    | .ok _ =>
      let r := readMembers g t.tombstones b.length b
      (r, if r.2 = none then file.length else t.lastAppliedOffset)

def walk : Walked × Tombstoner :=
  match t.disk with
  | none => (([], none), t)
  | some file =>
    let header := uint32 (file ++ List.replicate 4 0)
    if file = [] then (readTombstoneV1 file t.tombstones, t)
    else if header = v4header then
      let r := readTombstoneV4 g t file
      (r.1, { t with lastAppliedOffset := r.2 })
    else if header = v3header then (readTombstoneV3 g file t.tombstones, t)
    else if header = v2header then (readTombstoneV2 file t.tombstones, t)
    else (readTombstoneV1 file t.tombstones, t)

end Tombstoner

end Influxdb.Tsm1.Disk
