import Influxdb.Lib.Escape
import Influxdb.Lib.InsertionSort
import Influxdb.Lib.Strconv

/-!
# Scan — the scanners of the line protocol

A line is `measurement[,tag=value...] field=value[,field=value...] [timestamp]`.  The scanners walk over the bytes and
look one or two bytes back for a backslash.  A slice or an index that leaves the buffer is a panic; a scanner that
cannot go on returns an error.
-/

namespace Influxdb.Models

/-- How a call ends without a value: it returns an error, it panics, or it does not end. -/
inductive Fault
  | error (msg : String)
  | panic (msg : String)
  | diverge
deriving DecidableEq

abbrev comma : Byte := 44
abbrev space : Byte := 32
abbrev equals : Byte := 61
abbrev quote : Byte := 34
abbrev newline : Byte := 10
abbrev hash : Byte := 35

def index (buf : List Byte) (i : ℕ) : Except Fault Byte :=
  match buf[i]? with
  | some c => .ok c
  | none => .error (.panic "index out of range")

def slice (buf : List Byte) (i j : ℕ) : Except Fault (List Byte) :=
  if i ≤ j ∧ j ≤ buf.length then .ok ((buf.drop i).take (j - i))
  else .error (.panic "slice bounds out of range")

/-- Return an error beside `buf[start:i]`. -/
def failAt {α : Type} (buf : List Byte) (start i : ℕ) (e : Fault) : Except Fault α := do
  let _ ← slice buf start i
  .error e

variable (c : Byte)

/-- Blanks, tabs and zero bytes are whitespace. -/
def isWhitespace : Bool := c == space || c == 9 || c == 0

variable (buf : List Byte)

variable (i : ℕ)

def skipWhitespace : ℕ := i + ((buf.drop i).takeWhile isWhitespace).length

/-! ## Stop bytes -/

/-- The bytes that end a measurement. -/
def commaOrSpace : Bool := c == comma || c == space

/-- The bytes that end a tag key or a tag value. -/
def commaSpaceEquals : Bool := c == comma || c == space || c == equals

/-- The byte before a position. -/
def prevByte : Byte := if i = 0 then 0 else buf.getD (i - 1) 0

/-- The loop that the scanners share: step to the first stop byte that is not behind a backslash, or to the end. -/
def findUnescaped (stop : Byte → Bool) (buf : List Byte) (i : ℕ) : ℕ :=
  i + runLen stop (prevByte buf i) (buf.drop i)

/-! ## Measurement and tags -/

inductive ScanState
  | tagKey
  | tagValue
  | fields
deriving DecidableEq

def scanMeasurement : ℕ × Except Fault ScanState :=
  if buf[i]? = none ∨ buf[i]? = some comma then (i, .error (.error "missing measurement"))
  else
    let i := findUnescaped commaOrSpace buf (i + 1)
    match buf[i]? with
    | none => (i, .error (.error "missing fields"))
    | some c => if c = comma then (i + 1, .ok .tagKey) else (i, .ok .fields)

def scanTagsKey : ℕ × Except Fault Unit :=
  if buf[i]? ∈ [none, some space, some comma, some equals] then (i, .error (.error "missing tag key"))
  else
    let i := findUnescaped commaSpaceEquals buf (i + 1)
    if buf[i]? = some equals then (i + 1, .ok ()) else (i, .error (.error "missing tag value"))

/-- `scanTagsValue`; that the first byte may be an equals sign is the source's. -/
def scanTagsValue : ℕ × Except Fault ScanState :=
  if buf[i]? ∈ [none, some comma, some space] then (i, .error (.error "missing tag value"))
  else
    let i := findUnescaped commaSpaceEquals buf (i + 1)
    match buf[i]? with
    | none => (i, .error (.error "missing fields"))
    | some c =>
      if c = equals then (i, .error (.error "invalid tag format"))
      else if c = comma then (i + 1, .ok .tagKey)
      else (i, .ok .fields)

/-- `indices`: the starts of the tags so far, and the length of the slice. -/
structure Indices where
  starts : List ℕ
  len : ℕ

/-- `indices[commas] = i`, where a full slice is first replaced by one of length `n`. -/
def Indices.put (s : Indices) (n i : ℕ) : Except Fault Indices :=
  let len := if s.starts.length ≥ s.len then n else s.len
  if s.starts.length < len then .ok ⟨s.starts ++ [i], len⟩ else .error (.panic "index out of range")

/-- The loop of `scanTags`. -/
def scanTagsLoop (buf : List Byte) : ℕ → ScanState → ℕ → Indices → ℕ × Except Fault (List ℕ)
  | 0, _, i, _ => (i, .error .diverge)
  | n + 1, .tagKey, i, indices =>
    match indices.put (2 * indices.len) i with
    | .error e => (i, .error e)
    | .ok indices =>
      match scanTagsKey buf i with
      | (i', .error e) => (i', .error e)
      | (i', .ok _) => scanTagsLoop buf n .tagValue i' indices
  | n + 1, .tagValue, i, indices =>
    match scanTagsValue buf i with
    | (i', .error e) => (i', .error e)
    | (i', .ok state) => scanTagsLoop buf n state i' indices
  | _ + 1, .fields, i, indices => (i, (indices.put (indices.len + 1) (i + 1)).map (·.starts))

/-- `scanTags`: the starts of the tags, and behind them one more than the end of the last one. -/
def scanTags : ℕ × Except Fault (List ℕ) :=
  scanTagsLoop buf (2 * buf.length + 2) .tagKey i ⟨[], 100⟩

def scanTo (stop : Byte) : ℕ × List Byte :=
  let e := findUnescaped (· == stop) buf i
  (e, (buf.drop i).take (e - i))

/-- The loop of `scanToSpaceOr` behind the byte `p`, which steps over the byte behind a backslash unseen. -/
def spaceOrLoop (stop : Byte) : Byte → List Byte → ℕ → Except Fault ℕ
  | p, [], i => if p = backslash then .error (.panic "index out of range") else .ok i
  | p, c :: x, i => if p ≠ backslash ∧ (c = stop ∨ c = space) then .ok i else spaceOrLoop stop c x (i + 1)

def scanToSpaceOr (stop : Byte) : Except Fault (ℕ × List Byte) := do
  let c ← index buf i
  if c = stop ∨ c = space then .ok (i, [])
  else
    let e ← spaceOrLoop stop c (buf.drop (i + 1)) (i + 1)
    let v ← slice buf i e
    .ok (e, v)

/-- `less` on the starts of two tags. -/
def less (i j : ℕ) : Bool := decide ((scanTo buf i equals).2 < (scanTo buf j equals).2)

/-- `reservedTagKeys`: a field tag and a measurement tag of one byte, and three words. -/
def reservedTagKeys : List (List Byte) :=
  [[255], [0], Strconv.ascii "_field", Strconv.ascii "_measurement", Strconv.ascii "time"]

/-- The error for the first reserved one of some tag keys, which is quoted. -/
def reservedError (keys : List (List Byte)) : Fault :=
  let key := (keys.find? (· ∈ reservedTagKeys)).getD []
  .error ("cannot use reserved tag key \"" ++ (if key = [255] then "\\xff" else if key = [0] then "\\x00" else text key) ++
    "\"")

/-- The raw tag keys between the indices. -/
def tagKeys (buf : List Byte) : List ℕ → Except Fault (List (List Byte))
  | i :: j :: rest => do
    let tag ← slice buf i (j - 1)
    let keys ← tagKeys buf (j :: rest)
    .ok ((scanTo tag 0 equals).2 :: keys)
  | _ => .ok []

/-- Are the tag keys sorted?  The pass stops at the first pair out of order and reports an equal pair before it. -/
def tagsSorted : List (List Byte) → Except Fault Bool
  | left :: right :: rest =>
    if right < left then .ok false
    else if left = right then .error (.error "duplicate tags")
    else tagsSorted (right :: rest)
  | _ => .ok true

/-- Copy the tags that start at the indices behind `out`, into a buffer of `n` bytes. -/
def copyTags (buf : List Byte) (n : ℕ) : List Byte → List ℕ → Except Fault (List Byte)
  | out, [] => .ok (out ++ List.replicate (n - out.length) 0)
  | out, i :: indices =>
    if n ≤ out.length then .error (.panic "index out of range")
    else do
      let (_, v) ← scanToSpaceOr buf i comma
      copyTags buf n (out ++ comma :: v.take (n - (out.length + 1))) indices

/-- The second pass over the sorted tags, which reports an equal pair. -/
def checkDuplicates (buf : List Byte) : List ℕ → Except Fault Unit
  | i :: j :: rest => do
    let left ← slice buf i buf.length
    let right ← slice buf j buf.length
    if (scanTo left 0 equals).2 = (scanTo right 0 equals).2 then .error (.error "duplicate tags")
    else checkDuplicates buf (j :: rest)
  | _ => .ok ()

/-- The part of `scanKey` behind the tags: reserved and duplicate keys are errors, and tags out of order are sorted. -/
def finishKey (start i : ℕ) (indices : List ℕ) : Except Fault (ℕ × List Byte) := do
  let keys ← tagKeys buf indices
  if ∃ k ∈ keys, k ∈ reservedTagKeys then failAt buf start i (reservedError keys)
  else
    match tagsSorted keys with
    | .error e => failAt buf start i e
    | .ok true => do
      let key ← slice buf start i
      .ok (i, key)
    | .ok false => do
      let measurement ← slice buf start (indices.headD 0 - 1)
      let key ← slice buf start i
      let sorted := insertionSort (less buf) indices.dropLast
      let b ← copyTags buf key.length (measurement.take key.length) sorted
      checkDuplicates buf sorted
      .ok (i, b)

def scanKey : Except Fault (ℕ × List Byte) :=
  let start := skipWhitespace buf i
  match scanMeasurement buf start with
  | (i, .error e) => failAt buf start i e
  | (i, .ok .tagKey) =>
    match scanTags buf i with
    | (i, .error e) => failAt buf start i e
    | (i, .ok indices) => finishKey buf start i indices
  | (i, .ok _) => finishKey buf start i []

end Influxdb.Models
