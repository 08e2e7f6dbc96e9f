import Influxdb.Lib.InsertionSort
import Influxdb.Lib.Loop
import Influxdb.Tsm1.Types

/-!
# Compact — `tsmBatchKeyIterator`, as the compactor runs it

The iterator of `compact.go` and the merge template of `compact.gen.go`, over an arbitrary block codec.
The five `merged*Values` arrays are one family indexed by the block type, and the parallel slices
`tsmFiles`, `iterators` and `buf` are one list of inputs.  Loops without an evident bound take fuel; a
result `none` is fuel used up, or a panic of the source.
-/

namespace Influxdb.Tsm1

open Cursors

variable {Buf V : Type*}

/-! ## Blocks -/

/-- A block on its way through a merge.  `[readMin, readMax]` is the part already read and encoded. -/
structure Block (Buf : Type*) where
  key : Key
  minTime : Int
  maxTime : Int
  typ : BlockType
  b : Buf
  tombstones : List TimeRange
  readMin : Int
  readMax : Int
deriving DecidableEq, Repr

namespace Block

variable (b : Block Buf)

def overlapsTimeRange (min max : Int) : Bool :=
  b.minTime ≤ max && b.maxTime ≥ min

def read : Bool :=
  b.readMin ≤ b.minTime && b.readMax ≥ b.maxTime

def markRead (min max : Int) : Block Buf :=
  { b with
    readMin := if min < b.readMin then min else b.readMin
    readMax := if max > b.readMax then max else b.readMax }

def partiallyRead : Bool :=
  if b.readMin = maxInt64 ∧ b.readMax = minInt64 then false
  else b.readMin ≠ b.minTime || b.readMax ≠ b.maxTime

/-- `blocks.Less`: by key, and for one key only when the time ranges are disjoint. -/
def less (a b : Block Buf) : Bool :=
  if a.key = b.key then a.minTime < b.minTime && a.maxTime < b.minTime
  else a.key < b.key

end Block

/-! ## Errors -/

/-- The errors the iterator collects. -/
inductive CompactError
  /-- "block read error on `file`: `err`", for an error of the block iterator -/
  | iterator (file : String) (err : String)
  /-- "decode error: unable to decompress block type `typ` for key '`key`': `err`" -/
  | decode (file : String) (typ : BlockType) (key : Key) (err : String)
  /-- "encode error: unable to compress block type `typ` for key '`key`': `err`" -/
  | encode (file : String) (typ : BlockType) (key : Key) (err : String)
  | unknownType (file : String) (typ : BlockType)
  | blockCount (err : String)
deriving DecidableEq, Repr

/-- The error state: the distinct errors seen, up to `maxErrors`, and how many were dropped. -/
structure ErrorLog where
  maxErrors : ℕ
  errs : List CompactError := []
  overflowErrors : ℕ := 0
deriving DecidableEq, Repr

def ErrorLog.append (log : ErrorLog) (e : CompactError) : ErrorLog :=
  if e ∈ log.errs then log
  else if log.maxErrors > log.errs.length then { log with errs := log.errs ++ [e] }
  else { log with overflowErrors := log.overflowErrors + 1 }

/-! ## Block iterator -/

/-- Iterates over the blocks of one file, in key order. -/
structure BlockIterator (Buf : Type*) where
  r : TSMReader Buf
  i : ℕ := 0
  n : ℕ := r.index.length
  key : Key := []
  entries : List (IndexEntry Buf) := []
  err : Option String := none
  typ : BlockType := .float64

namespace BlockIterator

/-- The key at a position; past the end it is nil. -/
def keyAt (r : TSMReader Buf) (i : ℕ) : Key := (r.index[i]?.map (·.key)).getD []

variable (it : BlockIterator Buf)

/-- `PeekNext`.  On the last entry of a key it looks one key too far, at `i + 1`. -/
def peekNext : Key :=
  if it.entries.length > 1 then it.key
  else if it.n - it.i > 1 then keyAt it.r (it.i + 1)
  else []

/-- Load the next key of the index. -/
def nextKey : Bool × BlockIterator Buf :=
  if it.n - it.i > 0 then
    let it :=
      match it.r.index[it.i]? with
      | some ki => { it with key := ki.key, typ := ki.typ, entries := ki.entries, i := it.i + 1 }
      | none => { it with key := [], typ := .float64, entries := [], i := it.i + 1 }
    if it.n ≠ it.r.index.length then
      (false, { it with err := some "delete during iteration" })
    else (it.entries ≠ [], it)
  else (false, it)

def next : Bool × BlockIterator Buf :=
  if it.err.isSome then (false, it)
  else if it.n - it.i = 0 ∧ it.entries = [] then (false, it)
  else
    let it := { it with entries := it.entries.tail }
    if it.entries ≠ [] then (true, it) else it.nextKey

/-- `Read`, as the fresh block the compactor makes of it. -/
def read : Option (Block Buf) :=
  it.entries.head?.map fun e =>
    { key := it.key, minTime := e.minTime, maxTime := e.maxTime, typ := it.typ, b := e.b
      tombstones := it.r.tombstoneRange it.key, readMin := maxInt64, readMax := minInt64 }

end BlockIterator

/-! ## Merging the blocks of one key -/

/-- The part of the iterator that `merge` works on: the blocks left of the current key, its decoded
values not yet written (`merged*Values` of the current type) and the encoded blocks ready to be read. -/
structure MergeState (Buf V : Type*) where
  blocks : List (Block Buf)
  values : ValueArray V
  merged : List (Block Buf)

/-- The settings and the position of the iterator, fixed while one key is merged. -/
structure MergeEnv (Buf V : Type*) where
  codec : BlockCodec Buf V
  fast : Bool
  size : ℕ
  file : String
  key : Key
  typ : BlockType

namespace MergeEnv

variable (env : MergeEnv Buf V)

/-- "Adjust the min time to the start of any overlapping blocks", one block. -/
def adjustOne (w : Int × Int) (b : Block Buf) : Int × Int :=
  if b.overlapsTimeRange w.1 w.2 && !b.read then
    let minTime := if b.minTime < w.1 then b.minTime else w.1
    let maxTime := if b.maxTime > minTime ∧ b.maxTime < w.2 then b.maxTime else w.2
    (minTime, maxTime)
  else w

/-- The window of the next values, started at the first block. -/
def adjustWindow (blocks : List (Block Buf)) (w : Int × Int) : Int × Int :=
  blocks.foldl adjustOne w

/-- Decode the unread part in `[minTime, maxTime]` of every block and lay it over `values`. -/
def readWindow (minTime : Int) : List (Block Buf) → Int → ValueArray V → List (Block Buf) × ValueArray V × Option String
  | [], _, values => ([], values, none)
  | b :: bs, maxTime, values =>
    if !b.overlapsTimeRange minTime maxTime || b.read then
      let (bs', values', e) := readWindow minTime bs maxTime values
      (b :: bs', values', e)
    else
      match env.codec.decode env.typ b.b with
      | .error e => (b :: bs, values, some e)
      | .ok v =>
        -- the source restores its invariant `v.MaxTime() == b.maxTime` here
        let maxTime := if b.maxTime ≠ v.maxTime ∧ maxTime = b.maxTime then v.maxTime else maxTime
        let b := { b with maxTime := v.maxTime }
        let v := (v.exclude b.readMin b.readMax).include minTime maxTime
        let b := if v.length > 0 then b.markRead v.minTime v.maxTime else b
        let v := excludeTombstones b.tombstones v
        let (bs', values', e) := readWindow minTime bs maxTime (values.merge v)
        (b :: bs', values', e)

/-- One round of the dedup loop, on the blocks, the values and a decode error. -/
def dedupStep (s : List (Block Buf) × ValueArray V × Option String) :
    Option (List (Block Buf) × ValueArray V × Option String) :=
  let (blocks, values, err) := s
  if err.isSome then none
  else if values.length < env.size ∧ blocks ≠ [] then
    match blocks.dropWhile Block.read with
    | [] => some ([], values, none)
    | first :: rest =>
      let blocks := first :: rest
      let w := adjustWindow blocks (first.minTime, first.maxTime)
      some (env.readWindow w.1 blocks w.2 values)
  else none

/-- `chunk`: write at most one block of `size` values; `none` reports an encode error. -/
def chunk (values : ValueArray V) (dst : List (Block Buf)) : Except String (ValueArray V × List (Block Buf)) :=
  let newBlock (v : ValueArray V) (cb : Buf) : Block Buf :=
    { key := env.key, minTime := v.minTime, maxTime := v.maxTime, typ := .float64, b := cb
      tombstones := [], readMin := 0, readMax := 0 }
  if values.length > env.size then
    match env.codec.encode env.typ (values.take env.size) with
    | .error e => .error e
    | .ok cb => .ok (values.drop env.size, dst ++ [newBlock (values.take env.size) cb])
  else if values.length > 0 then
    match env.codec.encode env.typ values with
    | .error e => .error e
    | .ok cb => .ok ([], dst ++ [newBlock values cb])
  else .ok (values, dst)

/-- The full blocks in front, which are written as they are; what is left starts at a smaller one. -/
def takeFull : List (Block Buf) → List (Block Buf) → ErrorLog → List (Block Buf) × List (Block Buf) × ErrorLog
  | [], merged, log => ([], merged, log)
  | b :: bs, merged, log =>
    if b.read then takeFull bs merged log
    else
      match env.codec.blockCount b.b with
      | .error e => takeFull bs merged (log.append (.blockCount e))
      | .ok count =>
        if count < env.size then (b :: bs, merged, log)
        else takeFull bs (merged ++ [b]) log

/-- Decode blocks in order until there are `size` values: the blocks done, those left, the values. -/
def readBlocks : List (Block Buf) → ValueArray V → List (Block Buf) × List (Block Buf) × ValueArray V × Option String
  | [], values => ([], [], values, none)
  | b :: bs, values =>
    if values.length < env.size then
      if b.read then
        let (done, rest, values', e) := readBlocks bs values
        (b :: done, rest, values', e)
      else
        match env.codec.decode env.typ b.b with
        | .error e => ([], b :: bs, values, some e)
        | .ok v =>
          let b := { b with maxTime := v.maxTime }
          let v := excludeTombstones b.tombstones v
          let b := b.markRead b.minTime b.maxTime
          let (done, rest, values', e) := readBlocks bs (values.merge v)
          (b :: done, rest, values', e)
    else ([], b :: bs, values, none)

/-- Write what `chunk` makes of the values, after the blocks `dst`. -/
def finish (blocks : List (Block Buf)) (values : ValueArray V) (dst : List (Block Buf))
    (log : ErrorLog) : MergeState Buf V × ErrorLog :=
  match env.chunk values dst with
  | .ok (values, merged) => (⟨blocks, values, merged⟩, log)
  | .error e => (⟨blocks, values, []⟩, log.append (.encode env.file env.typ env.key e))

def combineDedup (fuel : ℕ) (s : MergeState Buf V) (log : ErrorLog) : Option (MergeState Buf V × ErrorLog) :=
  (Loop.run env.dedupStep fuel (s.blocks, s.values, none)).map fun
    | (blocks, values, some e) =>
      (⟨blocks, values, []⟩, log.append (.decode env.file env.typ env.key e))
    | (blocks, values, none) => env.finish blocks values [] log

/-- The blocks written without decoding: the full ones in front, all of them if `fast` is set, and a
single last one.  The blocks left, and those taken after `merged`. -/
def takeWhole (blocks merged : List (Block Buf)) (log : ErrorLog) : List (Block Buf) × List (Block Buf) × ErrorLog :=
  let (rest, merged, log) := env.takeFull blocks merged log
  let (rest, merged) :=
    if env.fast then ([], merged ++ rest.filter (fun b => !b.read)) else (rest, merged)
  match rest with
  | [b] => ([], if b.read then merged else merged ++ [b], log)
  | rest => (rest, merged, log)

/-- `combine` without deduplication: the blocks are in order and do not overlap. -/
def combineInOrder (s : MergeState Buf V) (log : ErrorLog) : MergeState Buf V × ErrorLog :=
  let (rest, merged, log) := env.takeWhole s.blocks s.merged log
  match env.readBlocks rest s.values with
  | (done, left, values, some e) =>
    -- `k.blocks = k.blocks[i:]` is not reached
    (⟨s.blocks.take (s.blocks.length - rest.length) ++ done ++ left, values, []⟩,
      log.append (.decode env.file env.typ env.key e))
  | (_, left, values, none) => env.finish left values merged log

/-- Whether a block of the list needs the values to be decoded and deduplicated. -/
def needsDedup : List (Block Buf) → Bool
  | [] => false
  | b :: bs => b.tombstones ≠ [] || b.partiallyRead || go b bs
where
  /-- The scan over the blocks after the first, each compared with the one before it. -/
  go (prev : Block Buf) : List (Block Buf) → Bool
    | [] => false
    | b :: bs =>
      b.partiallyRead || b.overlapsTimeRange prev.minTime prev.maxTime || b.tombstones ≠ [] || go b bs

/-- `mergeFloat` and its siblings. -/
def mergeTyped (fuel : ℕ) (s : MergeState Buf V) (log : ErrorLog) : Option (MergeState Buf V × ErrorLog) :=
  if s.blocks = [] ∧ s.merged = [] ∧ s.values = [] then some (s, log)
  else
    let s := { s with blocks := insertionSort Block.less s.blocks }
    if s.values ≠ [] || needsDedup s.blocks then env.combineDedup fuel s log
    else some (env.combineInOrder s log)

end MergeEnv

/-! ## The iterator over all files -/

/-- One input file: its name, its iterator and the blocks of the key it is at (`buf`). -/
structure Input (Buf : Type*) where
  tsmFile : String
  iter : BlockIterator Buf
  buf : List (Block Buf) := []

/-- The loop that reads the remaining blocks of the key `blockKey`. -/
def Input.readRest (blockKey : Key) : ℕ → Input Buf → Option (Input Buf)
  | 0, _ => none
  | fuel + 1, inp =>
    if inp.iter.peekNext = blockKey then
      let it := inp.iter.next.2
      it.read.bind fun blk => readRest blockKey fuel { inp with iter := it, buf := inp.buf ++ [blk] }
    else some inp

/-- Read all blocks of the next key of a file whose buffer is empty. -/
def Input.fill (fuel : ℕ) (inp : Input Buf) (log : ErrorLog) : Option (Input Buf × ErrorLog) :=
  if inp.buf ≠ [] then some (inp, log)
  else
    let (more, it) := inp.iter.next
    let inp := { inp with iter := it }
    let filled : Option (Input Buf) :=
      if more then
        it.read.bind fun blk => readRest blk.key fuel { inp with buf := inp.buf ++ [blk] }
      else some inp
    filled.map fun inp =>
      match inp.iter.err with
      | some e => (inp, log.append (.iterator inp.tsmFile e))
      | none => (inp, log)

structure BatchKeyIterator (Buf V : Type*) where
  codec : BlockCodec Buf V
  fast : Bool
  size : ℕ
  log : ErrorLog
  inputs : List (Input Buf)
  key : Key := []
  typ : BlockType := .float64
  currentTsm : String := ""
  blocks : List (Block Buf) := []
  mergedValues : BlockType → ValueArray V := fun _ => []
  merged : List (Block Buf) := []

namespace BatchKeyIterator

def newTSMBatchKeyIterator (codec : BlockCodec Buf V) (size : ℕ) (fast : Bool) (maxErrors : ℕ)
    (readers : List (String × TSMReader Buf)) : BatchKeyIterator Buf V :=
  { codec, fast, size, log := ⟨maxErrors, [], 0⟩
    inputs := readers.map fun (tsmFile, r) => { tsmFile, iter := { r } } }

variable (k : BatchKeyIterator Buf V)

def hasMergedValues : Bool :=
  BlockType.known.any fun ty => k.mergedValues ty ≠ []

/-- The settings `merge` reads. -/
def env : MergeEnv Buf V :=
  { codec := k.codec, fast := k.fast, size := k.size, file := k.currentTsm, key := k.key, typ := k.typ }

variable (fuel : ℕ)

/-- `merge`: the template for the type of the current key. -/
def merge (k : BatchKeyIterator Buf V) : Option (BatchKeyIterator Buf V) :=
  if k.typ ∈ BlockType.known then
    (k.env.mergeTyped fuel ⟨k.blocks, k.mergedValues k.typ, k.merged⟩ k.log).map fun (s, log) =>
      { k with
        blocks := s.blocks
        mergedValues := Function.update k.mergedValues k.typ s.values
        merged := s.merged
        log := log }
  else some { k with log := k.log.append (.unknownType k.currentTsm k.typ) }

/-- `merge` when there is something to merge; the flag tells whether a block can be returned. -/
def mergePending (pending : Bool) (k : BatchKeyIterator Buf V) : Option (Bool × BatchKeyIterator Buf V) :=
  if pending then
    (k.merge fuel).map fun k => (k.merged ≠ [] || k.hasMergedValues, k)
  else some (false, k)

/-- The first half of `Next`: the merged blocks, merged values and blocks of the current key. -/
def nextPending (k : BatchKeyIterator Buf V) : Option (Bool × BatchKeyIterator Buf V) :=
  let k := { k with merged := k.merged.tail }
  if k.merged ≠ [] then some (true, k)
  else
    (k.mergePending fuel k.hasMergedValues).bind fun (found, k) =>
      if found then some (true, k) else k.mergePending fuel (k.blocks ≠ [])

/-- "Read the next block from each TSM iterator". -/
def fillInputs (fuel : ℕ) : List (Input Buf) → ErrorLog → Option (List (Input Buf) × ErrorLog)
  | [], log => some ([], log)
  | inp :: inps, log =>
    (inp.fill fuel log).bind fun (inp, log) =>
      (fillInputs fuel inps log).map fun (inps, log) => (inp :: inps, log)

/-- The smallest key the inputs are at, with its type. -/
def minKey : List (Input Buf) → Key × BlockType → Key × BlockType
  | [], m => m
  | inp :: inps, m =>
    match inp.buf with
    | [] => minKey inps m
    | b :: _ => minKey inps (if m.1 = [] ∨ b.key < m.1 then (b.key, b.typ) else m)

def takeKey (key : Key) : List (Input Buf) → List (Block Buf) × List (Input Buf)
  | [] => ([], [])
  | inp :: inps =>
    let (blocks, inps') := takeKey key inps
    match inp.buf with
    | [] => (blocks, inp :: inps')
    | b :: bs =>
      if b.key = key then (b :: bs ++ blocks, { inp with buf := [] } :: inps')
      else (blocks, inp :: inps')

/-- The last file whose buffer was read, for the error messages. -/
def lastRead (inputs : List (Input Buf)) (currentTsm : String) : String :=
  inputs.foldl (fun c inp => if inp.buf = [] then inp.tsmFile else c) currentTsm

/-- The second half of `Next` up to the merge: move on to the next key. -/
def nextKey (k : BatchKeyIterator Buf V) : Option (BatchKeyIterator Buf V) :=
  (fillInputs fuel k.inputs k.log).map fun (inputs, log) =>
    let m := minKey inputs ([], .float64)
    let (blocks, inputs') := takeKey m.1 inputs
    { k with
      currentTsm := lastRead k.inputs k.currentTsm
      log, inputs := inputs', key := m.1, typ := m.2, blocks := k.blocks ++ blocks }

/-- `Next`; the fuel of the second argument counts the retries. -/
def next (fuel : ℕ) : ℕ → BatchKeyIterator Buf V → Option (Bool × BatchKeyIterator Buf V)
  | 0, _ => none
  | retries + 1, k =>
    (k.nextPending fuel).bind fun (found, k) =>
      if found then some (true, k)
      else
        (k.nextKey fuel).bind fun k =>
          if k.blocks = [] then some (false, k)
          else
            (k.merge fuel).bind fun k =>
              if k.merged = [] then next fuel retries k else some (true, k)

/-- `Read`, after a `Next` that returned true: the current block. -/
def read : Option (Block Buf) := k.merged.head?

/-- The loop of the compactor: `Next` and `Read` until `Next` returns false.  The blocks read, in
order, and the errors met. -/
def readAll (fuel : ℕ) : ℕ → BatchKeyIterator Buf V → Option (List (Block Buf) × List CompactError)
  | 0, _ => none
  | rounds + 1, k =>
    (k.next fuel fuel).bind fun (more, k) =>
      if more then
        k.read.bind fun blk => (readAll fuel rounds k).map fun (out, errs) => (blk :: out, errs)
      else some ([], k.log.errs)

end BatchKeyIterator

end Influxdb.Tsm1
