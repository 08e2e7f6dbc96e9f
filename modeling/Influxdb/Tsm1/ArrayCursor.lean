import Influxdb.Lib.Lists
import Influxdb.Lib.Cover
import Influxdb.Lib.Drain
import Influxdb.Tsm1.Types

/-!
# ArrayCursor — the array cursors of `array_cursor.gen.go`

The ascending and the descending cursor of the template, which merge the values of the cache with the
blocks that a key cursor delivers.  The key cursor is the list of the blocks it still returns; past
its end it returns an empty block.  A query calls `Next` until the array is empty (`drain next`).
-/

namespace Influxdb.Tsm1

open Cursors Timed

variable {V : Type*}

/-! ## Ascending -/

/-- `floatArrayAscendingCursor` and its siblings. -/
structure AscendingCursor (V : Type*) where
  cacheValues : ValueArray V
  cachePos : ℕ
  tsmValues : ValueArray V
  tsmPos : ℕ
  keyCursor : List (ValueArray V)
  stop : Int
  cap : ℕ

namespace AscendingCursor

/-- `reset`, on a new cursor with room for `cap` points. -/
def reset (cap : ℕ) (seek stop : Int) (cacheValues : ValueArray V) (blocks : List (ValueArray V)) : AscendingCursor V :=
  let tsmValues := blocks.headD []
  { cacheValues
    cachePos := sortSearch cacheValues.length fun i => cacheValues.timeAt i ≥ seek
    tsmValues
    tsmPos := sortSearch tsmValues.length fun i => tsmValues.timeAt i ≥ seek
    keyCursor := blocks.tail
    stop, cap }

variable (c : AscendingCursor V)

/-- `nextTSM`: the next block of the key cursor, from its start. -/
def nextTSM : AscendingCursor V :=
  { c with tsmValues := c.keyCursor.headD [], tsmPos := 0, keyCursor := c.keyCursor.tail }

/-- Read the next block once the current one is used up. -/
def refill : AscendingCursor V :=
  if c.tsmPos ≥ c.tsmValues.length then c.nextTSM else c

/-- One round of the merge loop, while both sides have values: the point written and the cursor. -/
def mergeOne : Option ((Int × V) × AscendingCursor V) :=
  match c.tsmValues[c.tsmPos]?, c.cacheValues[c.cachePos]? with
  | some t, some p =>
    if p.1 = t.1 then some (p, refill { c with cachePos := c.cachePos + 1, tsmPos := c.tsmPos + 1 })
    else if p.1 < t.1 then some (p, refill { c with cachePos := c.cachePos + 1 })
    else some (t, refill { c with tsmPos := c.tsmPos + 1 })
  | _, _ => none

/-- The merge loop, with room for `n` points: the points written and the cursor. -/
def mergeLoop : ℕ → AscendingCursor V → ValueArray V × AscendingCursor V
  | 0, c => ([], c)
  | n + 1, c =>
    match c.mergeOne with
    | none => ([], c)
    | some (p, c) => let (res, c) := mergeLoop n c; (p :: res, c)

/-- What `Next` copies from the current block behind `pos` points. -/
def copyTSM (pos : ℕ) : ValueArray V × AscendingCursor V :=
  if c.tsmPos < c.tsmValues.length then
    if pos = 0 ∧ c.cap ≥ c.tsmValues.length then
      -- "all points can be served from TSM data because we need the entire block"
      (c.tsmValues, c.nextTSM)
    else
      let vs := (c.tsmValues.drop c.tsmPos).take (c.cap - pos)
      (vs, refill { c with tsmPos := c.tsmPos + vs.length })
  else ([], c)

/-- What `Next` copies from the cache behind `pos` points. -/
def copyCache (pos : ℕ) : ValueArray V × AscendingCursor V :=
  let vs := (c.cacheValues.drop c.cachePos).take (c.cap - pos)
  (vs, { c with cachePos := c.cachePos + vs.length })

/-- The points of one call before those after the end are stripped. -/
def fill : ValueArray V × AscendingCursor V :=
  let (res₁, c) := mergeLoop c.cap c
  if res₁.length < c.cap then
    let (res₂, c) := c.copyTSM res₁.length
    let (res₃, c) := c.copyCache (res₁.length + res₂.length)
    (res₁ ++ res₂ ++ res₃, c)
  else (res₁, c)

def next : ValueArray V × AscendingCursor V :=
  let (res, c) := c.fill
  (res.rdropWhile (fun p => p.1 > c.stop), c)

end AscendingCursor

/-! ## Descending -/

/-- `floatArrayDescendingCursor` and its siblings.  The positions are counted from one: they are the
number of values up to the position, and 0 is the source's -1. -/
structure DescendingCursor (V : Type*) where
  cacheValues : ValueArray V
  cachePos : ℕ
  tsmValues : ValueArray V
  tsmPos : ℕ
  keyCursor : List (ValueArray V)
  stop : Int
  cap : ℕ

namespace DescendingCursor

/-- `reset`, on a new cursor with room for `cap` points. -/
def reset (cap : ℕ) (seek stop : Int) (cacheValues : ValueArray V) (blocks : List (ValueArray V)) :
    DescendingCursor V :=
  let tsmValues := blocks.headD []
  { cacheValues
    cachePos := sortSearch cacheValues.length fun i => cacheValues.timeAt i > seek
    tsmValues
    tsmPos := sortSearch tsmValues.length fun i => tsmValues.timeAt i > seek
    keyCursor := blocks.tail
    stop, cap }

variable (c : DescendingCursor V)

/-- `nextTSM`: the next block of the key cursor, from its end. -/
def nextTSM : DescendingCursor V :=
  let tsmValues := c.keyCursor.headD []
  { c with tsmValues, tsmPos := tsmValues.length, keyCursor := c.keyCursor.tail }

/-- Read the next block once the current one is used up. -/
def refill : DescendingCursor V := if c.tsmPos = 0 then c.nextTSM else c

def valueBefore (a : ValueArray V) : ℕ → Option (Int × V)
  | 0 => none
  | n + 1 => a[n]?

/-- One round of the merge loop, while both sides have values. -/
def mergeOne : Option ((Int × V) × DescendingCursor V) :=
  match valueBefore c.tsmValues c.tsmPos, valueBefore c.cacheValues c.cachePos with
  | some t, some p =>
    if p.1 = t.1 then some (p, refill { c with cachePos := c.cachePos - 1, tsmPos := c.tsmPos - 1 })
    else if p.1 > t.1 then some (p, refill { c with cachePos := c.cachePos - 1 })
    else some (t, refill { c with tsmPos := c.tsmPos - 1 })
  | _, _ => none

/-- One round of the loop that drains the blocks. -/
def drainTSMOne : Option ((Int × V) × DescendingCursor V) :=
  (valueBefore c.tsmValues c.tsmPos).map fun t => (t, refill { c with tsmPos := c.tsmPos - 1 })

/-- One round of the loop that drains the cache. -/
def drainCacheOne : Option ((Int × V) × DescendingCursor V) :=
  (valueBefore c.cacheValues c.cachePos).map fun p => (p, { c with cachePos := c.cachePos - 1 })

/-- A loop of `Next`, with room for `n` points: the points written and the cursor. -/
def loop (one : DescendingCursor V → Option ((Int × V) × DescendingCursor V)) :
    ℕ → DescendingCursor V → ValueArray V × DescendingCursor V
  | 0, c => ([], c)
  | n + 1, c =>
    match one c with
    | none => ([], c)
    | some (p, c) => let (res, c) := loop one n c; (p :: res, c)

/-- The points of one call before those before the end are stripped: both sides, then the blocks, then
the cache. -/
def fill : ValueArray V × DescendingCursor V :=
  let (res₁, c) := loop mergeOne c.cap c
  let (res₂, c) := loop drainTSMOne (c.cap - res₁.length) c
  let (res₃, c) := loop drainCacheOne (c.cap - (res₁.length + res₂.length)) c
  (res₁ ++ res₂ ++ res₃, c)

def next : ValueArray V × DescendingCursor V :=
  let (res, c) := c.fill
  (res.rdropWhile (fun p => p.1 < c.stop), c)

end DescendingCursor

end Influxdb.Tsm1
