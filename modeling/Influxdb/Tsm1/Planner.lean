import Mathlib.Data.Finset.Basic
import Mathlib.Data.List.DropRight
import Influxdb.Lib.InsertionSort
import Influxdb.Tsm1.Types

/-!
# Planner — `DefaultPlanner` of `compact.go`

The planner groups the generations of TSM files that are to be compacted together.  What it asks of the
file store is `PlanStore`; `parse` is its `ParseFileName`, the generation and the sequence number of a path
(both 0 for the default function when the name is malformed, since the planner drops the error).  Times are in nanoseconds and 0
is the zero time.
-/

namespace Influxdb.Tsm1

/-- A file path; the order of bytes is that of `sort.Strings`. -/
abbrev Path := List Byte

/-! ## File names -/

def basePath (path : Path) : Path :=
  if path = [] then [46]
  else
    -- strip trailing slashes, then throw away everything up to the last one
    let path := path.rdropWhile (· = 47)
    if path = [] then [47] else path.rtakeWhile (· ≠ 47)

/-- `strconv.ParseUint(s, 10, 32)`. -/
def parseUint32 (s : List Byte) : Option ℕ :=
  if s = [] then none
  else s.foldlM (fun n c =>
    if 48 ≤ c ∧ c ≤ 57 then
      let n := n * 10 + (c.toNat - 48)
      if n > 4294967295 then none else some n
    else none) 0

/-- The bytes before and after the first `sep`; none when there is no `sep`. -/
def cutAt (sep : Byte) (s : List Byte) : Option (List Byte × List Byte) :=
  if sep ∈ s then some (s.takeWhile (· ≠ sep), (s.dropWhile (· ≠ sep)).tail) else none

/-- `DefaultParseFileName`: the generation and the sequence number, none for its errors. -/
def defaultParseFileName (name : Path) : Option (ℕ × ℕ) := do
  let (id, _) ← cutAt 46 (basePath name)
  let (generation, sequence) ← cutAt 45 id
  let generation ← parseUint32 generation
  let sequence ← parseUint32 sequence
  return (generation, sequence)

/-- `ParseFileName` as the planner uses it: without the error. -/
def parseFileName (name : Path) : ℕ × ℕ := (defaultParseFileName name).getD (0, 0)

def padNine (n : ℕ) : List Byte :=
  let digits := (Nat.toDigits 10 n).map fun d => BitVec.ofNat 8 d.toNat
  List.replicate (9 - digits.length) 48 ++ digits

def defaultFormatFileName (generation sequence : ℕ) : List Byte :=
  padNine generation ++ 45 :: padNine sequence

/-! ## Generations -/

structure FileStat where
  path : Path
  hasTombstone : Bool
  size : UInt32
deriving DecidableEq, Repr

/-- The `fileStore` interface: `Stats`, `LastModified` and `BlockCount(path, 1)`.  The paths of a listing
are distinct. -/
structure PlanStore where
  stats : List FileStat
  nodup : (stats.map (·.path)).Nodup
  lastModified : Int
  blockCount : Path → ℕ

/-- `maxTSMFileSize`, 2GB. -/
def maxTSMFileSize : ℕ := 2147483648

abbrev CompactionGroup := List Path

structure TsmGeneration where
  id : ℕ
  files : List FileStat
deriving DecidableEq, Repr

namespace TsmGeneration

variable (parse : Path → ℕ × ℕ) (g : TsmGeneration)

def size : ℕ := g.files.foldl (fun n f => (n + f.size.toNat) % 18446744073709551616) 0

/-- `level`: the sequence number of the first file, at most 4. -/
def level : ℕ :=
  let seq := g.files.head?.elim 0 fun f => (parse f.path).2
  if seq < 4 then seq else 4

def count : ℕ := g.files.length

def hasTombstones : Bool := g.files.any (·.hasTombstone)

/-- The paths of the files, in the order of the listing. -/
def paths : CompactionGroup := g.files.map (·.path)

/-- `BlockCount(files[0].Path, 1) == tsdb.DefaultMaxPointsPerBlock`. -/
def fullBlock (store : PlanStore) : Bool := g.files.head?.any fun f => store.blockCount f.path = defaultMaxPointsPerBlock

end TsmGeneration

abbrev TsmGenerations := List TsmGeneration

namespace TsmGenerations

def hasTombstones (a : TsmGenerations) : Bool := a.any (·.hasTombstones)

def level (parse : Path → ℕ × ℕ) (a : TsmGenerations) : ℕ :=
  a.foldl (fun level g => if g.level parse > level then g.level parse else level) 0

/-- The loop of `chunk`, with fuel. -/
def chunkLoop (size : ℕ) : ℕ → TsmGenerations → List TsmGenerations
  | 0, _ => []
  | n + 1, a =>
    if a.length > 0 then
      if a.length ≥ size then a.take size :: chunkLoop size n (a.drop size) else [a]
    else []

/-- `chunk`; one round takes at least one generation, since `size` is not 0. -/
def chunk (size : ℕ) (a : TsmGenerations) : List TsmGenerations := chunkLoop size a.length a

/-- The files of some generations. -/
def paths (a : TsmGenerations) : CompactionGroup := a.flatMap (·.paths)

end TsmGenerations

def sortStrings (l : List Path) : List Path := insertionSort (fun a b => a < b) l

structure DefaultPlanner where
  compactFullWriteColdDuration : Int
  lastPlanCheck : Int
  lastFindGenerations : Int
  lastGenerations : TsmGenerations
  forceFull : Bool
  filesInUse : Finset Path

namespace DefaultPlanner

def newDefaultPlanner (writeColdDuration : Int) : DefaultPlanner where
  compactFullWriteColdDuration := writeColdDuration
  lastPlanCheck := 0
  lastFindGenerations := 0
  lastGenerations := []
  forceFull := false
  filesInUse := ∅

section Generations

variable (parse : Path → ℕ × ℕ)

/-- Add a file to the map of generations. -/
def addFile (generations : TsmGenerations) (f : FileStat) : TsmGenerations :=
  let gen := (parse f.path).1
  if generations.any (·.id = gen) then
    generations.map fun g => if g.id = gen then { g with files := g.files ++ [f] } else g
  else generations ++ [{ id := gen, files := [f] }]

/-- The listing of `findGenerations`: the files by generation, oldest generation first. -/
def listGenerations (stats : List FileStat) : TsmGenerations :=
  insertionSort (fun a b => a.id < b.id) (stats.foldl (addFile parse) [])

def findGenerations (c : DefaultPlanner) (store : PlanStore) (skipInUse : Bool) : TsmGenerations × DefaultPlanner :=
  if c.lastFindGenerations ≠ 0 ∧ store.lastModified = c.lastFindGenerations then (c.lastGenerations, c)
  else
    -- skip any files that are assigned to a current compaction plan
    let tsmStats := store.stats.filter fun f => !(skipInUse && decide (f.path ∈ c.filesInUse))
    let generations := listGenerations parse tsmStats
    (generations, { c with lastFindGenerations := store.lastModified, lastGenerations := generations })

end Generations

variable (c : DefaultPlanner)

variable (groups : List CompactionGroup)

/-- `acquire`: all of the groups, or none. -/
def acquire : Bool × DefaultPlanner :=
  if groups.any (fun g => g.any fun f => f ∈ c.filesInUse) then (false, c)
  else (true, { c with filesInUse := groups.foldl (fun s g => g.foldl (fun s f => insert f s) s) c.filesInUse })

def release : DefaultPlanner :=
  { c with filesInUse := groups.foldl (fun s g => g.foldl (fun s f => s.erase f) s) c.filesInUse }

def requestFull : DefaultPlanner := { c with forceFull := true }

/-- `FullyCompacted`, without its text. -/
def fullyCompacted (parse : Path → ℕ × ℕ) (c : DefaultPlanner) (store : PlanStore) : Bool × DefaultPlanner :=
  let (gens, c) := c.findGenerations parse store false
  if gens.length > 1 then (false, c) else if gens.hasTombstones then (false, c) else (true, c)

/-- What a plan returns: the groups, if they could be acquired, and their number. -/
def acquired : (List CompactionGroup × ℕ) × DefaultPlanner :=
  match c.acquire groups with
  | (false, c) => (([], groups.length), c)
  | (true, c) => ((groups, groups.length), c)

/-! ## Level and optimize plans -/

section Level

variable (parse : Path → ℕ × ℕ)

/-- The grouping loop: two adjacent generations in the same level become part of the same group, and a
generation with a higher level behind it joins the group before it.  Generations for which `skip` holds
are passed over. -/
def groupByLevel (skip : TsmGeneration → Bool) : TsmGenerations → TsmGenerations → List TsmGenerations
  | [], currentGen => if currentGen.length > 0 then [currentGen] else []
  | cur :: rest, currentGen =>
    if skip cur then groupByLevel skip rest currentGen
    else if rest.head?.any fun next => cur.level parse < next.level parse then
      groupByLevel skip rest (currentGen ++ [cur])
    else if currentGen.length = 0 ∨ currentGen.level parse = cur.level parse then
      groupByLevel skip rest (currentGen ++ [cur])
    else currentGen :: groupByLevel skip rest [cur]

def levelGroups (level : ℕ) (generations : TsmGenerations) : List CompactionGroup :=
  if generations.length ≤ 1 ∧ !generations.hasTombstones then []
  else
    let groups := groupByLevel parse (fun _ => false) generations []
    let levelGroups := groups.filter fun cur => cur.level parse = level
    let minGenerations := if level = 1 then 8 else 4
    (levelGroups.flatMap (TsmGenerations.chunk minGenerations)).filterMap fun chunk =>
      if chunk.length < minGenerations ∧ !TsmGenerations.hasTombstones chunk then none
      else some (TsmGenerations.paths chunk)

/-- The generations `PlanOptimize` passes over: split over more than two files, over the max size, with a
full block and without tombstones. -/
def optimizeSkips (store : PlanStore) (cur : TsmGeneration) : Bool :=
  cur.count > 2 && cur.size > maxTSMFileSize && cur.fullBlock store && !cur.hasTombstones

def optimizeGroups (store : PlanStore) (generations : TsmGenerations) : List CompactionGroup :=
  if generations.length ≤ 1 ∧ !generations.hasTombstones then []
  else
    let groups := groupByLevel parse (optimizeSkips store) generations []
    let levelGroups := groups.filter fun cur => cur.level parse = 4
    levelGroups.filterMap fun group =>
      if group.length < 4 ∧ !TsmGenerations.hasTombstones group then none else some (TsmGenerations.paths group)

end Level

/-! ## Full plans -/

section Full

variable (parse : Path → ℕ × ℕ) (store : PlanStore)

/-- The generations a full plan passes over, when `rest` comes after it in a listing of `n`. -/
def fullSkips (n : ℕ) (group : TsmGeneration) (rest : TsmGenerations) : Bool :=
  let skip := n > 2 && group.size > maxTSMFileSize && group.fullBlock store && !group.hasTombstones
  skip && !(rest.head?.any fun next => next.level parse ≤ 3)

def fullGenerations (n : ℕ) : TsmGenerations → TsmGenerations
  | [] => []
  | group :: rest =>
    if fullSkips parse store n group rest then fullGenerations n rest else group :: fullGenerations n rest

variable (generations : TsmGenerations)

def fullGroups : List CompactionGroup :=
  let gens := fullGenerations parse store generations.length generations
  let tsmFiles := sortStrings gens.paths
  if tsmFiles.length ≤ 1 ∨ gens.length ≤ 1 then [] else [tsmFiles]

/-! ## Plans of level 4 -/

/-- The end of the level 4 generations, which are the oldest. -/
def planEnd : ℕ := (generations.takeWhile fun g => !(g.level parse ≤ 3)).length

/-- The loop that skips the generations that are maxed out, from position `i` with `prev` before it. -/
def planStart (i : ℕ) (prev : Option TsmGeneration) (hasTombstones : Bool) (start : ℕ) : TsmGenerations → ℕ
  | [] => start
  | g :: rest =>
    let hasTombstones := hasTombstones || g.hasTombstones
    if hasTombstones then planStart (i + 1) (some g) hasTombstones start rest
    else
      let start := if g.size > maxTSMFileSize && g.fullBlock store then i + 1 else start
      if prev.any fun p => g.size * 2 % 18446744073709551616 < p.size then i
      else planStart (i + 1) (some g) hasTombstones start rest

/-- One group of `step` generations: the first ones are left out, as many as there are over the max size. -/
def planWindow (window : TsmGenerations) : Option TsmGenerations :=
  if window.any fun gen => gen.level parse ≤ 3 then none
  else
    let maxed := window.countP fun gen =>
      gen.size ≥ maxTSMFileSize && gen.fullBlock store && !gen.hasTombstones
    if window.length - maxed > 0 then some (window.drop maxed) else none

def planGroups : List CompactionGroup :=
  let stop := planEnd parse generations
  let start := planStart store 0 none false 0 (generations.take stop)
  let step := if 4 > stop then stop else 4
  let examined := (generations.take stop).drop start
  let groups := (TsmGenerations.chunk step examined).filterMap (planWindow parse store)
  let compactable := groups.filter fun group => !(group.length < 4 && !TsmGenerations.hasTombstones group)
  compactable.map fun c => sortStrings (TsmGenerations.paths c)

end Full

/-! ## Calls

A call takes its listing under the lock, plans without it and acquires its groups under it again. -/

/-- The plans that can be asked for.  `since` is the time since the last write and `now` the time of the
call. -/
inductive Call
  | plan (since now : Int)
  | planLevel (level : ℕ)
  | planOptimize
deriving DecidableEq, Repr

/-- If a full plan has been requested, the level and optimize plans do not plan anything. -/
def admits : Call → Bool
  | .plan _ _ => true
  | .planLevel _ | .planOptimize => !c.forceFull

/-- A full plan is due: it was requested, or nothing has been written for long. -/
def plansFull (since : Int) (generations : TsmGenerations) : Bool :=
  c.forceFull || (c.compactFullWriteColdDuration > 0 && since > c.compactFullWriteColdDuration &&
    generations.length > 1)

section Calls

variable (parse : Path → ℕ × ℕ)

/-- The groups a call asks for, on its listing.  An early return asks for none. -/
def groupsOf (c : DefaultPlanner) (store : PlanStore) (generations : TsmGenerations) :
    Call → List CompactionGroup × DefaultPlanner
  | .planLevel level => (levelGroups parse level generations, c)
  | .planOptimize => (optimizeGroups parse store generations, c)
  | .plan since now =>
    if c.plansFull since generations then (fullGroups parse store generations, { c with forceFull := false })
    -- don't plan if nothing has changed in the filestore
    else if c.lastPlanCheck > store.lastModified ∧ !generations.hasTombstones then ([], c)
    else
      let c := { c with lastPlanCheck := now }
      if generations.length ≤ 1 ∧ !generations.hasTombstones then ([], c)
      else (planGroups parse store generations, c)

/-- `Plan`, `PlanLevel` and `PlanOptimize`. -/
def run (c : DefaultPlanner) (store : PlanStore) (call : Call) : (List CompactionGroup × ℕ) × DefaultPlanner :=
  if c.admits call then
    let (generations, c) := c.findGenerations parse store true
    let (groups, c) := c.groupsOf parse store generations call
    c.acquired groups
  else (([], 0), c)

end Calls

end DefaultPlanner

end Influxdb.Tsm1
