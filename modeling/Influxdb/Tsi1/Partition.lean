import Influxdb.Tsi1.Content
import Mathlib.Order.Lattice.Nat

/-!
# Partition — a partition of the index over a series file

A partition has an active log file, older log files and index files, newest first, and the set of its live series.  The
series file gives every series an id and finds the key of an id; it marks ids as deleted, and a compaction of its own index
forgets their keys.
-/

namespace Influxdb.Tsi1

variable {K : Type} [LinearOrder K]

/-! ## The series file -/

/-- The series file: the keys it finds by id, the ids that are deleted, and the last id. -/
structure SeriesFile (K : Type) where
  keys : List (ℕ × Series K)
  deleted : Finset ℕ
  seq : ℕ

namespace SeriesFile

def empty : SeriesFile K := ⟨[], ∅, 0⟩

variable (sf : SeriesFile K)

def seriesKey (id : ℕ) : Option (Series K) := Assoc.get id sf.keys

def findID (s : Series K) : Option ℕ :=
  (sf.keys.find? fun p => p.2 = s ∧ p.1 ∉ sf.deleted).map Prod.fst

/-- `CreateSeriesListIfNotExists`, for one series: the id it has, or a new one. -/
def create (s : Series K) : ℕ × SeriesFile K :=
  match sf.findID s with
  | some id => (id, sf)
  | none => (sf.seq + 1, { sf with keys := Assoc.put (sf.seq + 1) s sf.keys, seq := sf.seq + 1 })

def createAll (sf : SeriesFile K) : List (Series K) → List ℕ × SeriesFile K
  | [] => ([], sf)
  | s :: ss =>
    let rest := (sf.create s).2.createAll ss
    ((sf.create s).1 :: rest.1, rest.2)

/-- `DeleteSeriesID`: an id that is deleted or not found is left alone. -/
def deleteSeriesID (id : ℕ) : SeriesFile K :=
  if id ∈ sf.deleted ∨ (sf.seriesKey id).isNone then sf else { sf with deleted := insert id sf.deleted }

/-- A compaction of the index: the keys of deleted ids are not found any more. -/
def compact : SeriesFile K := { sf with keys := sf.keys.filter fun p => p.1 ∉ sf.deleted }

end SeriesFile

/-! ## The partition -/

/-- A log file: its content in memory and its entries on disk. -/
structure LogFile (K : Type) where
  content : File K
  entries : List (LogEntry K)

namespace LogFile

def empty : LogFile K := ⟨.empty, []⟩

variable (seriesKey : ℕ → Option (Series K))

/-- `appendEntry` and `execEntry`. -/
def write (f : LogFile K) (e : LogEntry K) : LogFile K :=
  ⟨f.content.execEntry seriesKey e, f.entries ++ [e]⟩

/-- `LogFile.open`: the entries are executed again. -/
def replay (entries : List (LogEntry K)) : LogFile K :=
  ⟨entries.foldl (File.execEntry seriesKey) .empty, entries⟩

end LogFile

/-- A file behind the active log file. -/
inductive Layer (K : Type) where
  | log (f : LogFile K)
  | index (f : File K)

def Layer.content : Layer K → File K
  | .log f => f.content
  | .index f => f

structure Partition (K : Type) where
  active : LogFile K
  older : List (Layer K)
  seriesIDSet : Finset ℕ

namespace Partition

def empty : Partition K := ⟨.empty, [], ∅⟩

variable (p : Partition K)

/-- The file set, newest first. -/
def files : List (File K) := p.active.content :: p.older.map Layer.content

/-- One round of `LogFile.AddSeriesList`: the entry is written unless the series is there. -/
def addSeries (x : ℕ × Series K) : Partition K :=
  if x.1 ∈ p.seriesIDSet then p
  else
    { p with
      active := p.active.write (fun _ => some x.2) (.series false x.1)
      seriesIDSet := insert x.1 p.seriesIDSet }

def addSeriesList (xs : List (ℕ × Series K)) : Partition K := xs.foldl addSeries p

variable (sf : SeriesFile K)

def dropSeries (p : Partition K) (id : ℕ) : Partition K :=
  { p with
    active := p.active.write sf.seriesKey (.series true id)
    seriesIDSet := p.seriesIDSet.erase id }

/-- The ids of a set in the order of its iterator. -/
def ascending (s : Finset ℕ) : List ℕ := (List.range (s.sup id + 1)).filter (· ∈ s)

/-- The entries that `DropMeasurement` writes, with the file set as it is at the start. -/
def dropMeasurementEntries (name : K) : List (LogEntry K) :=
  ((FileSet.tagKeyElems p.files name).flatMap fun k =>
    (if IndexFiles.headDeleted (·.deleted) k.2 then [] else [.tagKeyTombstone name k.1]) ++
      ((mergeGroups ((IndexFiles.untilTombstone k.2).map fun ts => sortMap ts.values)).filterMap fun v =>
        if IndexFiles.headDeleted (·.deleted) v.2 then none else some (.tagValueTombstone name k.1 v.1))) ++
  ((ascending (FileSet.measurementSeries p.files name)).map (.series true)) ++ [.measurementTombstone name]

def dropMeasurement (p : Partition K) (name : K) : Partition K :=
  { p with active := (p.dropMeasurementEntries name).foldl (LogFile.write sf.seriesKey) p.active }

def roll : Partition K := { p with active := .empty, older := .log p.active :: p.older }

/-- `compactLogFile`, for the log file at position `i` behind the active one. -/
def compactLogFile (i : ℕ) : Partition K :=
  match p.older[i]? with
  | some (.log f) => { p with older := p.older.set i (.index f.content.compactLog) }
  | _ => p

/-- The contents of a run of index files; nothing if one of them is a log file. -/
def indexRun : List (Layer K) → Option (List (File K))
  | [] => some []
  | .log _ :: _ => none
  | .index f :: ls => (indexRun ls).map (f :: ·)

/-- `compactToLevel`, for the `n` index files from position `i` on. -/
def compactToLevel (i n : ℕ) : Partition K :=
  match indexRun ((p.older.drop i).take n) with
  | some (f :: g :: fs) =>
    { p with older := p.older.take i ++ .index (IndexFiles.compact (f :: g :: fs)) :: p.older.drop (i + n) }
  | _ => p

/-- A layer as it is opened again. -/
def reopenLayer : Layer K → Layer K
  | .log f => .log (LogFile.replay sf.seriesKey f.entries)
  | .index f => .index f

/-- `Open` of a partition that has been closed: the log files are read again and the set of live series is rebuilt. -/
def reopen (p : Partition K) : Partition K :=
  let q : Partition K :=
    { p with
      active := LogFile.replay sf.seriesKey p.active.entries
      older := p.older.map (reopenLayer sf) }
  { q with seriesIDSet := FileSet.buildSeriesSet q.files }

end Partition

/-! ## Histories -/

/-- A partition and the series file. -/
structure State (K : Type) where
  sfile : SeriesFile K
  partition : Partition K

/-- What can happen to a partition. -/
inductive Op (K : Type) where
  | create (series : List (Series K))
  | dropSeries (id : ℕ)
  | dropMeasurement (name : K)
  | roll
  | compactLogFile (i : ℕ)
  | compactToLevel (i n : ℕ)
  | deleteSeriesID (id : ℕ)
  | compactSeriesFile

namespace State

def empty : State K := ⟨.empty, .empty⟩

/-- One step.  `createSeriesListIfNotExists` asks the series file for the ids first. -/
def step (st : State K) : Op K → State K
  | .create series =>
    ⟨(st.sfile.createAll series).2, st.partition.addSeriesList ((st.sfile.createAll series).1.zip series)⟩
  | .dropSeries id => { st with partition := st.partition.dropSeries st.sfile id }
  | .dropMeasurement name => { st with partition := st.partition.dropMeasurement st.sfile name }
  | .roll => { st with partition := st.partition.roll }
  | .compactLogFile i => { st with partition := st.partition.compactLogFile i }
  | .compactToLevel i n => { st with partition := st.partition.compactToLevel i n }
  | .deleteSeriesID id => { st with sfile := st.sfile.deleteSeriesID id }
  | .compactSeriesFile => { st with sfile := st.sfile.compact }

def run (st : State K) (ops : List (Op K)) : State K := ops.foldl step st

end State

end Influxdb.Tsi1
