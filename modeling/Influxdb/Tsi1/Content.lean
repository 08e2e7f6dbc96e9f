import Influxdb.Lib.InsertionSort
import Influxdb.Lib.MergeGroups
import Mathlib.Data.Finset.Basic

/-!
# Content — what the files of the index hold

Log files and index files answer the same questions: which tag keys and tag values a measurement has, which of them are
deleted, which series a tag value has, and which series the file adds and removes.  A log file keeps this in memory and
changes it entry by entry; an index file is written once, from a log file or from a run of index files.  Names, tag keys and
tag values are of one ordered type, and sets of series ids are exact.
-/

namespace Influxdb.Tsi1

open Assoc

variable {K : Type} [LinearOrder K]

/-- A series key: the name of a measurement and tags. -/
structure Series (K : Type) where
  name : K
  tags : List (K × K)
deriving DecidableEq

structure TagValue where
  deleted : Bool
  series : Finset ℕ
deriving DecidableEq

structure TagKey (K : Type) where
  deleted : Bool
  values : List (K × TagValue)
deriving DecidableEq

structure Measurement (K : Type) where
  deleted : Bool
  tagSet : List (K × TagKey K)
  series : Finset ℕ
deriving DecidableEq

/-- The content of a log file or an index file. -/
structure File (K : Type) where
  mms : List (K × Measurement K)
  seriesIDSet : Finset ℕ
  tombstoneSeriesIDSet : Finset ℕ
deriving DecidableEq

namespace File

/-- A log file without entries. -/
def empty : File K := ⟨[], ∅, ∅⟩

/-! ## Lookups -/

variable (f : File K)

def measurement (name : K) : Option (Measurement K) := get name f.mms

def tagKey (name key : K) : Option (TagKey K) := (f.measurement name).bind fun mm => get key mm.tagSet

def tagValue (name key value : K) : Option TagValue :=
  (f.tagKey name key).bind fun ts => get value ts.values

/-- `TagValueSeriesIDSet`; a set that is not there is empty. -/
def tagValueSeriesIDSet (name key value : K) : Finset ℕ :=
  ((f.tagValue name key value).map (·.series)).getD ∅

/-- The ids of `MeasurementSeriesIDIterator`. -/
def measurementSeries (name : K) : Finset ℕ := ((f.measurement name).map (·.series)).getD ∅

end File

/-! ## The entries of a log file -/

inductive LogEntry (K : Type) where
  | measurementTombstone (name : K)
  | tagKeyTombstone (name key : K)
  | tagValueTombstone (name key value : K)
  | series (deleted : Bool) (id : ℕ)
deriving DecidableEq

def File.createMeasurementIfNotExists (f : File K) (name : K) : Measurement K :=
  (f.measurement name).getD ⟨false, [], ∅⟩

def createTagSetIfNotExists (tagSet : List (K × TagKey K)) (key : K) : TagKey K :=
  (get key tagSet).getD ⟨false, []⟩

def TagKey.createTagValueIfNotExists (ts : TagKey K) (value : K) : TagValue :=
  (get value ts.values).getD ⟨false, ∅⟩

/-- Change a tag value, making it and its key if they are not there. -/
def updateTagValue (g : TagValue → TagValue) (tagSet : List (K × TagKey K)) (tag : K × K) : List (K × TagKey K) :=
  let ts := createTagSetIfNotExists tagSet tag.1
  put tag.1 { ts with values := put tag.2 (g (ts.createTagValueIfNotExists tag.2)) ts.values } tagSet

/-- Add or remove a series id. -/
def touch (deleted : Bool) (id : ℕ) (s : Finset ℕ) : Finset ℕ := if deleted then s.erase id else insert id s

namespace File

/-- `execSeriesEntry`, for a series whose key is known. -/
def execSeries (s : Series K) (deleted : Bool) (id : ℕ) (f : File K) : File K :=
  let mm := f.createMeasurementIfNotExists s.name
  { mms := put s.name
      { deleted := false
        tagSet := s.tags.foldl (updateTagValue fun tv => { tv with series := touch deleted id tv.series }) mm.tagSet
        series := touch deleted id mm.series } f.mms
    seriesIDSet := touch deleted id f.seriesIDSet
    tombstoneSeriesIDSet := touch (!deleted) id f.tombstoneSeriesIDSet }

def execDeleteMeasurement (name : K) (f : File K) : File K := { f with mms := put name ⟨true, [], ∅⟩ f.mms }

def execDeleteTagKey (name key : K) (f : File K) : File K :=
  let mm := f.createMeasurementIfNotExists name
  { f with
    mms := put name
      { mm with tagSet := put key { createTagSetIfNotExists mm.tagSet key with deleted := true } mm.tagSet } f.mms }

def execDeleteTagValue (name key value : K) (f : File K) : File K :=
  let mm := f.createMeasurementIfNotExists name
  { f with
    mms := put name
      { mm with tagSet := updateTagValue (fun tv => { tv with deleted := true }) mm.tagSet (key, value) } f.mms }

/-- `execEntry`, where `seriesKey` finds the key of an id in the series file. -/
def execEntry (seriesKey : ℕ → Option (Series K)) (f : File K) : LogEntry K → File K
  | .measurementTombstone name => f.execDeleteMeasurement name
  | .tagKeyTombstone name key => f.execDeleteTagKey name key
  | .tagValueTombstone name key value => f.execDeleteTagValue name key value
  | .series deleted id =>
    match seriesKey id with
    | none => f
    | some s => f.execSeries s deleted id

end File

/-! ## Index files -/

/-- A map in the order of its keys. -/
def sortMap {α : Type} (l : List (K × α)) : List (K × α) := insertionSort (fun p q => p.1 < q.1) l

/-- A tag key as `LogFile.writeTagsetTo` writes it: the values of a deleted key are left out. -/
def TagKey.compact (ts : TagKey K) : TagKey K := { ts with values := if ts.deleted then [] else sortMap ts.values }

/-- A measurement as `LogFile.CompactTo` writes it. -/
def Measurement.compact (mm : Measurement K) : Measurement K :=
  { mm with tagSet := (sortMap mm.tagSet).map fun p => (p.1, p.2.compact) }

/-- The index file that `LogFile.CompactTo` writes. -/
def File.compactLog (f : File K) : File K := { f with mms := (sortMap f.mms).map fun p => (p.1, p.2.compact) }

namespace IndexFiles

variable (p : List (File K))

/-- `IndexFiles.buildSeriesIDSets`: the newest file is first. -/
def buildSeriesIDSets : List (File K) → Finset ℕ × Finset ℕ
  | [] => (∅, ∅)
  | [f] => (f.seriesIDSet, f.tombstoneSeriesIDSet)
  | f :: g :: p =>
    let sets := buildSeriesIDSets (g :: p)
    ((sets.1 \ f.tombstoneSeriesIDSet) ∪ f.seriesIDSet, (sets.2 ∪ f.tombstoneSeriesIDSet) \ f.seriesIDSet)

/-- `IndexFiles.TagValueSeriesIDSet` -/
def tagValueSeriesIDSet (name key value : K) : Finset ℕ :=
  p.foldl (fun ss f => ss ∪ f.tagValueSeriesIDSet name key value) ∅

variable (name : K)

/-- The ids of `IndexFiles.MeasurementSeriesIDIterator`. -/
def measurementSeries : Finset ℕ := p.foldl (fun ss f => ss ∪ f.measurementSeries name) ∅

/-- The elements of a merged tag key up to and with the first deleted one: what `tagKeyMergeElem.TagValueIterator` merges. -/
def untilTombstone : List (TagKey K) → List (TagKey K)
  | [] => []
  | ts :: rest => if ts.deleted then [ts] else ts :: untilTombstone rest

/-- The deleted flag of the first element of a group. -/
def headDeleted {α : Type} (deleted : α → Bool) (group : List α) : Bool := (group.head?.map deleted).getD false

/-- A tag value as `writeTagsetTo` writes it: the flag of the newest element and the series of all files. -/
def mergedValue (name key value : K) (group : List TagValue) : TagValue :=
  ⟨headDeleted (·.deleted) group, tagValueSeriesIDSet p name key value⟩

/-- The tag values that `writeTagsetTo` writes for a merged key. -/
def mergedValues (name key : K) (group : List (TagKey K)) : List (K × TagValue) :=
  (mergeGroups ((untilTombstone group).map (·.values))).map fun v => (v.1, mergedValue p name key v.1 v.2)

/-- A tag key as `writeTagsetTo` writes it. -/
def mergedKey (name key : K) (group : List (TagKey K)) : TagKey K :=
  ⟨headDeleted (·.deleted) group, mergedValues p name key group⟩

/-- The tag block that `writeTagsetTo` writes. -/
def mergedTagSet : List (K × TagKey K) :=
  (mergeGroups (p.filterMap fun f => (f.measurement name).map (·.tagSet))).map fun k => (k.1, mergedKey p name k.1 k.2)

/-- A measurement as `writeMeasurementBlockTo` writes it. -/
def mergedMeasurement (group : List (Measurement K)) : Measurement K :=
  ⟨headDeleted (·.deleted) group, mergedTagSet p name, measurementSeries p name⟩

/-- The index file that `IndexFiles.CompactTo` writes if nothing fails. -/
def compact : File K where
  mms := (mergeGroups (p.map (·.mms))).map fun m => (m.1, mergedMeasurement p m.1 m.2)
  seriesIDSet := (buildSeriesIDSets p).1
  tombstoneSeriesIDSet := (buildSeriesIDSets p).2

end IndexFiles

/-! ## File sets -/

namespace FileSet

variable (files : List (File K))

variable (name key value : K)

/-- One round of `FileSet.TagValueSeriesIDIterator`: the tombstones of the file before are removed, then the file's set is
added, then its tombstones are kept for the next file. -/
def tagValueRound (f : File K) (acc : Finset ℕ × Finset ℕ) : Finset ℕ × Finset ℕ :=
  ((acc.1 \ acc.2) ∪ f.tagValueSeriesIDSet name key value, f.tombstoneSeriesIDSet)

/-- The ids of `FileSet.TagValueSeriesIDIterator`, from the oldest file, which is last, to the newest. -/
def tagValueSeriesIDs : Finset ℕ := (files.foldr (tagValueRound name key value) (∅, ∅)).1

def buildSeriesSet : Finset ℕ := files.foldr (fun f s => (s \ f.tombstoneSeriesIDSet) ∪ f.seriesIDSet) ∅

def hasTagKey (name key : K) : Bool :=
  match files.findSome? fun f => f.tagKey name key with
  | none => false
  | some ts => !ts.deleted

def hasTagValue : Bool :=
  match files.findSome? fun f => f.tagValue name key value with
  | none => false
  | some tv => !tv.deleted

/-- The elements of `FileSet.TagKeyIterator`. -/
def tagKeyElems (name : K) : List (K × List (TagKey K)) :=
  mergeGroups (files.filterMap fun f => (f.measurement name).map fun mm => sortMap mm.tagSet)

/-- The keys that `Partition.TagKeyIterator` hands out. -/
def tagKeys (name : K) : List K :=
  (tagKeyElems files name).filterMap fun k =>
    if IndexFiles.headDeleted (·.deleted) k.2 then none else some k.1

/-- The elements of `FileSet.TagValueIterator`. -/
def tagValueElems (name key : K) : List (K × List TagValue) :=
  mergeGroups (files.filterMap fun f => (f.tagKey name key).map fun ts => sortMap ts.values)

/-- The values that `Partition.TagValueIterator` hands out. -/
def tagValues (name key : K) : List K :=
  (tagValueElems files name key).filterMap fun v =>
    if IndexFiles.headDeleted (·.deleted) v.2 then none else some v.1

/-- The ids of `FileSet.MeasurementSeriesIDIterator`. -/
def measurementSeries (name : K) : Finset ℕ := files.foldl (fun ss f => ss ∪ f.measurementSeries name) ∅

end FileSet

end Influxdb.Tsi1
