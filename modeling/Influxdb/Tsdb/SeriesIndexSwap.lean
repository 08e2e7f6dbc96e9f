import Influxdb.Lib.Bytes
import Influxdb.Lib.Lists
import Mathlib.Data.Finset.Basic

/-!
# SeriesIndexSwap — a compaction of the series index that fails (`series_partition.go`, `series_index.go`)

`Compact` builds a new index file, closes the index of the partition, renames the file, opens the index again and replays
the log.  `Close` sets the maps and tables of the index to nil, and a step that fails behind it leaves them so.

A nil map is read as an empty one; the tables of an index file are functions, with 0 for what is not there.  The offset of
an entry is its number in the log, from 1 on.
-/

namespace Influxdb.Tsdb

open List

/-- The header of an index file and its tables: the id of a key, and the offset of an id. -/
structure IndexFile where
  maxSeriesID : ℕ
  maxOffset : ℕ
  keyIDMap : List Byte → ℕ
  idOffsetMap : ℕ → ℕ

structure LogEntry where
  tombstone : Bool
  id : ℕ
  key : List Byte

/-- `SeriesIndex`; `none` is nil.  `data` stays when the index is closed. -/
structure SeriesIndex where
  maxSeriesID : ℕ
  maxOffset : ℕ
  data : Option IndexFile
  keyIDData : Option (List Byte → ℕ)
  idOffsetData : Option (ℕ → ℕ)
  keyIDMap : Option (List Byte → ℕ)
  idOffsetMap : ℕ → ℕ
  tombstones : Finset ℕ

/-- The errors of what `Compact` calls: writing the new file, `mmap.Unmap`, `os.Rename`, and for the renamed file
`os.Stat`, `mmap.Map` and reading the header. -/
structure Faults where
  build : Option String
  unmap : Option String
  rename : Option String
  stat : Option String
  map : Option String
  header : Option String

namespace SeriesIndex

variable (idx : SeriesIndex)

/-! ## Looking up -/

/-- `FindOffsetByID`; here and below `none` is a panic. -/
def findOffsetByID (id : ℕ) : Option ℕ :=
  if idx.idOffsetMap id ≠ 0 then some (idx.idOffsetMap id)
  else if idx.data.isNone then some 0
  else idx.idOffsetData.map (· id)

def isDeleted (id : ℕ) : Option Bool :=
  if id ∈ idx.tombstones then some true else (idx.findOffsetByID id).map (· == 0)

/-- There is no id, or its series has been deleted. -/
def missing (id : ℕ) : Option Bool := if id = 0 then some true else idx.isDeleted id

def findIDBySeriesKey (key : List Byte) : Option ℕ := do
  let keyIDMap ← idx.keyIDMap
  if !(← idx.missing (keyIDMap key)) then return keyIDMap key
  else if idx.data.isNone then return 0
  else
    let keyIDData ← idx.keyIDData
    return if ← idx.missing (keyIDData key) then 0 else keyIDData key

/-! ## Changing -/

/-- `execEntry`: `keyIDMap.Put` panics without a map. -/
def execEntry (e : LogEntry) (offset : ℕ) : Option SeriesIndex :=
  if e.tombstone then some { idx with tombstones := insert e.id idx.tombstones }
  else idx.keyIDMap.map fun keyIDMap => { idx with
    keyIDMap := some (Function.update keyIDMap e.key e.id)
    idOffsetMap := Function.update idx.idOffsetMap e.id offset
    maxSeriesID := max e.id idx.maxSeriesID
    maxOffset := max offset idx.maxOffset }

/-- `Close`, and its error. -/
def close (f : Faults) : Option String × SeriesIndex :=
  (if idx.data.isSome then f.unmap else none, { idx with
    keyIDData := none
    idOffsetData := none
    keyIDMap := none
    idOffsetMap := fun _ => 0
    tombstones := ∅ })

/-- `Open` of the file at the path of the index. -/
def openFile (f : Faults) (file : IndexFile) : Option String × SeriesIndex :=
  match f.stat, f.map, f.header with
  | some err, _, _ => (some err, (idx.close f).2)
  | none, some err, _ => (some err, ({ idx with data := none }.close f).2)
  | none, none, some err => (some err, ({ idx with data := some file }.close f).2)
  | none, none, none => (none,
    ⟨file.maxSeriesID, file.maxOffset, some file, some file.keyIDMap, some file.idOffsetMap, some fun _ => 0, fun _ => 0, ∅⟩)

/-- `Recover`: the entries that the file does not have. -/
def recover (log : List LogEntry) : Option SeriesIndex :=
  (log.zipIdx 1).foldlM (fun idx x => if x.2 ≤ idx.maxOffset then some idx else idx.execEntry x.1 x.2)
    { idx with keyIDMap := some fun _ => 0, idOffsetMap := fun _ => 0, tombstones := ∅ }

/-- The loop of `compactIndexTo` over the log. -/
def compactEntry (file : IndexFile) (x : LogEntry × ℕ) : Option IndexFile :=
  if x.2 > idx.maxOffset ∨ x.1.tombstone then some file
  else (idx.isDeleted x.1.id).map fun deleted =>
    if deleted then { file with maxSeriesID := x.1.id, maxOffset := x.2 }
    else ⟨x.1.id, x.2, Function.update file.keyIDMap x.1.key x.1.id, Function.update file.idOffsetMap x.1.id x.2⟩

def compactIndexTo (log : List LogEntry) : Option IndexFile :=
  (log.zipIdx 1).foldlM idx.compactEntry ⟨0, 0, fun _ => 0, fun _ => 0⟩

/-- The maps are there, and for a file its tables. -/
structure Opened : Prop where
  keyIDMap : idx.keyIDMap.isSome
  tables : idx.data.isSome → idx.keyIDData.isSome ∧ idx.idOffsetData.isSome

end SeriesIndex

structure SeriesPartition where
  index : SeriesIndex
  log : List LogEntry
  seq : ℕ

/-- The loop of `CreateSeriesListIfNotExists`: `new` are the entries written, with their offsets. -/
structure Creation where
  log : List LogEntry
  seq : ℕ
  new : List (LogEntry × ℕ)
  ids : List ℕ

/-- A round of the loop.  The two lookups of a key that the index has are one, as nothing changes in between. -/
def Creation.round (idx : SeriesIndex) (s : Creation) (key : List Byte) : Option Creation := do
  let id ← idx.findIDBySeriesKey key
  if id ≠ 0 then return { s with ids := s.ids ++ [id] }
  else match s.new.find? (·.1.key = key) with
    | some x => return { s with ids := s.ids ++ [x.1.id] }
    | none =>
      let e : LogEntry := ⟨false, s.seq, key⟩
      return ⟨s.log ++ [e], s.seq + 8, s.new ++ [(e, s.log.length + 1)], s.ids ++ [s.seq]⟩

inductive SeriesCall where
  | findIDBySeriesKey (key : List Byte)
  | seriesKey (id : ℕ)
  | isDeleted (id : ℕ)
  | createSeriesListIfNotExists (keys : List (List Byte))

inductive SeriesAnswer where
  | id (id : ℕ)
  | key (key : Option (List Byte))
  | deleted (deleted : Bool)
  | ids (ids : List ℕ)

namespace SeriesPartition

variable (p : SeriesPartition)

def seriesKeyByOffset (offset : ℕ) : Option (List Byte) :=
  if offset = 0 then none else p.log[offset - 1]?.map (·.key)

def call : SeriesCall → Option (SeriesAnswer × SeriesPartition)
  | .findIDBySeriesKey key => (p.index.findIDBySeriesKey key).map (.id ·, p)
  | .seriesKey id =>
    if id = 0 then some (.key none, p)
    else (p.index.findOffsetByID id).map (.key <| p.seriesKeyByOffset ·, p)
  | .isDeleted id => (p.index.isDeleted id).map (.deleted ·, p)
  | .createSeriesListIfNotExists keys => do
    let s ← keys.foldlM (Creation.round p.index) (⟨p.log, p.seq, [], []⟩ : Creation)
    let idx ← s.new.foldlM (fun idx x => idx.execEntry x.1 x.2) p.index
    return (.ids s.ids, ⟨idx, s.log, s.seq⟩)

/-- The answers to calls. -/
def answers : SeriesPartition → List SeriesCall → Option (List SeriesAnswer)
  | _, [] => some []
  | p, c :: calls => (p.call c).bind fun r => (answers r.2 calls).map (r.1 :: ·)

/-- `Compact`: the error, and the partition. -/
def compact (f : Faults) : Option (Option String × SeriesPartition) := do
  let file ← p.index.compactIndexTo p.log
  match f.build with
  | some err => return (some err, p)
  | none =>
    match p.index.close f with
    | (some err, idx) => return (some err, { p with index := idx })
    | (none, idx) =>
      match f.rename with
      | some err => return (some err, { p with index := idx })
      | none =>
        match idx.openFile f file with
        | (some err, idx) => return (some err, { p with index := idx })
        | (none, idx) =>
          let idx ← idx.recover p.log
          return (none, { p with index := idx })

end SeriesPartition

/-! ## Calls on an open index -/

namespace SeriesIndex

variable {idx : SeriesIndex} (h : idx.Opened)
include h

theorem Opened.findOffsetByID (id : ℕ) : ∃ offset, idx.findOffsetByID id = some offset := by
  unfold SeriesIndex.findOffsetByID
  split_ifs with hmap hdata
  · exact ⟨_, rfl⟩
  · exact ⟨_, rfl⟩
  · obtain ⟨t, ht⟩ := Option.isSome_iff_exists.mp (h.tables (by simpa [Option.isSome_iff_ne_none] using hdata)).2
    exact ⟨t id, by rw [ht, Option.map_some]⟩

theorem Opened.isDeleted (id : ℕ) : ∃ deleted, idx.isDeleted id = some deleted := by
  unfold SeriesIndex.isDeleted
  obtain ⟨offset, hoffset⟩ := h.findOffsetByID id
  split_ifs
  · exact ⟨_, rfl⟩
  · exact ⟨_, by rw [hoffset, Option.map_some]⟩

theorem Opened.missing (id : ℕ) : ∃ missing, idx.missing id = some missing := by
  unfold SeriesIndex.missing
  split_ifs
  · exact ⟨_, rfl⟩
  · exact h.isDeleted id

theorem Opened.findIDBySeriesKey (key : List Byte) : ∃ id, idx.findIDBySeriesKey key = some id := by
  obtain ⟨m, hm⟩ := Option.isSome_iff_exists.mp h.keyIDMap
  obtain ⟨missing, hmissing⟩ := h.missing (m key)
  simp only [SeriesIndex.findIDBySeriesKey, hm, hmissing, Option.bind_eq_bind, Option.bind_some]
  split_ifs with hid hdata
  · exact ⟨_, rfl⟩
  · exact ⟨_, rfl⟩
  · obtain ⟨t, ht⟩ := Option.isSome_iff_exists.mp (h.tables (by simpa [Option.isSome_iff_ne_none] using hdata)).1
    obtain ⟨missing', hmissing'⟩ := h.missing (t key)
    exact ⟨_, by rw [ht, Option.bind_some, hmissing', Option.bind_some]; rfl⟩

theorem Opened.execEntry (e : LogEntry) (offset : ℕ) : ∃ idx', idx.execEntry e offset = some idx' ∧ idx'.Opened := by
  unfold SeriesIndex.execEntry
  split_ifs
  · exact ⟨_, rfl, h.keyIDMap, h.tables⟩
  · obtain ⟨m, hm⟩ := Option.isSome_iff_exists.mp h.keyIDMap
    rw [hm]
    exact ⟨_, rfl, rfl, h.tables⟩

end SeriesIndex

namespace SeriesPartition

variable {p p' : SeriesPartition}

theorem exists_call (h : p.index.Opened) (c : SeriesCall) : ∃ a p', p.call c = some (a, p') ∧ p'.index.Opened := by
  cases c with
  | findIDBySeriesKey key =>
    obtain ⟨id, hid⟩ := h.findIDBySeriesKey key
    exact ⟨_, p, by rw [call, hid, Option.map_some], h⟩
  | seriesKey id =>
    obtain ⟨offset, hoffset⟩ := h.findOffsetByID id
    rw [call]
    split_ifs
    · exact ⟨_, p, rfl, h⟩
    · exact ⟨_, p, by rw [hoffset, Option.map_some], h⟩
  | isDeleted id =>
    obtain ⟨deleted, hdeleted⟩ := h.isDeleted id
    exact ⟨_, p, by rw [call, hdeleted, Option.map_some], h⟩
  | createSeriesListIfNotExists keys =>
    have hround : ∀ (s : Creation) key, True → ∃ s', Creation.round p.index s key = some s' ∧ True := by
      intro s key _
      obtain ⟨id, hid⟩ := h.findIDBySeriesKey key
      simp only [Creation.round, hid, Option.bind_eq_bind, Option.bind_some]
      split_ifs
      · exact ⟨_, rfl, trivial⟩
      · split <;> exact ⟨_, rfl, trivial⟩
    obtain ⟨s, hs, -⟩ := exists_foldlM hround keys (b := ⟨p.log, p.seq, [], []⟩) trivial
    obtain ⟨idx, hidx, hopened⟩ := exists_foldlM (fun idx (x : LogEntry × ℕ) hidx =>
      SeriesIndex.Opened.execEntry hidx x.1 x.2) s.new h
    exact ⟨_, _, by rw [call, hs, Option.bind_eq_bind, Option.bind_some, hidx]; rfl, hopened⟩

theorem isSome_answers (h : p.index.Opened) (calls : List SeriesCall) : (p.answers calls).isSome := by
  induction calls generalizing p with
  | nil => rfl
  | cons c calls ih =>
    obtain ⟨a, p', hc, h'⟩ := exists_call h c
    rw [answers, hc, Option.bind_some, Option.isSome_map]
    exact ih h'

/-! ## A compaction that fails -/

/-- A later step than the first leaves the index closed. -/
theorem keyIDMap_of_compact {f : Faults} {err : String} (hbuild : f.build = none)
    (h : p.compact f = some (some err, p')) : p'.index.keyIDMap = none := by
  simp only [compact, hbuild, Option.bind_eq_bind, Option.bind_eq_some_iff] at h
  obtain ⟨file, -, h⟩ := h
  split at h
  next idx hclose =>
    cases h
    exact congrArg (fun r => r.2.keyIDMap) hclose.symm
  next idx hclose =>
    have hclosed : idx.keyIDMap = none := congrArg (fun r => r.2.keyIDMap) hclose.symm
    split at h
    · cases h
      exact hclosed
    split at h
    next idx' hopen =>
      cases h
      unfold SeriesIndex.openFile at hopen
      split at hopen
      case h_4 => cases hopen
      all_goals exact congrArg (fun r => r.2.keyIDMap) hopen.symm
    next idx' hopen =>
      obtain ⟨idx, -, h⟩ := Option.bind_eq_some_iff.mp h
      cases h

/-- **A compaction that fails** leaves a partition that answers as before if and only if its first step fails, the
building of the new file. -/
theorem answers_compact_iff (f : Faults) {err : String} (hopened : p.index.Opened)
    (h : p.compact f = some (some err, p')) :
    (∀ calls, p'.answers calls = p.answers calls ∧ (p'.answers calls).isSome) ↔ f.build ≠ none := by
  constructor
  · intro hcalls hbuild
    have hfind := (hcalls [.findIDBySeriesKey []]).2
    rw [answers, call, SeriesIndex.findIDBySeriesKey, keyIDMap_of_compact hbuild h] at hfind
    cases hfind
  · intro hbuild calls
    obtain ⟨e, he⟩ := Option.ne_none_iff_exists'.mp hbuild
    simp only [compact, he, Option.bind_eq_bind, Option.bind_eq_some_iff] at h
    obtain ⟨-, -, h⟩ := h
    cases h
    exact ⟨rfl, isSome_answers hopened calls⟩

/-- One series is in the index file, and another one has been added since. -/
def twoSeries : SeriesPartition :=
  ⟨⟨9, 2, some ⟨1, 1, Function.update (fun _ => 0) [97] 1, Function.update (fun _ => 0) 1 1⟩,
    some (Function.update (fun _ => 0) [97] 1), some (Function.update (fun _ => 0) 1 1),
    some (Function.update (fun _ => 0) [98] 9), Function.update (fun _ => 0) 9 2, ∅⟩,
    [⟨false, 1, [97]⟩, ⟨false, 9, [98]⟩], 17⟩

theorem twoSeries_no_space : ∃ p', twoSeries.compact ⟨some "no space left on device", none, none, none, none, none⟩ =
      some (some "no space left on device", p') ∧
    ∀ calls, p'.answers calls = twoSeries.answers calls ∧ (p'.answers calls).isSome :=
  ⟨_, rfl, (answers_compact_iff ⟨some "no space left on device", none, none, none, none, none⟩
    ⟨rfl, fun _ => ⟨rfl, rfl⟩⟩ rfl).mpr (by simp)⟩

/-- After a rename that fails, `FindIDBySeriesKey` panics. -/
theorem rename_panics : twoSeries.answers [.findIDBySeriesKey [98]] = some [.id 9] ∧
    ∃ p', twoSeries.compact ⟨none, none, some "permission denied", none, none, none⟩ = some (some "permission denied", p') ∧
      p'.answers [.findIDBySeriesKey [98]] = none :=
  ⟨rfl, _, rfl, rfl⟩

end SeriesPartition

end Influxdb.Tsdb
