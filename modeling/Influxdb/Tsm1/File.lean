import Influxdb.Lib.Cover
import Influxdb.Tsm1.Types

/-!
# File — the contents of well-formed TSM files

What the writer guarantees of a file (`TSMReader.Sound`): ascending keys, one block type per key, and for
each key non-empty ascending blocks that follow one another in time, with exact index entries.  The
contents of a list of files are then the last-write-wins map of their values without a tombstone
(`lastWins`); compaction and the cursors are measured against it.
-/

namespace Influxdb.Tsm1

open List Cursors Timed

variable {Buf V : Type*}

variable (C : BlockCodec Buf V) {v : ValueArray V}

/-- The values of a block buffer, decoded at the type `ty`. -/
def decoded (ty : BlockType) (buf : Buf) : ValueArray V :=
  match C.decode ty buf with
  | .ok v => v
  | .error _ => []

/-- No tombstone of the list covers the time. -/
def Live (tombstones : List TimeRange) (t : Int) : Prop := ∀ r ∈ tombstones, ¬ r.Has t

instance (tombstones : List TimeRange) (t : Int) : Decidable (Live tombstones t) :=
  inferInstanceAs (Decidable (∀ r ∈ tombstones, ¬ r.Has t))

theorem excludeTombstones_eq (tombstones : List TimeRange) (hv : Asc v) :
    excludeTombstones tombstones v = v.filter (fun p => Live tombstones p.1) := by
  induction tombstones generalizing v with
  | nil => simp [excludeTombstones, Live]
  | cons r ts ih =>
    have hstep : excludeTombstones (r :: ts) v =
        excludeTombstones ts (v.exclude r.min r.max) := rfl
    rw [hstep, ValueArray.exclude_eq hv, ih (hv.filter _), filter_filter]
    refine filter_congr fun p _ => ?_
    rw [← Bool.decide_and, decide_eq_decide]
    simp only [Live, mem_cons, forall_eq_or_imp, TimeRange.Has]
    exact and_comm

/-- An index entry whose block is not empty, ascending, of `int64` times, and described exactly. -/
structure IndexEntry.Sound (C : BlockCodec Buf V) (ty : BlockType) (e : IndexEntry Buf) : Prop where
  decode_eq : C.decode ty e.b = .ok (decoded C ty e.b)
  ne_nil : decoded C ty e.b ≠ []
  asc : Asc (decoded C ty e.b)
  minTime_eq : e.minTime = (decoded C ty e.b).minTime
  maxTime_eq : e.maxTime = (decoded C ty e.b).maxTime
  minInt64_le : minInt64 ≤ e.minTime
  le_maxInt64 : e.maxTime ≤ maxInt64

/-- A file as the writer makes it.  The type of a key is the type of its field, the same in all files. -/
structure TSMReader.Sound (C : BlockCodec Buf V) (typeOf : Key → BlockType) (r : TSMReader Buf) : Prop where
  keys_asc : r.index.Pairwise (fun a b => a.key < b.key)
  key_ne_nil : ∀ ki ∈ r.index, ki.key ≠ []
  typ_eq : ∀ ki ∈ r.index, ki.typ = typeOf ki.key
  typ_known : ∀ ki ∈ r.index, ki.typ ∈ BlockType.known
  entries_ne_nil : ∀ ki ∈ r.index, ki.entries ≠ []
  entries_sound : ∀ ki ∈ r.index, ∀ e ∈ ki.entries, e.Sound C ki.typ
  entries_ordered : ∀ ki ∈ r.index, ki.entries.Pairwise (fun a b => a.maxTime < b.minTime)

/-- The values of an entry that no tombstone of the key covers. -/
def liveOf (ty : BlockType) (tombstones : List TimeRange) (buf : Buf) : ValueArray V :=
  (decoded C ty buf).filter (fun p => Live tombstones p.1)

/-- The values of the key in the file that are not tombstoned. -/
def TSMReader.livePoints (r : TSMReader Buf) (key : Key) : ValueArray V :=
  (r.index.filter (fun ki => ki.key = key)).flatMap fun ki =>
    ki.entries.flatMap fun e => liveOf C ki.typ (r.tombstoneRange key) e.b

/-- The contents of a list of files: for each key and time the value of the last file that holds one. -/
def lastWins (readers : List (TSMReader Buf)) (key : Key) : Int → Option V :=
  lastOf (readers.map (fun r => r.livePoints C key))

section Entries

variable {C : BlockCodec Buf V} {ty : BlockType} {ts : List TimeRange} {e : IndexEntry Buf} {t : Int}

theorem IndexEntry.Sound.asc_live (h : e.Sound C ty) (ts : List TimeRange) : Asc (liveOf C ty ts e.b) := h.asc.filter _

theorem IndexEntry.Sound.mem_range (h : e.Sound C ty) {p : Int × V} (hp : p ∈ decoded C ty e.b) :
    e.minTime ≤ p.1 ∧ p.1 ≤ e.maxTime := by
  rw [h.minTime_eq, h.maxTime_eq]
  exact ⟨ValueArray.minTime_le h.asc hp, ValueArray.le_maxTime h.asc hp⟩

theorem IndexEntry.Sound.mem_range_of_live (h : e.Sound C ty) {p : Int × V}
    (hp : p ∈ liveOf C ty ts e.b) : e.minTime ≤ p.1 ∧ p.1 ≤ e.maxTime :=
  h.mem_range (mem_filter.mp hp).1

theorem IndexEntry.Sound.le (h : e.Sound C ty) : e.minTime ≤ e.maxTime := by
  rw [h.minTime_eq, h.maxTime_eq]
  exact ValueArray.minTime_le_maxTime h.asc h.ne_nil

/-- The live values of blocks that follow one another are ascending, and the block that has a value at
a time is the only one. -/
theorem entries_live_spec : ∀ {es : List (IndexEntry Buf)}, (∀ e ∈ es, e.Sound C ty) →
    es.Pairwise (fun a b => a.maxTime < b.minTime) → Asc (es.flatMap fun e => liveOf C ty ts e.b) ∧
      ∀ t, valueAt (es.flatMap fun e => liveOf C ty ts e.b) t = lastOf (es.map fun e => liveOf C ty ts e.b) t
  | [], _, _ => ⟨asc_nil, fun t => rfl⟩
  | e :: es, hs, ho => by
    obtain ⟨h1, h2⟩ := pairwise_cons.mp ho
    obtain ⟨h3, h4⟩ := entries_live_spec (forall_mem_cons.mp hs).2 h2
    have he := hs e mem_cons_self
    have hlt : ∀ p ∈ liveOf C ty ts e.b, ∀ q ∈ es.flatMap (fun e => liveOf C ty ts e.b), p.1 < q.1 := by
      intro p hp q hq
      obtain ⟨a, ha, hqa⟩ := mem_flatMap.mp hq
      have h5 := he.mem_range_of_live hp
      have h6 := (hs a (mem_cons_of_mem _ ha)).mem_range_of_live hqa
      have h7 := h1 a ha
      omega
    refine ⟨asc_append.mpr ⟨he.asc_live ts, h3, hlt⟩, fun t => ?_⟩
    rw [flatMap_cons, valueAt_append, map_cons, lastOf_cons, ← h4 t]
    cases hv : valueAt (liveOf C ty ts e.b) t with
    | none => simp
    | some v =>
      have hnone : valueAt (es.flatMap fun e => liveOf C ty ts e.b) t = none :=
        valueAt_eq_none.mpr fun q hq hqt => (hlt _ (mem_of_valueAt hv) q hq).ne' hqt
      simp [hnone]

end Entries

theorem filter_key_of_asc {index : List (KeyIndex Buf)} (h : index.Pairwise (fun a b => a.key < b.key)) (key : Key) :
    index.filter (fun ki => ki.key = key) = [] ∨
      ∃ ki ∈ index, ki.key = key ∧ index.filter (fun ki => ki.key = key) = [ki] := by
  have hp := h.filter (fun ki => ki.key = key)
  have hmem : ∀ ki ∈ index.filter (fun ki => ki.key = key), ki ∈ index ∧ ki.key = key :=
    fun ki hki => by simpa using mem_filter.mp hki
  rcases hf : index.filter (fun ki => ki.key = key) with _ | ⟨ki, _ | ⟨kj, l⟩⟩
  · exact .inl hf
  · obtain ⟨h1, h2⟩ := hmem ki (by rw [hf]; exact mem_singleton_self ki)
    exact .inr ⟨ki, h1, h2, hf⟩
  · rw [hf] at hp hmem
    have hlt := (pairwise_cons.mp hp).1 kj mem_cons_self
    rw [(hmem ki (by simp)).2, (hmem kj (by simp)).2] at hlt
    exact absurd hlt (lt_irrefl _)

/-- What a cursor over one key needs of a file: the index is in key order, and the blocks of the key have
the type `ty`, are sound and follow one another. -/
structure TSMReader.SoundAt (C : BlockCodec Buf V) (ty : BlockType) (key : Key) (r : TSMReader Buf) : Prop where
  keys_asc : r.index.Pairwise (fun a b => a.key < b.key)
  typ_eq : ∀ ki ∈ r.index, ki.key = key → ki.typ = ty
  entries_sound : ∀ ki ∈ r.index, ki.key = key → ∀ e ∈ ki.entries, e.Sound C ty
  entries_ordered : ∀ ki ∈ r.index, ki.key = key →
    ki.entries.Pairwise (fun a b => a.maxTime < b.minTime)

end Influxdb.Tsm1
