import Influxdb.Lib.Histories
import Influxdb.Lib.Lists
import Influxdb.Tsi1.Lookup

/-!
# LiveSeries — tag value lookups and the live series

`FileSet.TagValueSeriesIDIterator` walks from the oldest file to the newest and takes the tombstones of a file away when it
comes to the next one, so the tombstones of the newest file are never taken away.  Whatever rolls and compactions have made
of the files, the lookup is exact precisely if no live series of the older files has its tombstone in the active log file
(`tag_value_lookup_exact_iff`).
-/

namespace Influxdb.Tsi1

open List Assoc Influxdb.Tsi1.Partition FileSet File
open Finset (notMem_empty mem_sdiff mem_union)

variable {K : Type} {n k v : K} {f : File K} {sf sf' : SeriesFile K} {s : Series K} {id i : ℕ}
variable {deleted : Bool} {t : Finset ℕ} {l : Layer K} {files : List (File K)} {x : ℕ × Series K} {ls : List (Layer K)}

/-! ## The series file -/

/-- The series of an id has a tag value. -/
def SeriesFile.Matches (sf : SeriesFile K) (id : ℕ) (n k v : K) : Prop := ∃ s, sf.seriesKey id = some s ∧ s.Has n k v

/-- Every key that was found is found. -/
def SeriesFile.Extends (sf sf' : SeriesFile K) : Prop := ∀ id s, sf.seriesKey id = some s → sf'.seriesKey id = some s

namespace SeriesFile

theorem Extends.refl (sf : SeriesFile K) : sf.Extends sf := fun _ _ h => h

theorem Extends.trans {sf'' : SeriesFile K} (h : sf.Extends sf') (h' : sf'.Extends sf'') : sf.Extends sf'' :=
  fun id s hs => h' id s (h id s hs)

/-- Ids are not handed out twice, and no id has two keys. -/
structure Sound (sf : SeriesFile K) : Prop where
  le : ∀ p ∈ sf.keys, p.1 ≤ sf.seq
  nodup : (sf.keys.map Prod.fst).Nodup

theorem sound_empty : (SeriesFile.empty : SeriesFile K).Sound :=
  ⟨forall_mem_nil _, nodup_nil⟩

theorem Sound.seq_succ_notMem (h : sf.Sound) : sf.seq + 1 ∉ sf.keys.map Prod.fst := by
  intro hmem
  obtain ⟨p, hp, heq⟩ := mem_map.mp hmem
  have := h.le p hp
  omega

variable [LinearOrder K]

theorem create_spec (h : sf.Sound) (s : Series K) :
    (sf.create s).2.Sound ∧ sf.Extends (sf.create s).2 ∧ (sf.create s).2.seriesKey (sf.create s).1 = some s := by
  rw [create]
  cases hf : sf.findID s with
  | some id =>
    refine ⟨h, .refl sf, ?_⟩
    obtain ⟨p, hp, rfl⟩ := Option.map_eq_some_iff.mp hf
    have hfound := find?_some hp
    have hs : p.2 = s := (of_decide_eq_true hfound).1
    exact (get_eq_some_iff h.nodup).mpr (hs ▸ mem_of_find?_eq_some hp)
  | none =>
    refine ⟨⟨?_, nodup_put h.nodup _ _⟩, ?_, get_put_self _ _ _⟩
    · intro p hp
      rcases mem_put hp with rfl | hp
      · exact le_rfl
      · exact (h.le p hp).trans (Nat.le_succ _)
    · intro id s' hs
      have hne : id ≠ sf.seq + 1 := by
        rintro rfl
        exact h.seq_succ_notMem (mem_map.mpr ⟨_, mem_of_get hs, rfl⟩)
      exact (get_put_of_ne hne _ _).trans hs

/-- **Creating series**: all get an id under which their key is found. -/
theorem createAll_spec (h : sf.Sound) (ss : List (Series K)) :
    (sf.createAll ss).2.Sound ∧ sf.Extends (sf.createAll ss).2 ∧
      ∀ x ∈ (sf.createAll ss).1.zip ss, (sf.createAll ss).2.seriesKey x.1 = some x.2 := by
  induction ss generalizing sf with
  | nil => exact ⟨h, .refl sf, forall_mem_nil _⟩
  | cons s ss ih =>
    obtain ⟨hs, hext, hkey⟩ := create_spec h s
    obtain ⟨hs', hext', hkeys⟩ := ih hs
    refine ⟨hs', hext.trans hext', ?_⟩
    exact forall_mem_cons.mpr ⟨hext' _ _ hkey, hkeys⟩

end SeriesFile

variable [LinearOrder K]

/-! ## Files that agree with the series file -/

def File.Shown (f : File K) : Prop := ∀ n k ts, f.tagKey n k = some ts → ts.deleted = false

/-- The sets of a file agree: a series that the file adds is in the sets of its tag values, and a series in such a set has
the tag value and is one that the file adds or removes. -/
structure File.Tells (sf : SeriesFile K) (f : File K) : Prop where
  disjoint : ∀ i ∈ f.seriesIDSet, i ∉ f.tombstoneSeriesIDSet
  known : ∀ i, i ∈ f.seriesIDSet ∨ i ∈ f.tombstoneSeriesIDSet → (sf.seriesKey i).isSome
  has : ∀ n k v i, i ∈ f.tagValueSeriesIDSet n k v →
    (i ∈ f.seriesIDSet ∨ i ∈ f.tombstoneSeriesIDSet) ∧ sf.Matches i n k v
  complete : ∀ i ∈ f.seriesIDSet, ∀ n k v, sf.Matches i n k v → i ∈ f.tagValueSeriesIDSet n k v
  shown : f.Shown

/-- The tag values of a log file have only series that the file adds. -/
def File.Exact (f : File K) : Prop := ∀ n k v i, i ∈ f.tagValueSeriesIDSet n k v → i ∈ f.seriesIDSet

namespace File

theorem Tells.extends (h : f.Tells sf) (he : sf.Extends sf') : f.Tells sf' := by
  refine ⟨h.disjoint, ?_, ?_, ?_, h.shown⟩
  · intro i hi
    obtain ⟨s, hs⟩ := Option.isSome_iff_exists.mp (h.known i hi)
    exact Option.isSome_iff_exists.mpr ⟨s, he i s hs⟩
  · intro n k v i hi
    obtain ⟨hset, s, hs, hhas⟩ := h.has n k v i hi
    exact ⟨hset, s, he i s hs, hhas⟩
  · intro i hi n k v hm
    obtain ⟨s, hs⟩ := Option.isSome_iff_exists.mp (h.known i (.inl hi))
    obtain ⟨s', hs', hhas⟩ := hm
    obtain rfl : s = s' := Option.some.inj ((he i s hs).symm.trans hs')
    exact h.complete i hi n k v ⟨s, hs, hhas⟩

theorem tells_empty : (empty : File K).Tells sf :=
  ⟨fun _ hi => absurd hi (notMem_empty _), fun _ hi => absurd hi (by simp [empty]),
    fun _ _ _ _ hi => absurd hi (notMem_empty _), fun _ hi => absurd hi (notMem_empty _),
    fun _ _ _ hts => absurd hts (by simp [tagKey, measurement, empty])⟩

theorem exact_empty : (empty : File K).Exact := fun _ _ _ _ hi => absurd hi (notMem_empty _)

theorem mem_touch_self : id ∈ touch deleted id t ↔ deleted = false := by
  cases deleted <;> simp [touch]

theorem mem_touch_of_ne (h : i ≠ id) : i ∈ touch deleted id t ↔ i ∈ t := by
  cases deleted <;> simp [touch, h]

theorem disjoint_touch {t' : Finset ℕ} (h : ∀ i ∈ t, i ∉ t') :
    ∀ i ∈ touch deleted id t, i ∉ touch (!deleted) id t' := by
  intro i hi hi'
  by_cases hid : i = id
  · subst hid
    have := mem_touch_self.mp hi'
    simp [mem_touch_self.mp hi] at this
  · exact h i ((mem_touch_of_ne hid).mp hi) ((mem_touch_of_ne hid).mp hi')

theorem shown_foldl {g : TagValue → TagValue} {tags : List (K × K)} {tagSet : List (K × TagKey K)}
    (h : ∀ k ts, get k tagSet = some ts → ts.deleted = false) :
    ∀ k ts, get k (tags.foldl (updateTagValue g) tagSet) = some ts → ts.deleted = false := by
  induction tags generalizing tagSet with
  | nil => exact h
  | cons tag tags ih =>
    refine ih ?_
    intro k ts hts
    rw [updateTagValue] at hts
    by_cases hk : k = tag.1
    · subst hk
      rw [get_put_self] at hts
      cases hts
      rw [createTagSetIfNotExists]
      cases hg : get tag.1 tagSet with
      | none => rfl
      | some ts => exact h tag.1 ts hg
    · rw [get_put_of_ne hk] at hts
      exact h k ts hts

theorem Shown.execSeries (h : f.Shown) (s : Series K) (deleted : Bool) (id : ℕ) : (f.execSeries s deleted id).Shown := by
  intro n k ts hts
  rw [tagKey, File.execSeries, measurement] at hts
  by_cases hn : n = s.name
  · subst hn
    rw [get_put_self, Option.bind_some] at hts
    refine shown_foldl ?_ k ts hts
    intro k ts hts
    rw [createMeasurementIfNotExists] at hts
    rcases hm : f.measurement s.name with _ | mm <;> rw [hm] at hts
    · cases hts
    · exact h s.name k ts (by rw [tagKey, hm]; exact hts)
  · rw [get_put_of_ne hn] at hts
    exact h n k ts hts

/-- **A series entry** keeps a log file in agreement. -/
theorem Tells.execSeries (h : f.Tells sf) (hx : f.Exact) (hs : sf.seriesKey id = some s) (deleted : Bool) :
    (f.execSeries s deleted id).Tells sf ∧ (f.execSeries s deleted id).Exact := by
  have hmatch : ∀ n k v, sf.Matches id n k v ↔ s.Has n k v :=
    fun n k v => ⟨fun ⟨s', hs', hh⟩ => Option.some.inj (hs.symm.trans hs') ▸ hh, fun hh => ⟨s, hs, hh⟩⟩
  have hself : ∀ n k v, id ∈ (f.execSeries s deleted id).tagValueSeriesIDSet n k v ↔ deleted = false ∧ s.Has n k v := by
    intro n k v
    rw [tagValueSeriesIDSet_execSeries]
    split_ifs with hh
    · exact mem_touch_self.trans (and_iff_left hh).symm
    · exact iff_of_false (fun hi => hh ((hmatch n k v).mp (h.has n k v id hi).2)) fun hi => hh hi.2
  have hother : ∀ n k v, ∀ i ≠ id, i ∈ (f.execSeries s deleted id).tagValueSeriesIDSet n k v ↔
      i ∈ f.tagValueSeriesIDSet n k v := by
    intro n k v i hid
    rw [tagValueSeriesIDSet_execSeries]
    split_ifs
    · exact mem_touch_of_ne hid
    · exact Iff.rfl
  have hexact : (f.execSeries s deleted id).Exact := by
    intro n k v i hi
    by_cases hid : i = id
    · subst hid
      exact mem_touch_self.mpr ((hself n k v).mp hi).1
    · exact (mem_touch_of_ne hid).mpr (hx n k v i ((hother n k v i hid).mp hi))
  refine ⟨⟨disjoint_touch h.disjoint, ?_, ?_, ?_, h.shown.execSeries s deleted id⟩, hexact⟩
  · intro i hi
    by_cases hid : i = id
    · exact Option.isSome_iff_exists.mpr ⟨s, hid ▸ hs⟩
    · exact h.known i (hi.imp (mem_touch_of_ne hid).mp (mem_touch_of_ne hid).mp)
  · intro n k v i hi
    refine ⟨.inl (hexact n k v i hi), ?_⟩
    by_cases hid : i = id
    · subst hid
      exact (hmatch n k v).mpr ((hself n k v).mp hi).2
    · exact (h.has n k v i ((hother n k v i hid).mp hi)).2
  · intro i hi n k v hm
    by_cases hid : i = id
    · subst hid
      exact (hself n k v).mpr ⟨mem_touch_self.mp hi, (hmatch n k v).mp hm⟩
    · exact (hother n k v i hid).mpr (h.complete i ((mem_touch_of_ne hid).mp hi) n k v hm)

/-! ## Compactions -/

theorem tagValueSeriesIDSet_compactLog (hd : f.Distinct) (hs : f.Shown) (n k v : K) :
    f.compactLog.tagValueSeriesIDSet n k v = f.tagValueSeriesIDSet n k v := by
  rw [tagValueSeriesIDSet, tagValue_compactLog hd, tagValueSeriesIDSet]
  cases hk : f.tagKey n k with
  | none => rfl
  | some ts =>
    rw [Option.map_some, Option.getD_some, hs n k ts hk]
    rfl

theorem Tells.compactLog (h : f.Tells sf) (hd : f.Distinct) : f.compactLog.Tells sf := by
  have hset := tagValueSeriesIDSet_compactLog hd h.shown
  refine ⟨h.disjoint, h.known, ?_, ?_, ?_⟩
  · intro n k v i hi
    exact h.has n k v i (hset n k v ▸ hi)
  · intro i hi n k v hm
    exact (hset n k v).symm ▸ h.complete i hi n k v hm
  · intro n k ts hts
    rw [tagKey_compactLog hd] at hts
    obtain ⟨ts', hts', rfl⟩ := Option.map_eq_some_iff.mp hts
    exact h.shown n k ts' hts'

end File

/-- Files add and remove series, one after the other, as one file with these sets does. -/
def Effect (ls : List (File K)) (tombstones ids : Finset ℕ) : Prop :=
  ∀ s, ls.foldr (fun f s => (s \ f.tombstoneSeriesIDSet) ∪ f.seriesIDSet) s = (s \ tombstones) ∪ ids

namespace IndexFiles

variable {p : List (File K)}

omit [LinearOrder K] in
theorem untilTombstone_eq {group : List (TagKey K)} (h : ∀ ts ∈ group, ts.deleted = false) :
    untilTombstone group = group := by
  induction group with
  | nil => rfl
  | cons ts group ih =>
    rw [untilTombstone, h ts mem_cons_self, ih (forall_mem_cons.mp h).2]
    rfl

theorem mem_keyGroup {ts : TagKey K} : ts ∈ keyGroup p n k ↔ ∃ f ∈ p, f.tagKey n k = some ts := mem_filterMap

theorem valueGroup_eq (h : ∀ f ∈ p, f.Shown) (n k v : K) :
    valueGroup p n k v = p.filterMap fun f => f.tagValue n k v := by
  rw [valueGroup, untilTombstone_eq, keyGroup, filterMap_filterMap]
  · rfl
  · intro ts hts
    obtain ⟨f, hf, hk⟩ := mem_keyGroup.mp hts
    exact h f hf n k ts hk

theorem mem_set_compact (hsorted : ∀ f ∈ p, f.Sorted) (hshown : ∀ f ∈ p, f.Shown) :
    i ∈ (compact p).tagValueSeriesIDSet n k v ↔ ∃ f ∈ p, i ∈ f.tagValueSeriesIDSet n k v := by
  rw [File.tagValueSeriesIDSet, tagValue_compact hsorted, valueGroup_eq hshown]
  split_ifs with hnil
  · refine iff_of_false (notMem_empty i) ?_
    rintro ⟨f, hf, hi⟩
    rw [File.tagValueSeriesIDSet, filterMap_eq_nil_iff.mp hnil f hf] at hi
    exact notMem_empty i hi
  · show i ∈ IndexFiles.tagValueSeriesIDSet p n k v ↔ _
    rw [IndexFiles.tagValueSeriesIDSet, foldl_union]
    simp

omit [LinearOrder K] in
theorem buildSeriesIDSets_cons (h : ∀ i ∈ f.seriesIDSet, i ∉ f.tombstoneSeriesIDSet) (p : List (File K)) :
    buildSeriesIDSets (f :: p) = (((buildSeriesIDSets p).1 \ f.tombstoneSeriesIDSet) ∪ f.seriesIDSet,
        ((buildSeriesIDSets p).2 ∪ f.tombstoneSeriesIDSet) \ f.seriesIDSet) := by
  cases p with
  | nil =>
    refine Prod.ext ?_ ?_
    · exact (by simp [buildSeriesIDSets])
    · ext i
      simp only [buildSeriesIDSets, Finset.empty_union, mem_sdiff]
      exact ⟨fun hi => ⟨hi, fun hi' => h i hi' hi⟩, fun hi => hi.1⟩
  | cons g p => rfl

omit [LinearOrder K] in
/-- The sets of a run: they are disjoint, hold all ids of the files, and an added id is added by a file. -/
theorem buildSeriesIDSets_spec (h : ∀ f ∈ p, ∀ i ∈ f.seriesIDSet, i ∉ f.tombstoneSeriesIDSet) :
    (∀ i ∈ (buildSeriesIDSets p).1, i ∉ (buildSeriesIDSets p).2) ∧
    (∀ i, i ∈ (buildSeriesIDSets p).1 ∨ i ∈ (buildSeriesIDSets p).2 ↔
      ∃ f ∈ p, i ∈ f.seriesIDSet ∨ i ∈ f.tombstoneSeriesIDSet) ∧
    (∀ i ∈ (buildSeriesIDSets p).1, ∃ f ∈ p, i ∈ f.seriesIDSet) ∧
    Effect p (buildSeriesIDSets p).2 (buildSeriesIDSets p).1 := by
  induction p with
  | nil => simp [buildSeriesIDSets, Effect]
  | cons f p ih =>
    have hf := h f mem_cons_self
    obtain ⟨hdisj, hall, hfrom, hfold⟩ := ih (forall_mem_cons.mp h).2
    rw [buildSeriesIDSets_cons hf]
    refine ⟨?_, ?_, ?_, ?_⟩
    · intro i hi
      simp only [mem_union, mem_sdiff] at hi ⊢
      have := hdisj i
      have := hf i
      tauto
    · intro i
      simp only [mem_cons, exists_eq_or_imp, ← hall i, mem_union, mem_sdiff]
      have := hf i
      tauto
    · intro i hi
      simp only [mem_union, mem_sdiff] at hi
      rw [exists_mem_cons_iff]
      exact hi.symm.imp_right fun hi => hfrom i hi.1
    · intro s
      rw [foldr_cons, hfold]
      ext i
      simp only [mem_union, mem_sdiff]
      tauto

theorem tells_compact (hsorted : ∀ f ∈ p, f.Sorted) (h : ∀ f ∈ p, f.Tells sf) : (compact p).Tells sf := by
  have hshown : ∀ f ∈ p, f.Shown := fun f hf => (h f hf).shown
  obtain ⟨hdisj, hall, hfrom, -⟩ := buildSeriesIDSets_spec fun f hf => (h f hf).disjoint
  refine ⟨hdisj, ?_, ?_, ?_, ?_⟩
  · intro i hi
    obtain ⟨f, hf, hi⟩ := (hall i).mp hi
    exact (h f hf).known i hi
  · intro n k v i hi
    obtain ⟨f, hf, hi⟩ := (mem_set_compact hsorted hshown).mp hi
    obtain ⟨hin, hm⟩ := (h f hf).has n k v i hi
    exact ⟨(hall i).mpr ⟨f, hf, hin⟩, hm⟩
  · intro i hi n k v hm
    obtain ⟨f, hf, hin⟩ := hfrom i hi
    exact (mem_set_compact hsorted hshown).mpr ⟨f, hf, (h f hf).complete i hin n k v hm⟩
  · intro n k ts hts
    rw [tagKey_compact hsorted] at hts
    split_ifs at hts with hnil
    cases hts
    obtain ⟨t, group, hgroup⟩ := exists_cons_of_ne_nil hnil
    obtain ⟨f, hf, hk⟩ := mem_keyGroup.mp (hgroup ▸ mem_cons_self : t ∈ keyGroup p n k)
    rw [hgroup]
    exact hshown f hf n k t hk

end IndexFiles

/-! ## The partition -/

namespace Partition

/-- A layer in agreement with the series file: log files have distinct keys, index files sorted ones. -/
def LayerTells (sf : SeriesFile K) : Layer K → Prop
  | .log f => f.content.Tells sf ∧ f.content.Distinct
  | .index f => f.Tells sf ∧ f.Sorted

theorem LayerTells.tells (h : LayerTells sf l) : l.content.Tells sf := by
  cases l <;> exact h.1

theorem LayerTells.extends (h : LayerTells sf l) (he : sf.Extends sf') : LayerTells sf' l := by
  cases l <;> exact ⟨h.1.extends he, h.2⟩

/-- The files of a partition agree with the series file. -/
structure Told (sf : SeriesFile K) (p : Partition K) : Prop where
  active : p.active.content.Tells sf
  exact : p.active.content.Exact
  distinct : p.active.content.Distinct
  older : ∀ l ∈ p.older, LayerTells sf l

variable {p q : Partition K}

theorem Told.extends (h : p.Told sf) (he : sf.Extends sf') : p.Told sf' :=
  ⟨h.active.extends he, h.exact, h.distinct, fun l hl => (h.older l hl).extends he⟩

theorem Told.tells (h : p.Told sf) : ∀ f ∈ p.files, f.Tells sf :=
  forall_mem_cons.mpr ⟨h.active, forall_mem_map.mpr fun l hl => (h.older l hl).tells⟩

/-- The live series of the files behind the active log file. -/
def olderLive (p : Partition K) : Finset ℕ := FileSet.buildSeriesSet (p.older.map Layer.content)

omit [LinearOrder K] in
theorem buildSeriesSet_files (p : Partition K) : buildSeriesSet p.files =
      (p.olderLive \ p.active.content.tombstoneSeriesIDSet) ∪ p.active.content.seriesIDSet := rfl

omit [LinearOrder K] in
theorem exists_of_mem_buildSeriesSet (h : i ∈ buildSeriesSet files) : ∃ f ∈ files, i ∈ f.seriesIDSet := by
  induction files with
  | nil => exact absurd h (notMem_empty i)
  | cons f files ih =>
    rw [exists_mem_cons_iff]
    exact (mem_union.mp h).symm.imp_right fun h => ih (mem_sdiff.mp h).1

theorem Told.addSeries (h : p.Told sf) (hx : sf.seriesKey x.1 = some x.2) : (p.addSeries x).Told sf := by
  rw [Partition.addSeries]
  split_ifs with hmem
  · exact h
  · obtain ⟨htells, hexact⟩ := h.active.execSeries h.exact hx false
    exact ⟨htells, hexact, h.distinct.execSeries x.2 false x.1, h.older⟩

theorem Told.dropSeries (h : p.Told sf) (id : ℕ) : (p.dropSeries sf id).Told sf := by
  rw [Partition.dropSeries, LogFile.write, execEntry]
  cases hs : sf.seriesKey id with
  | none => exact { h with }
  | some s =>
    obtain ⟨htells, hexact⟩ := h.active.execSeries h.exact hs true
    exact ⟨htells, hexact, h.distinct.execSeries s true id, h.older⟩

theorem Told.roll (h : p.Told sf) : p.roll.Told sf := by
  refine ⟨tells_empty, exact_empty, distinct_empty, ?_⟩
  exact forall_mem_cons.mpr ⟨⟨h.active, h.distinct⟩, h.older⟩

/-! ### Compactions -/

structure Compacted (sf : SeriesFile K) (p q : Partition K) : Prop where
  told : q.Told sf
  active : q.active = p.active
  olderLive : q.olderLive = p.olderLive
  seriesIDSet : q.seriesIDSet = p.seriesIDSet

theorem Told.replace (h : p.Told sf) {l₁ l₂ : List (Layer K)} (hold : p.older = l₁ ++ (ls ++ l₂))
    (hl : LayerTells sf l) (heq : Effect (ls.map Layer.content) l.content.tombstoneSeriesIDSet l.content.seriesIDSet) :
    Compacted sf p { p with older := l₁ ++ l :: l₂ } := by
  refine ⟨⟨h.active, h.exact, h.distinct, ?_⟩, rfl, ?_, rfl⟩
  · intro l' hl'
    rcases mem_of_mem_replace hl' with rfl | hl'
    · exact hl
    · exact h.older l' (hold ▸ hl')
  · rw [olderLive, olderLive, hold]
    simp only [buildSeriesSet, map_append, map_cons, foldr_append, foldr_cons, heq _]

/-- What a compaction of a log file does: nothing, or it puts an index file in the place of the log file. -/
theorem compactLogFile_cases (p : Partition K) (i : ℕ) :
    p.compactLogFile i = p ∨ ∃ l₁ f l₂, p.older = l₁ ++ ([.log f] ++ l₂) ∧ .log f ∈ p.older ∧
      p.compactLogFile i = { p with older := l₁ ++ .index f.content.compactLog :: l₂ } := by
  rw [compactLogFile]
  cases hi : p.older[i]? with
  | none => exact .inl rfl
  | some l =>
    cases l with
    | index f => exact .inl rfl
    | log f =>
      obtain ⟨hlt, hget⟩ := List.getElem?_eq_some_iff.mp hi
      refine .inr ⟨p.older.take i, f, p.older.drop (i + 1), ?_, mem_of_getElem? hi, ?_⟩
      · rw [singleton_append, ← hget, ← drop_eq_getElem_cons hlt, take_append_drop]
      · show { p with older := p.older.set i (.index f.content.compactLog) } = _
        rw [set_eq_take_append_cons_drop, if_pos hlt]

omit [LinearOrder K] in
theorem indexRun_eq {fs : List (File K)} (h : indexRun ls = some fs) : ls = fs.map Layer.index := by
  induction ls generalizing fs with
  | nil =>
    cases h
    rfl
  | cons l ls ih =>
    cases l with
    | log f => cases h
    | index f =>
      obtain ⟨fs', hfs, rfl⟩ := Option.map_eq_some_iff.mp h
      rw [ih hfs, map_cons]

/-- What a compaction of index files does: nothing, or it puts one index file in the place of a run of them. -/
theorem compactToLevel_cases (p : Partition K) (i n : ℕ) :
    p.compactToLevel i n = p ∨ ∃ l₁ fs l₂, p.older = l₁ ++ (fs.map Layer.index ++ l₂) ∧ (∀ f ∈ fs, .index f ∈ p.older) ∧
      p.compactToLevel i n = { p with older := l₁ ++ .index (IndexFiles.compact fs) :: l₂ } := by
  rw [compactToLevel]
  split
  · next f g fs hrun =>
    have hls := indexRun_eq hrun
    refine .inr ⟨p.older.take i, f :: g :: fs, p.older.drop (i + n), ?_, fun f' hf => ?_, rfl⟩
    · rw [← hls, ← drop_drop, take_append_drop, take_append_drop]
    · exact mem_of_mem_drop (mem_of_mem_take (hls ▸ mem_map_of_mem hf))
  · exact .inl rfl

omit [LinearOrder K] in
theorem contents_index (fs : List (File K)) : (fs.map Layer.index).map Layer.content = fs := by
  rw [map_map]
  exact map_id fs

theorem Told.compactLogFile (h : p.Told sf) (i : ℕ) : Compacted sf p (p.compactLogFile i) := by
  obtain heq | ⟨l₁, f, l₂, hold, hf, heq⟩ := p.compactLogFile_cases i <;> rw [heq]
  · exact ⟨h, rfl, rfl, rfl⟩
  · have hf := h.older _ hf
    exact h.replace hold ⟨hf.1.compactLog hf.2, sorted_compactLog hf.2⟩ fun s => rfl

theorem Told.compactToLevel (h : p.Told sf) (i n : ℕ) : Compacted sf p (p.compactToLevel i n) := by
  obtain heq | ⟨l₁, fs, l₂, hold, hfs, heq⟩ := p.compactToLevel_cases i n <;> rw [heq]
  · exact ⟨h, rfl, rfl, rfl⟩
  · have hfs : ∀ f ∈ fs, f.Tells sf ∧ f.Sorted := fun f hf => h.older _ (hfs f hf)
    refine h.replace hold ⟨IndexFiles.tells_compact (fun f hf => (hfs f hf).2) fun f hf => (hfs f hf).1,
      IndexFiles.sorted_compact fun f hf => (hfs f hf).2⟩ fun s => ?_
    rw [contents_index]
    exact (IndexFiles.buildSeriesIDSets_spec fun f hf => (hfs f hf).1.disjoint).2.2.2 s

/-! ### The live series -/

/-- **The invariant**: the files agree with the series file, and the live series are those the files say. -/
structure Inv (sf : SeriesFile K) (p : Partition K) : Prop extends Told sf p where
  live : p.seriesIDSet = FileSet.buildSeriesSet p.files

variable (h : p.Inv sf)
include h

theorem Inv.extends (he : sf.Extends sf') : p.Inv sf' := ⟨h.toTold.extends he, h.live⟩

theorem Inv.addSeries (hx : sf.seriesKey x.1 = some x.2) : (p.addSeries x).Inv sf := by
  refine ⟨h.toTold.addSeries hx, ?_⟩
  rw [Partition.addSeries]
  split_ifs with hmem
  · exact h.live
  · rw [h.live, buildSeriesSet_files, buildSeriesSet_files]
    show insert x.1 _ = (p.olderLive \ p.active.content.tombstoneSeriesIDSet.erase x.1) ∪
      insert x.1 p.active.content.seriesIDSet
    ext i
    simp only [Finset.mem_insert, mem_union, mem_sdiff, Finset.mem_erase]
    tauto

theorem Inv.addSeriesList {xs : List (ℕ × Series K)} (hxs : ∀ x ∈ xs, sf.seriesKey x.1 = some x.2) :
    (p.addSeriesList xs).Inv sf := by
  exact inv_foldl (fun _ _ hx h => h.addSeries hx) hxs h

theorem Inv.dropSeries (id : ℕ) : (p.dropSeries sf id).Inv sf := by
  refine ⟨h.toTold.dropSeries id, ?_⟩
  rw [Partition.dropSeries, LogFile.write, execEntry]
  cases hs : sf.seriesKey id with
  | none =>
    -- An id without a key is not live, so nothing is taken away.
    show p.seriesIDSet.erase id = buildSeriesSet p.files
    rw [← h.live, Finset.erase_eq_of_notMem]
    intro hmem
    obtain ⟨f, hf, hi⟩ := exists_of_mem_buildSeriesSet (h.live ▸ hmem)
    have hknown := (h.toTold.tells f hf).known id (.inl hi)
    rw [hs] at hknown
    cases hknown
  | some s =>
    rw [h.live, buildSeriesSet_files, buildSeriesSet_files]
    show Finset.erase _ id = (p.olderLive \ insert id p.active.content.tombstoneSeriesIDSet) ∪
      p.active.content.seriesIDSet.erase id
    ext i
    simp only [Finset.mem_insert, mem_union, mem_sdiff, Finset.mem_erase]
    tauto

theorem Inv.roll : p.roll.Inv sf := by
  refine ⟨h.toTold.roll, ?_⟩
  show p.seriesIDSet = (buildSeriesSet p.files \ ∅) ∪ ∅
  rw [h.live, Finset.sdiff_empty, Finset.union_empty]

theorem Inv.compacted (hc : Compacted sf p q) : q.Inv sf := by
  refine ⟨hc.told, ?_⟩
  rw [hc.seriesIDSet, h.live, buildSeriesSet_files, buildSeriesSet_files, hc.olderLive, hc.active]

end Partition

/-! ## Histories of creations, drops, rolls and compactions -/

/-- The operations that neither drop a measurement nor take ids from the series file. -/
def Op.Plain : Op K → Prop
  | .dropMeasurement _ => False
  | .deleteSeriesID _ => False
  | .compactSeriesFile => False
  | _ => True

/-- The invariant of a partition over its series file. -/
structure State.Inv (st : State K) : Prop where
  sfile : st.sfile.Sound
  partition : st.partition.Inv st.sfile

theorem State.inv_step {st : State K} (h : st.Inv) {op : Op K} (hop : op.Plain) : (st.step op).Inv := by
  cases op with
  | create series =>
    obtain ⟨hs, hext, hkeys⟩ := SeriesFile.createAll_spec h.sfile series
    exact ⟨hs, (h.partition.extends hext).addSeriesList hkeys⟩
  | dropSeries id => exact ⟨h.sfile, h.partition.dropSeries id⟩
  | roll => exact ⟨h.sfile, h.partition.roll⟩
  | compactLogFile i => exact ⟨h.sfile, h.partition.compacted (h.partition.toTold.compactLogFile i)⟩
  | compactToLevel i n => exact ⟨h.sfile, h.partition.compacted (h.partition.toTold.compactToLevel i n)⟩
  | dropMeasurement name | deleteSeriesID id | compactSeriesFile => exact hop.elim

theorem State.inv_run {ops : List (Op K)} (hops : ∀ op ∈ ops, op.Plain) : ((State.empty : State K).run ops).Inv := by
  refine @inv_foldl _ _ State.step State.Inv Op.Plain _ (fun _ _ hop h => State.inv_step h hop) ops hops ?_
  exact ⟨SeriesFile.sound_empty, ⟨tells_empty, exact_empty, distinct_empty, forall_mem_nil _⟩, rfl⟩

/-! ## The lookup -/

namespace FileSet

/-- The series of a tag value after the tombstones of all files. -/
def settled (n k v : K) (files : List (File K)) : Finset ℕ :=
  files.foldr (fun f ss => (ss ∪ f.tagValueSeriesIDSet n k v) \ f.tombstoneSeriesIDSet) ∅

theorem foldr_tagValueRound (n k v : K) (files : List (File K)) :
    (files.foldr (tagValueRound n k v) (∅, ∅)).1 \ (files.foldr (tagValueRound n k v) (∅, ∅)).2 =
      settled n k v files := by
  induction files with
  | nil => rfl
  | cons f files ih =>
    rw [foldr_cons, tagValueRound, ih]
    rfl

theorem mem_settled_iff (h : ∀ f ∈ files, f.Tells sf) :
    i ∈ settled n k v files ↔ i ∈ buildSeriesSet files ∧ sf.Matches i n k v := by
  induction files with
  | nil => exact iff_of_false (notMem_empty i) fun hi => notMem_empty i hi.1
  | cons f files ih =>
    have hf := h f mem_cons_self
    have ih := ih (forall_mem_cons.mp h).2
    show i ∈ (settled n k v files ∪ f.tagValueSeriesIDSet n k v) \ f.tombstoneSeriesIDSet ↔
      i ∈ (buildSeriesSet files \ f.tombstoneSeriesIDSet) ∪ f.seriesIDSet ∧ _
    rw [mem_sdiff, mem_union, ih, mem_union, mem_sdiff]
    constructor
    · rintro ⟨⟨hi, hm⟩ | hi, ht⟩
      · exact ⟨.inl ⟨hi, ht⟩, hm⟩
      · obtain ⟨hin, hm⟩ := hf.has n k v i hi
        exact ⟨.inr (hin.resolve_right ht), hm⟩
    · rintro ⟨⟨hi, ht⟩ | hi, hm⟩
      · exact ⟨.inl ⟨hi, hm⟩, ht⟩
      · exact ⟨.inr (hf.complete i hi n k v hm), hf.disjoint i hi⟩

end FileSet

/-- What the lookup finds: the live series of the older files and the series of the active log file. -/
theorem Partition.Told.mem_lookup_iff {p : Partition K} (h : p.Told sf) : i ∈ tagValueSeriesIDs p.files n k v ↔
      (i ∈ p.olderLive ∨ i ∈ p.active.content.seriesIDSet) ∧ sf.Matches i n k v := by
  have hold : ∀ f ∈ p.older.map Layer.content, f.Tells sf := (forall_mem_cons.mp h.tells).2
  rw [files, tagValueSeriesIDs, foldr_cons, tagValueRound, foldr_tagValueRound, mem_union, mem_settled_iff hold]
  constructor
  · rintro (hi | hi)
    · exact ⟨.inl hi.1, hi.2⟩
    · exact ⟨.inr (h.exact n k v i hi), (h.active.has n k v i hi).2⟩
  · rintro ⟨hi | hi, hm⟩
    · exact .inl ⟨hi, hm⟩
    · exact .inr (h.active.complete i hi n k v hm)

/-- **Tag value lookups are exact** in a history of creations, drops of series, rolls and compactions precisely if no series
with the tag value is live in the older files while its tombstone is in the active log file. -/
theorem tag_value_lookup_exact_iff (ops : List (Op K)) (hops : ∀ op ∈ ops, op.Plain) (n k v : K) :
    (∀ i, i ∈ FileSet.tagValueSeriesIDs ((State.empty : State K).run ops).partition.files n k v ↔
      i ∈ ((State.empty : State K).run ops).partition.seriesIDSet ∧
        ((State.empty : State K).run ops).sfile.Matches i n k v) ↔
    ∀ i ∈ ((State.empty : State K).run ops).partition.active.content.tombstoneSeriesIDSet,
      ((State.empty : State K).run ops).sfile.Matches i n k v →
        i ∉ ((State.empty : State K).run ops).partition.olderLive := by
  have hinv := (State.inv_run hops).partition
  generalize (State.empty : State K).run ops = st at hinv ⊢
  simp only [hinv.toTold.mem_lookup_iff, hinv.live, buildSeriesSet_files, mem_union, mem_sdiff]
  constructor
  · intro h i ht hm hold
    rcases ((h i).mp ⟨.inl hold, hm⟩).1 with hi | hi
    · exact hi.2 ht
    · exact hinv.active.disjoint i hi ht
  · intro h i
    constructor
    · rintro ⟨hi | hi, hm⟩
      · exact ⟨.inl ⟨hi, fun ht => h i ht hm hi⟩, hm⟩
      · exact ⟨.inr hi, hm⟩
    · rintro ⟨hi | hi, hm⟩
      · exact ⟨.inl hi.1, hm⟩
      · exact ⟨.inr hi, hm⟩

/-- The series of measurement 1 with the value 3 of the tag key 2. -/
def oneTag : Series ℕ := ⟨1, [(2, 3)]⟩

/-- Created, rolled, dropped and rolled again: the tombstone has left the active log file. -/
def droppedAndRolled : State ℕ := State.empty.run [.create [oneTag], .roll, .dropSeries 1, .roll]

theorem rolled_drop_is_exact : 1 ∈ FileSet.tagValueSeriesIDs droppedAndRolled.partition.files 1 2 3 ↔
    1 ∈ droppedAndRolled.partition.seriesIDSet ∧ droppedAndRolled.sfile.Matches 1 1 2 3 := by
  refine (tag_value_lookup_exact_iff [.create [oneTag], .roll, .dropSeries 1, .roll] ?_ 1 2 3).mpr ?_ 1
  · intro op hop
    simp only [mem_cons, not_mem_nil, or_false] at hop
    rcases hop with rfl | rfl | rfl | rfl <;> trivial
  · intro i hi
    exact absurd hi (notMem_empty i)

/-- A series that was dropped after a roll is found although no file says it is live. -/
theorem dropped_series_is_found :
    1 ∈ FileSet.tagValueSeriesIDs ((State.empty : State ℕ).run [.create [oneTag], .roll, .dropSeries 1]).partition.files 1 2 3 ∧
      ((State.empty : State ℕ).run [.create [oneTag], .roll, .dropSeries 1]).partition.seriesIDSet = ∅ := by
  decide

end Influxdb.Tsi1
