import Influxdb.Tsi1.LiveSeries

/-!
# DroppedTags — the tags of a measurement that is dropped and created again

`DropMeasurement` writes a tombstone for every tag key and every tag value, and then one for the measurement, which replaces
the whole tag set of the measurement in the active log file: the tombstones of the tags are gone with it.  So no file ever has
a deleted tag, and a tag is shown precisely if some file has it.  Dropping a measurement hides its tags precisely if no older
file has one, and a series that is created again brings its tags back precisely if it is not live any more.
-/

namespace Influxdb.Tsi1

open List Option Assoc FileSet Influxdb.Tsi1.Partition Layer SeriesFile

variable {K : Type} [LinearOrder K] {sf sf' : SeriesFile K} {f : File K} {n k v : K} {id i : ℕ} {s : Series K}
variable {α : Type} {deleted : α → Bool} {l : Layer K}

/-! ## Files without deleted tags -/

/-- Every tag key of a tag set has a value, and nothing is deleted. -/
structure CleanTags (tagSet : List (K × TagKey K)) : Prop where
  keys : ∀ k ts, get k tagSet = some ts → ts.deleted = false ∧ ∃ v, (lookupValue tagSet k v).isSome
  values : ∀ k v tv, lookupValue tagSet k v = some tv → tv.deleted = false

theorem cleanTags_nil : CleanTags ([] : List (K × TagKey K)) := ⟨nofun, nofun⟩

section TagSet

variable {tagSet : List (K × TagKey K)} {g : TagValue → TagValue}

theorem isSome_lookupValue_updateTagValue {tag : K × K} :
    (lookupValue (updateTagValue g tagSet tag) k v).isSome ↔ (k, v) = tag ∨ (lookupValue tagSet k v).isSome := by
  rw [lookupValue_updateTagValue]
  split_ifs with htag
  · exact iff_of_true rfl (.inl htag)
  · exact ⟨.inr, fun h => h.resolve_left htag⟩

theorem CleanTags.update (h : CleanTags tagSet) (hg : ∀ tv, (g tv).deleted = tv.deleted) (tag : K × K) :
    CleanTags (updateTagValue g tagSet tag) := by
  constructor
  · intro k ts hts
    rw [updateTagValue] at hts
    by_cases hk : k = tag.1
    · subst hk
      rw [get_put_self] at hts
      cases hts
      refine ⟨?_, tag.2, ?_⟩
      · show (createTagSetIfNotExists tagSet tag.1).deleted = false
        rw [createTagSetIfNotExists]
        cases hget : get tag.1 tagSet with
        | none => rfl
        | some ts => exact (h.keys tag.1 ts hget).1
      · exact isSome_lookupValue_updateTagValue.mpr (.inl rfl)
    · rw [get_put_of_ne hk] at hts
      obtain ⟨hdel, v, hv⟩ := h.keys k ts hts
      exact ⟨hdel, v, isSome_lookupValue_updateTagValue.mpr (.inr hv)⟩
  · intro k v tv htv
    rw [lookupValue_updateTagValue] at htv
    split_ifs at htv
    · cases htv
      rw [hg]
      cases hold : lookupValue tagSet tag.1 tag.2 with
      | none => rfl
      | some tv => exact h.values tag.1 tag.2 tv hold
    · exact h.values k v tv htv

theorem CleanTags.foldl (h : CleanTags tagSet) (hg : ∀ tv, (g tv).deleted = tv.deleted) (tags : List (K × K)) :
    CleanTags (tags.foldl (updateTagValue g) tagSet) := by
  induction tags generalizing tagSet with
  | nil => exact h
  | cons tag tags ih => exact ih (h.update hg tag)

theorem isSome_lookupValue_foldl {tags : List (K × K)} :
    (lookupValue (tags.foldl (updateTagValue g) tagSet) k v).isSome ↔
      (k, v) ∈ tags ∨ (lookupValue tagSet k v).isSome := by
  induction tags generalizing tagSet with
  | nil => simp
  | cons tag tags ih =>
    rw [foldl_cons, ih, isSome_lookupValue_updateTagValue, mem_cons]
    tauto

end TagSet

/-- A file without deleted tags, whose series are under the measurement of their key. -/
structure File.Clean (sf : SeriesFile K) (f : File K) : Prop where
  keys : ∀ n k ts, f.tagKey n k = some ts → ts.deleted = false ∧ ∃ v, (f.tagValue n k v).isSome
  values : ∀ n k v tv, f.tagValue n k v = some tv → tv.deleted = false
  named : ∀ n i, i ∈ f.measurementSeries n → ∃ s, sf.seriesKey i = some s ∧ s.name = n

def Shows (files : List (File K)) (n k v : K) : Prop := ∃ f ∈ files, (f.tagValue n k v).isSome

namespace File

theorem clean_empty : (File.empty : File K).Clean sf :=
  ⟨nofun, nofun, fun _ i hi => absurd hi (Finset.notMem_empty i)⟩

theorem Clean.tags (h : f.Clean sf) {mm : Measurement K} (hm : f.measurement n = some mm) : CleanTags mm.tagSet := by
  have hkey (k : K) : f.tagKey n k = get k mm.tagSet := by rw [tagKey, hm, bind_some]
  have hvalue (k v : K) : f.tagValue n k v = lookupValue mm.tagSet k v := by rw [tagValue_eq, hm, bind_some]
  constructor
  · intro k ts hts
    obtain ⟨hdel, v, hv⟩ := h.keys n k ts ((hkey k).trans hts)
    exact ⟨hdel, v, hvalue k v ▸ hv⟩
  · intro k v tv htv
    exact h.values n k v tv ((hvalue k v).trans htv)

theorem clean_of_tags (htags : ∀ n mm, f.measurement n = some mm → CleanTags mm.tagSet)
    (hnamed : ∀ n i, i ∈ f.measurementSeries n → ∃ s, sf.seriesKey i = some s ∧ s.name = n) : f.Clean sf := by
  refine ⟨?_, ?_, hnamed⟩
  · intro n k ts hts
    obtain ⟨mm, hm, hk⟩ := bind_eq_some_iff.mp hts
    obtain ⟨hdel, v, hv⟩ := (htags n mm hm).keys k ts hk
    refine ⟨hdel, v, ?_⟩
    rw [tagValue_eq, hm]
    exact hv
  · intro n k v tv htv
    rw [tagValue_eq] at htv
    obtain ⟨mm, hm, hv⟩ := bind_eq_some_iff.mp htv
    exact (htags n mm hm).values k v tv hv

theorem Clean.extends (h : f.Clean sf) (he : sf.Extends sf') : f.Clean sf' := by
  refine ⟨h.keys, h.values, ?_⟩
  intro n i hi
  obtain ⟨s, hs, hn⟩ := h.named n i hi
  exact ⟨s, he i s hs, hn⟩

theorem Clean.createMeasurement (h : f.Clean sf) (n : K) : CleanTags (f.createMeasurementIfNotExists n).tagSet := by
  rw [createMeasurementIfNotExists]
  cases hm : f.measurement n with
  | none => exact cleanTags_nil
  | some mm => exact h.tags hm

theorem measurement_execSeries_of_ne (hn : n ≠ s.name) (deleted : Bool) (id : ℕ) (f : File K) :
    (f.execSeries s deleted id).measurement n = f.measurement n := get_put_of_ne hn _ _

theorem measurementSeries_execSeries (s : Series K) (deleted : Bool) (id : ℕ) (f : File K) :
    (f.execSeries s deleted id).measurementSeries s.name = touch deleted id (f.measurementSeries s.name) := by
  rw [measurementSeries, measurement, File.execSeries, get_put_self, createMeasurementIfNotExists, measurementSeries]
  cases f.measurement s.name <;> rfl

theorem Clean.execSeries (h : f.Clean sf) (hs : sf.seriesKey id = some s) (deleted : Bool) :
    (f.execSeries s deleted id).Clean sf := by
  refine clean_of_tags ?_ ?_
  · intro n mm hm
    by_cases hn : n = s.name
    · subst hn
      rw [measurement, File.execSeries, get_put_self] at hm
      cases hm
      refine (h.createMeasurement s.name).foldl ?_ s.tags
      exact fun _ => rfl
    · rw [measurement_execSeries_of_ne hn] at hm
      exact h.tags hm
  · intro n i hi
    by_cases hn : n = s.name
    · subst hn
      rw [measurementSeries_execSeries] at hi
      by_cases hid : i = id
      · exact ⟨s, hid ▸ hs, rfl⟩
      · exact h.named s.name i ((mem_touch_of_ne hid).mp hi)
    · rw [measurementSeries, measurement_execSeries_of_ne hn] at hi
      exact h.named n i hi

theorem isSome_tagValue_execSeries (s : Series K) (deleted : Bool) (id : ℕ) (f : File K) (n k v : K) :
    ((f.execSeries s deleted id).tagValue n k v).isSome ↔ s.Has n k v ∨ (f.tagValue n k v).isSome := by
  rw [tagValue_eq, tagValue_eq]
  by_cases hn : n = s.name
  · subst hn
    rw [measurement, File.execSeries, get_put_self, bind_some, isSome_lookupValue_foldl,
      createMeasurementIfNotExists, measurement, Series.Has]
    cases get s.name f.mms <;> simp [lookupValue]
  · rw [measurement_execSeries_of_ne hn]
    exact ⟨.inr, fun h => h.resolve_left fun hs => hn hs.1.symm⟩

/-! ## Compactions -/

theorem Clean.shown (h : f.Clean sf) : f.Shown := fun n k ts hts => (h.keys n k ts hts).1

theorem tagValue_compactLog_of_shown (hd : f.Distinct) (h : f.Shown) (n k v : K) :
    f.compactLog.tagValue n k v = f.tagValue n k v := by
  rw [tagValue_compactLog hd]
  cases hk : f.tagKey n k with
  | none => rfl
  | some ts =>
    rw [map_some, getD_some, h n k ts hk]
    rfl

theorem Clean.compactLog (h : f.Clean sf) (hd : f.Distinct) : f.compactLog.Clean sf := by
  have hvalue := tagValue_compactLog_of_shown hd h.shown
  refine ⟨?_, ?_, ?_⟩
  · intro n k ts hts
    rw [tagKey_compactLog hd] at hts
    obtain ⟨ts', hts', rfl⟩ := map_eq_some_iff.mp hts
    obtain ⟨hdel, v, hv⟩ := h.keys n k ts' hts'
    exact ⟨hdel, v, (hvalue n k v).symm ▸ hv⟩
  · intro n k v tv htv
    exact h.values n k v tv (hvalue n k v ▸ htv)
  · intro n i hi
    refine h.named n i ?_
    rw [measurementSeries, measurement_compactLog hd] at hi
    rw [measurementSeries]
    cases hm : f.measurement n with
    | none => rwa [hm] at hi
    | some mm => rwa [hm] at hi

end File

namespace IndexFiles

variable {p : List (File K)}

theorem headDeleted_eq_false {group : List α} (h : ∀ a ∈ group, deleted a = false) :
    headDeleted deleted group = false := by
  cases group with
  | nil => rfl
  | cons a group => exact h a mem_cons_self

theorem isSome_tagValue_compact (hsorted : ∀ f ∈ p, f.Sorted) (hshown : ∀ f ∈ p, f.Shown) (n k v : K) :
    ((compact p).tagValue n k v).isSome ↔ Shows p n k v := by
  rw [tagValue_compact hsorted, valueGroup_eq hshown]
  split_ifs with hnil
  · refine iff_of_false nofun ?_
    rintro ⟨f, hf, hv⟩
    rw [filterMap_eq_nil_iff.mp hnil f hf] at hv
    cases hv
  · refine iff_of_true rfl ?_
    obtain ⟨tv, htv⟩ := exists_mem_of_ne_nil _ hnil
    obtain ⟨f, hf, hv⟩ := mem_filterMap.mp htv
    exact ⟨f, hf, hv ▸ rfl⟩

theorem clean_compact (hsorted : ∀ f ∈ p, f.Sorted) (h : ∀ f ∈ p, f.Clean sf) : (compact p).Clean sf := by
  have hshown : ∀ f ∈ p, f.Shown := fun f hf => (h f hf).shown
  refine ⟨?_, ?_, ?_⟩
  · intro n k ts hts
    rw [tagKey_compact hsorted] at hts
    split_ifs at hts with hnil
    cases hts
    constructor
    · refine headDeleted_eq_false fun ts hts => ?_
      obtain ⟨f, hf, hk⟩ := mem_keyGroup.mp hts
      exact hshown f hf n k ts hk
    · obtain ⟨ts, hts⟩ := exists_mem_of_ne_nil _ hnil
      obtain ⟨f, hf, hk⟩ := mem_keyGroup.mp hts
      obtain ⟨-, v, hv⟩ := (h f hf).keys n k ts hk
      exact ⟨v, (isSome_tagValue_compact hsorted hshown n k v).mpr ⟨f, hf, hv⟩⟩
  · intro n k v tv htv
    rw [tagValue_compact hsorted, valueGroup_eq hshown] at htv
    split_ifs at htv
    cases htv
    refine headDeleted_eq_false fun tv htv => ?_
    obtain ⟨f, hf, hv⟩ := mem_filterMap.mp htv
    exact (h f hf).values n k v tv hv
  · intro n i hi
    rw [File.measurementSeries, measurement_compact hsorted] at hi
    split_ifs at hi
    · exact absurd hi (Finset.notMem_empty i)
    · have hi : i ∈ measurementSeries p n := hi
      rw [measurementSeries, foldl_union] at hi
      obtain ⟨f, hf, hi⟩ := hi.resolve_left (Finset.notMem_empty i)
      exact (h f hf).named n i hi

end IndexFiles

/-! ## What the file set reports -/

namespace FileSet

variable {files : List (File K)}

omit [LinearOrder K] in
theorem any_findSome?_iff {g : File K → Option α} (hdel : ∀ f ∈ files, ∀ a, g f = some a → deleted a = false) :
    ((files.findSome? g).any fun a => !deleted a) = true ↔ ∃ f ∈ files, (g f).isSome := by
  cases hfind : files.findSome? g with
  | none =>
    refine iff_of_false nofun ?_
    rintro ⟨f, hf, hv⟩
    rw [findSome?_eq_none_iff.mp hfind f hf] at hv
    cases hv
  | some a =>
    obtain ⟨f, hf, ha⟩ := exists_of_findSome?_eq_some hfind
    refine iff_of_true ?_ ⟨f, hf, ha ▸ rfl⟩
    rw [any_some, hdel f hf a ha]
    rfl

/-- What the iterators hand out, if nothing is deleted: the keys of the maps of all files. -/
theorem mem_undeleted_iff {β : Type} {g : File K → Option β} {m : β → List (K × α)}
    (hnd : ∀ f ∈ files, ∀ b, g f = some b → Keys List.Nodup (m b))
    (hdel : ∀ f ∈ files, ∀ b, g f = some b → ∀ x a, get x (m b) = some a → deleted a = false) (x : K) :
    x ∈ (mergeGroups (files.filterMap fun f => (g f).map fun b => sortMap (m b))).filterMap
        (fun q => if IndexFiles.headDeleted deleted q.2 then none else some q.1) ↔
      ∃ f ∈ files, ((g f).bind fun b => get x (m b)).isSome := by
  have hmem {l : List (K × α)} (hl : l ∈ files.filterMap fun f => (g f).map fun b => sortMap (m b)) :
      ∃ f ∈ files, ∃ b, g f = some b ∧ l = sortMap (m b) := by
    obtain ⟨f, hf, hl⟩ := mem_filterMap.mp hl
    obtain ⟨b, hb, rfl⟩ := map_eq_some_iff.mp hl
    exact ⟨f, hf, b, hb, rfl⟩
  have hinc : ∀ l ∈ files.filterMap (fun f => (g f).map fun b => sortMap (m b)), Increasing l := by
    intro l hl
    obtain ⟨f, hf, b, hb, rfl⟩ := hmem hl
    exact increasing_sortMap (hnd f hf b hb)
  have hgroup {a : α} : a ∈ groupOf x (files.filterMap fun f => (g f).map fun b => sortMap (m b)) ↔
      ∃ f ∈ files, ∃ b, g f = some b ∧ get x (m b) = some a := by
    constructor
    · intro ha
      obtain ⟨l, hl, hget⟩ := mem_filterMap.mp ha
      obtain ⟨f, hf, b, hb, rfl⟩ := hmem hl
      exact ⟨f, hf, b, hb, (get_sortMap (hnd f hf b hb) x).symm.trans hget⟩
    · rintro ⟨f, hf, b, hb, hget⟩
      refine mem_filterMap.mpr ⟨sortMap (m b), mem_filterMap.mpr ⟨f, hf, by rw [hb]; rfl⟩, ?_⟩
      rw [get_sortMap (hnd f hf b hb), hget]
  have hget := get_mergeGroups hinc x
  constructor
  · intro hx
    obtain ⟨q, hq, hsome⟩ := mem_filterMap.mp hx
    split_ifs at hsome
    cases hsome
    rw [(get_eq_some_iff (increasing_mergeGroups hinc).nodup).mpr hq] at hget
    split_ifs at hget with hnil
    obtain ⟨a, ha⟩ := exists_mem_of_ne_nil _ hnil
    obtain ⟨f, hf, b, hb, hgetb⟩ := hgroup.mp ha
    exact ⟨f, hf, by rw [hb, bind_some, hgetb]; rfl⟩
  · rintro ⟨f, hf, hsome⟩
    obtain ⟨a, ha⟩ := isSome_iff_exists.mp hsome
    have hmem := hgroup.mpr ⟨f, hf, bind_eq_some_iff.mp ha⟩
    rw [if_neg (ne_nil_of_mem hmem)] at hget
    refine mem_filterMap.mpr ⟨(x, _), mem_of_get hget, if_neg ?_⟩
    rw [IndexFiles.headDeleted_eq_false fun a ha => ?_]
    · nofun
    · obtain ⟨f, hf, b, hb, hgetb⟩ := hgroup.mp ha
      exact hdel f hf b hb x a hgetb

section Clean

variable (h : ∀ f ∈ files, f.Clean sf)

include h

theorem exists_tagKey_iff : (∃ f ∈ files, (f.tagKey n k).isSome) ↔ ∃ v, Shows files n k v := by
  constructor
  · rintro ⟨f, hf, hk⟩
    obtain ⟨ts, hts⟩ := isSome_iff_exists.mp hk
    obtain ⟨-, v, hv⟩ := (h f hf).keys n k ts hts
    exact ⟨v, f, hf, hv⟩
  · rintro ⟨v, f, hf, hv⟩
    exact ⟨f, hf, isSome_of_isSome_bind hv⟩

theorem hasTagKey_iff : hasTagKey files n k = true ↔ ∃ v, Shows files n k v := by
  rw [← exists_tagKey_iff h, ← any_findSome?_iff fun f hf ts hk => ((h f hf).keys n k ts hk).1, hasTagKey]
  cases files.findSome? _ <;> rfl

theorem hasTagValue_iff : hasTagValue files n k v = true ↔ Shows files n k v := by
  rw [Shows, ← any_findSome?_iff fun f hf tv hv => (h f hf).values n k v tv hv, hasTagValue]
  cases files.findSome? _ <;> rfl

theorem mem_tagKeys_iff (hd : ∀ f ∈ files, f.Distinct) : k ∈ tagKeys files n ↔ ∃ v, Shows files n k v := by
  rw [← exists_tagKey_iff h]
  refine mem_undeleted_iff ?_ ?_ k
  · exact fun f hf mm hm => (hd f hf).tagSet (n, mm) (mem_of_get hm)
  · exact fun f hf mm hm k ts hts => (((h f hf).tags hm).keys k ts hts).1

theorem mem_tagValues_iff (hd : ∀ f ∈ files, f.Distinct) : v ∈ tagValues files n k ↔ Shows files n k v := by
  refine mem_undeleted_iff ?_ ?_ v
  · exact fun f hf ts hts => File.keys_values_of_tagKey (hd f hf) hts
  · exact fun f hf ts hts v tv htv => (h f hf).values n k v tv (by rw [File.tagValue, hts]; exact htv)

end Clean

end FileSet

/-! ## Dropping a measurement -/

/-- An entry that changes nothing but a measurement. -/
def LogEntry.About (sf : SeriesFile K) (name : K) : LogEntry K → Prop
  | .measurementTombstone n => n = name
  | .tagKeyTombstone n _ => n = name
  | .tagValueTombstone n _ _ => n = name
  | .series _ id => ∀ s, sf.seriesKey id = some s → s.name = name

theorem measurement_execEntry {e : LogEntry K} {name : K} (he : e.About sf name) (hn : n ≠ name) (f : File K) :
    (f.execEntry sf.seriesKey e).measurement n = f.measurement n := by
  cases e with
  | measurementTombstone m | tagKeyTombstone m k | tagValueTombstone m k v => exact get_put_of_ne (he.symm ▸ hn) _ _
  | series deleted id =>
    rw [File.execEntry]
    cases hs : sf.seriesKey id with
    | none => rfl
    | some s => exact File.measurement_execSeries_of_ne (he s hs ▸ hn) deleted id f

theorem content_foldl_write (seriesKey : ℕ → Option (Series K)) (es : List (LogEntry K)) (f : LogFile K) :
    (es.foldl (LogFile.write seriesKey) f).content = es.foldl (File.execEntry seriesKey) f.content := by
  induction es generalizing f with
  | nil => rfl
  | cons e es ih => exact ih _

theorem measurement_foldl_execEntry {es : List (LogEntry K)} {name : K} (hes : ∀ e ∈ es, e.About sf name) (hn : n ≠ name)
    (f : File K) : (es.foldl (File.execEntry sf.seriesKey) f).measurement n = f.measurement n := by
  induction es generalizing f with
  | nil => rfl
  | cons e es ih =>
    rw [foldl_cons, ih (forall_mem_cons.mp hes).2]
    exact measurement_execEntry (hes e mem_cons_self) hn f

namespace Partition

variable {p : Partition K}

/-- A layer without deleted tags. -/
def LayerClean (sf : SeriesFile K) : Layer K → Prop
  | .log f => f.content.Clean sf ∧ f.content.Distinct
  | .index f => f.Clean sf ∧ f.Sorted

theorem LayerClean.clean (h : LayerClean sf l) : l.content.Clean sf := by
  cases l <;> exact h.1

theorem LayerClean.distinct (h : LayerClean sf l) : l.content.Distinct := by
  cases l with
  | log f => exact h.2
  | index f => exact File.Sorted.distinct h.2

/-- **The invariant**: no file has a deleted tag. -/
structure Tagged (sf : SeriesFile K) (p : Partition K) : Prop where
  active : LayerClean sf (.log p.active)
  older : ∀ l ∈ p.older, LayerClean sf l

theorem Tagged.layer (h : p.Tagged sf) : ∀ l ∈ log p.active :: p.older, LayerClean sf l :=
  forall_mem_cons.mpr ⟨h.active, h.older⟩

theorem Tagged.clean (h : p.Tagged sf) : ∀ f ∈ p.files, f.Clean sf :=
  forall_mem_map (f := content) (l := .log p.active :: p.older) |>.mpr fun l hl => (h.layer l hl).clean

theorem Tagged.distinct (h : p.Tagged sf) : ∀ f ∈ p.files, f.Distinct :=
  forall_mem_map (f := content) (l := .log p.active :: p.older) |>.mpr fun l hl => (h.layer l hl).distinct

theorem Tagged.extends (h : p.Tagged sf) (he : sf.Extends sf') : p.Tagged sf' := by
  refine ⟨⟨h.active.1.extends he, h.active.2⟩, ?_⟩
  intro l hl
  have hl := h.older l hl
  cases l <;> exact ⟨hl.1.extends he, hl.2⟩

theorem tagged_empty : (empty : Partition K).Tagged sf :=
  ⟨⟨File.clean_empty, File.distinct_empty⟩, forall_mem_nil _⟩

theorem shows_files (p : Partition K) :
    Shows p.files n k v ↔ (p.active.content.tagValue n k v).isSome ∨ Shows (p.older.map content) n k v := by
  rw [Shows, files, Shows]
  simp only [mem_cons, exists_eq_or_imp]

/-! ### Entries about series -/

theorem Tagged.addSeries (h : p.Tagged sf) {x : ℕ × Series K} (hx : sf.seriesKey x.1 = some x.2) :
    (p.addSeries x).Tagged sf := by
  rw [Partition.addSeries]
  split_ifs
  · exact h
  · exact ⟨⟨h.active.1.execSeries hx false, h.active.2.execSeries x.2 false x.1⟩, h.older⟩

theorem shows_addSeries (p : Partition K) (x : ℕ × Series K) :
    Shows (p.addSeries x).files n k v ↔ x.1 ∉ p.seriesIDSet ∧ x.2.Has n k v ∨ Shows p.files n k v := by
  rw [addSeries]
  split_ifs with hmem
  · exact ⟨.inr, fun h => h.resolve_left fun hx => hx.1 hmem⟩
  · rw [shows_files, shows_files]
    show ((p.active.content.execSeries x.2 false x.1).tagValue n k v).isSome ∨ _ ↔ _
    rw [File.isSome_tagValue_execSeries]
    tauto

theorem mem_addSeries (p : Partition K) (x : ℕ × Series K) (i : ℕ) :
    i ∈ (p.addSeries x).seriesIDSet ↔ i = x.1 ∨ i ∈ p.seriesIDSet := by
  rw [addSeries]
  split_ifs with hmem
  · exact ⟨.inr, fun h => h.elim (fun heq => heq ▸ hmem) fun hi => hi⟩
  · exact Finset.mem_insert

variable (h : p.Tagged sf)
include h

/-- **Adding series**: the tags of those that are not live are shown. -/
theorem Tagged.addSeriesList {xs : List (ℕ × Series K)} (hxs : ∀ x ∈ xs, sf.seriesKey x.1 = some x.2) :
    (p.addSeriesList xs).Tagged sf ∧ (∀ n k v, Shows (p.addSeriesList xs).files n k v ↔
        (∃ x ∈ xs, x.1 ∉ p.seriesIDSet ∧ x.2.Has n k v) ∨ Shows p.files n k v) ∧
      ∀ i, i ∈ (p.addSeriesList xs).seriesIDSet ↔ i ∈ xs.map Prod.fst ∨ i ∈ p.seriesIDSet := by
  rw [Partition.addSeriesList]
  induction xs generalizing p with
  | nil => exact ⟨h, by simp, by simp⟩
  | cons x xs ih =>
    have hx := hxs x mem_cons_self
    obtain ⟨htag, hshows, hset⟩ := ih (h.addSeries hx) (forall_mem_cons.mp hxs).2
    refine ⟨htag, ?_, ?_⟩
    · intro n k v
      rw [foldl_cons, hshows, shows_addSeries]
      constructor
      · rintro (⟨y, hy, hlive, hhas⟩ | hx | hold)
        · exact .inl ⟨y, mem_cons_of_mem x hy, fun hm => hlive ((mem_addSeries p x y.1).mpr (.inr hm)), hhas⟩
        · exact .inl ⟨x, mem_cons_self, hx⟩
        · exact .inr hold
      · rintro (⟨y, hy, hlive, hhas⟩ | hold)
        · rcases mem_cons.mp hy with rfl | hy
          · exact .inr (.inl ⟨hlive, hhas⟩)
          · by_cases hid : y.1 = x.1
            · -- The same id has the same key, so the tags come with the first of the two.
              have heq : x.2 = y.2 := by
                have hsame := hxs y (mem_cons_of_mem x hy)
                rw [hid, hx] at hsame
                exact Option.some.inj hsame
              exact .inr (.inl ⟨hid ▸ hlive, heq ▸ hhas⟩)
            · refine .inl ⟨y, hy, ?_, hhas⟩
              rw [mem_addSeries]
              exact fun hm => hm.elim hid hlive
        · exact .inr (.inr hold)
    · intro i
      rw [foldl_cons, hset, mem_addSeries, map_cons, mem_cons]
      tauto

/-! ### Dropping -/

theorem about_dropMeasurementEntries (name : K) : ∀ e ∈ p.dropMeasurementEntries name, e.About sf name := by
  refine forall_mem_append.mpr ⟨forall_mem_append.mpr ⟨fun e he => ?_, ?_⟩, forall_mem_singleton.mpr rfl⟩
  · obtain ⟨q, -, he⟩ := mem_flatMap.mp he
    rcases mem_append.mp he with he | he
    · split_ifs at he
      · cases he
      · rw [mem_singleton.mp he]
        rfl
    · obtain ⟨r, -, he⟩ := mem_filterMap.mp he
      split_ifs at he
      rw [← Option.some.inj he]
      rfl
  · refine forall_mem_map.mpr fun i hi s hs => ?_
    have hi := of_decide_eq_true (mem_filter.mp hi).2
    rw [measurementSeries, IndexFiles.foldl_union] at hi
    obtain ⟨f, hf, hi⟩ := hi.resolve_left (Finset.notMem_empty i)
    obtain ⟨s', hs', hname⟩ := (h.clean f hf).named name i hi
    rw [hs] at hs'
    exact Option.some.inj hs' ▸ hname

/-- **What is left of a measurement** in the active log file: nothing but the tombstone. -/
theorem measurement_dropMeasurement (name n : K) : (p.dropMeasurement sf name).active.content.measurement n =
      if n = name then some ⟨true, [], ∅⟩ else p.active.content.measurement n := by
  show ((p.dropMeasurementEntries name).foldl (LogFile.write sf.seriesKey) p.active).content.measurement n = _
  rw [content_foldl_write]
  split_ifs with hn
  · subst hn
    rw [dropMeasurementEntries, foldl_append]
    exact get_put_self _ _ _
  · exact measurement_foldl_execEntry (about_dropMeasurementEntries h name) hn _

theorem Tagged.dropMeasurement (name : K) : (p.dropMeasurement sf name).Tagged sf := by
  refine ⟨⟨File.clean_of_tags ?_ ?_, ?_⟩, h.older⟩
  · intro n mm hm
    rw [measurement_dropMeasurement h] at hm
    split_ifs at hm
    · cases hm
      exact cleanTags_nil
    · exact h.active.1.tags hm
  · intro n i hi
    rw [File.measurementSeries, measurement_dropMeasurement h] at hi
    split_ifs at hi
    · exact absurd hi (Finset.notMem_empty i)
    · exact h.active.1.named n i hi
  · show ((p.dropMeasurementEntries name).foldl (LogFile.write sf.seriesKey) p.active).content.Distinct
    rw [content_foldl_write]
    exact foldlRecOn _ _ h.active.2 fun _ hd e _ => hd.execEntry sf.seriesKey e

theorem shows_dropMeasurement (name : K) : Shows (p.dropMeasurement sf name).files n k v ↔
      if n = name then Shows (p.older.map content) n k v else Shows p.files n k v := by
  rw [shows_files, File.tagValue_eq, measurement_dropMeasurement h]
  split_ifs with hn
  · exact ⟨fun hs => hs.resolve_left nofun, .inr⟩
  · rw [← File.tagValue_eq, shows_files]
    rfl

/-! ### Rolls and compactions -/

theorem Tagged.roll : p.roll.Tagged sf :=
  ⟨⟨File.clean_empty, File.distinct_empty⟩, h.layer⟩

omit h

theorem shows_roll (p : Partition K) : Shows p.roll.files n k v ↔ Shows p.files n k v := by
  rw [shows_files]
  exact ⟨fun h => h.resolve_left nofun, .inr⟩

theorem Tagged.replace (h : p.Tagged sf) {l₁ ls l₂ : List (Layer K)} (hold : p.older = l₁ ++ (ls ++ l₂))
    (hl : LayerClean sf l) (hsame : ∀ n k v, (l.content.tagValue n k v).isSome ↔ Shows (ls.map content) n k v) :
    Tagged sf { p with older := l₁ ++ l :: l₂ } ∧
      ∀ n k v, Shows (files { p with older := l₁ ++ l :: l₂ }) n k v ↔ Shows p.files n k v := by
  refine ⟨⟨h.active, ?_⟩, ?_⟩
  · intro l' hl'
    rcases mem_of_mem_replace hl' with rfl | hl'
    · exact hl
    · exact h.older l' (hold ▸ hl')
  · intro n k v
    have happend (a b : List (File K)) : Shows (a ++ b) n k v ↔ Shows a n k v ∨ Shows b n k v := by
      simp only [Shows, mem_append, or_and_right, exists_or]
    have hcons (f : File K) (b : List (File K)) :
        Shows (f :: b) n k v ↔ (f.tagValue n k v).isSome ∨ Shows b n k v := by
      simp only [Shows, mem_cons, exists_eq_or_imp]
    rw [shows_files, shows_files, hold]
    simp only [map_append, map_cons, happend, hcons, hsame]

theorem Tagged.compactLogFile (h : p.Tagged sf) (i : ℕ) :
    (p.compactLogFile i).Tagged sf ∧ ∀ n k v, Shows (p.compactLogFile i).files n k v ↔ Shows p.files n k v := by
  obtain heq | ⟨l₁, f, l₂, hold, hf, heq⟩ := p.compactLogFile_cases i <;> rw [heq]
  · exact ⟨h, fun _ _ _ => Iff.rfl⟩
  · have hf := h.older _ hf
    refine h.replace hold ⟨hf.1.compactLog hf.2, File.sorted_compactLog hf.2⟩ fun n k v => ?_
    show (f.content.compactLog.tagValue n k v).isSome ↔ _
    rw [File.tagValue_compactLog_of_shown hf.2 hf.1.shown]
    simp [Shows, content]

theorem Tagged.compactToLevel (h : p.Tagged sf) (i j : ℕ) :
    (p.compactToLevel i j).Tagged sf ∧ ∀ n k v, Shows (p.compactToLevel i j).files n k v ↔ Shows p.files n k v := by
  obtain heq | ⟨l₁, fs, l₂, hold, hfs, heq⟩ := p.compactToLevel_cases i j <;> rw [heq]
  · exact ⟨h, fun _ _ _ => Iff.rfl⟩
  · have hfs : ∀ f ∈ fs, f.Clean sf ∧ f.Sorted := fun f hf => h.older _ (hfs f hf)
    refine h.replace hold ⟨IndexFiles.clean_compact (fun f hf => (hfs f hf).2) fun f hf => (hfs f hf).1,
      IndexFiles.sorted_compact fun f hf => (hfs f hf).2⟩ fun n k v => ?_
    rw [contents_index]
    exact IndexFiles.isSome_tagValue_compact (fun f hf => (hfs f hf).2) (fun f hf => (hfs f hf).1.shown) n k v

end Partition

/-! ## The ids of created series -/

namespace SeriesFile

theorem create_cases (h : sf.Sound) (s : Series K) : (∃ id, sf.findID s = some id ∧ sf.create s = (id, sf)) ∨
      sf.findID s = none ∧ sf.create s = (sf.seq + 1, ⟨sf.keys ++ [(sf.seq + 1, s)], sf.deleted, sf.seq + 1⟩) := by
  rw [create]
  cases hf : sf.findID s with
  | some id => exact .inl ⟨id, rfl, rfl⟩
  | none =>
    refine .inr ⟨rfl, ?_⟩
    rw [put_of_not_mem h.seq_succ_notMem]

theorem findID_append (keys : List (ℕ × Series K)) (deleted : Finset ℕ) (seq seq' id : ℕ) (s s' : Series K) :
    findID ⟨keys ++ [(id, s)], deleted, seq'⟩ s' =
      (findID ⟨keys, deleted, seq⟩ s').or (if s = s' ∧ id ∉ deleted then some id else none) := by
  rw [findID, findID, find?_append, map_or]
  congr 1
  rw [find?_singleton]
  split_ifs with h₁ h₂ h₂
  · rfl
  · exact absurd (of_decide_eq_true h₁) h₂
  · exact absurd (decide_eq_true h₂) h₁
  · rfl

theorem create_id (h : sf.Sound) (s : Series K) : sf.seq ≤ (sf.create s).2.seq ∧
      (sf.findID s = some (sf.create s).1 ∨ sf.findID s = none ∧ sf.seq < (sf.create s).1) ∧
      ∀ s', (sf.create s).2.findID s' = sf.findID s' ∨
        sf.findID s' = none ∧ ∀ id, (sf.create s).2.findID s' = some id → sf.seq < id := by
  obtain ⟨id, hf, heq⟩ | ⟨hf, heq⟩ := create_cases h s <;> rw [heq]
  · exact ⟨Nat.le_refl _, .inl hf, fun _ => .inl rfl⟩
  · refine ⟨Nat.le_succ _, .inr ⟨hf, Nat.lt_succ_self _⟩, ?_⟩
    intro s'
    rw [findID_append sf.keys sf.deleted sf.seq]
    cases hf' : findID ⟨sf.keys, sf.deleted, sf.seq⟩ s' with
    | some id => exact .inl rfl
    | none =>
      refine .inr ⟨rfl, ?_⟩
      intro id hid
      rw [none_or] at hid
      split_ifs at hid
      rw [← Option.some.inj hid]
      exact Nat.lt_succ_self _

/-- **The id of a created series** is the one that it has, or a new one. -/
theorem createAll_ids (h : sf.Sound) (ss : List (Series K)) : sf.seq ≤ (sf.createAll ss).2.seq ∧
      ∀ x ∈ (sf.createAll ss).1.zip ss, sf.findID x.2 = some x.1 ∨ sf.findID x.2 = none ∧ sf.seq < x.1 := by
  induction ss generalizing sf with
  | nil => exact ⟨Nat.le_refl _, forall_mem_nil _⟩
  | cons s ss ih =>
    obtain ⟨hseq, hid, hothers⟩ := create_id h s
    obtain ⟨hseq', hids⟩ := ih (create_spec h s).1
    refine ⟨hseq.trans hseq', forall_mem_cons.mpr ⟨hid, fun x hx => ?_⟩⟩
    rcases hothers x.2 with heq | ⟨hnone, hnew⟩ <;> rcases hids x hx with hsome | ⟨hsome, hlt⟩
    · exact .inl (heq.symm.trans hsome)
    · exact .inr ⟨heq.symm.trans hsome, Nat.lt_of_le_of_lt hseq hlt⟩
    · exact .inr ⟨hnone, hnew x.1 hsome⟩
    · exact .inr ⟨hnone, Nat.lt_of_le_of_lt hseq hlt⟩

theorem length_createAll (sf : SeriesFile K) (ss : List (Series K)) : (sf.createAll ss).1.length = ss.length := by
  induction ss generalizing sf with
  | nil => rfl
  | cons s ss ih => rw [createAll, length_cons, length_cons, ih]

end SeriesFile

/-! ## Histories -/

/-- Creations, drops of measurements, rolls and compactions. -/
def Op.OnTags : Op K → Prop
  | .dropSeries _ => False
  | .deleteSeriesID _ => False
  | .compactSeriesFile => False
  | _ => True

structure State.Tagged (st : State K) : Prop where
  sfile : st.sfile.Sound
  handed : ∀ id ∈ st.partition.seriesIDSet, id ≤ st.sfile.seq
  partition : st.partition.Tagged st.sfile

/-- A partition together with the tags of the series created since each measurement was last dropped. -/
structure Tracked (K : Type) where
  state : State K
  created : K → List (K × K)

namespace Tracked

def empty : Tracked K := ⟨.empty, fun _ => []⟩

/-- The tags of a measurement created since it was last dropped. -/
def createdStep (created : K → List (K × K)) : Op K → K → List (K × K)
  | .create series, n => created n ++ (series.filter fun s => s.name = n).flatMap (·.tags)
  | .dropMeasurement name, n => if n = name then [] else created n
  | _, n => created n

def step (t : Tracked K) (op : Op K) : Tracked K := ⟨t.state.step op, createdStep t.created op⟩

def run (t : Tracked K) (ops : List (Op K)) : Tracked K := ops.foldl step t

/-- **What should be reported**: exactly the tags created since the last drop. -/
structure Right (t : Tracked K) : Prop where
  hasTagKey : ∀ n k, FileSet.hasTagKey t.state.partition.files n k = true ↔ ∃ v, (k, v) ∈ t.created n
  tagKeys : ∀ n k, k ∈ FileSet.tagKeys t.state.partition.files n ↔ ∃ v, (k, v) ∈ t.created n
  hasTagValue : ∀ n k v, FileSet.hasTagValue t.state.partition.files n k v = true ↔ (k, v) ∈ t.created n
  tagValues : ∀ n k v, v ∈ FileSet.tagValues t.state.partition.files n k ↔ (k, v) ∈ t.created n

variable {t : Tracked K}

theorem right_iff (h : t.state.Tagged) :
    t.Right ↔ ∀ n k v, Shows t.state.partition.files n k v ↔ (k, v) ∈ t.created n := by
  have hclean := h.partition.clean
  have hd := h.partition.distinct
  constructor
  · intro hr n k v
    rw [← hasTagValue_iff hclean]
    exact hr.hasTagValue n k v
  · intro hr
    have hkey (n k : K) : (∃ v, Shows t.state.partition.files n k v) ↔ ∃ v, (k, v) ∈ t.created n :=
      exists_congr fun v => hr n k v
    refine ⟨?_, ?_, ?_, ?_⟩
    · exact fun n k => (hasTagKey_iff hclean).trans (hkey n k)
    · exact fun n k => (mem_tagKeys_iff hclean hd).trans (hkey n k)
    · exact fun n k v => (hasTagValue_iff hclean).trans (hr n k v)
    · exact fun n k v => (mem_tagValues_iff hclean hd).trans (hr n k v)

/-- **The condition on a step**: a measurement that is dropped has no tag keys in the files behind the active log file, and
every tag of a created series is reported already or comes with a series that is not live. -/
def Meets (t : Tracked K) : Op K → Prop
  | .create series =>
    ∀ s ∈ series, ∀ k v, (k, v) ∈ s.tags → FileSet.hasTagValue t.state.partition.files s.name k v = true ∨
        ∃ s' ∈ series, s'.Has s.name k v ∧ ∀ id, t.state.sfile.findID s' = some id → id ∉ t.state.partition.seriesIDSet
  | .dropMeasurement name => FileSet.tagKeys (t.state.partition.older.map Layer.content) name = []
  | _ => True

theorem tagged_step (h : t.state.Tagged) (op : Op K) (hop : op.OnTags) : (t.step op).state.Tagged := by
  cases op with
  | create series =>
    obtain ⟨hs, hext, hkeys⟩ := createAll_spec h.sfile series
    obtain ⟨hseq, -⟩ := createAll_ids h.sfile series
    obtain ⟨htag, -, hset⟩ := (h.partition.extends hext).addSeriesList hkeys
    refine ⟨hs, ?_, htag⟩
    intro id hid
    rcases (hset id).mp hid with hid | hid
    · obtain ⟨x, hx, rfl⟩ := mem_map.mp hid
      exact hs.le _ (mem_of_get (hkeys x hx))
    · exact (h.handed id hid).trans hseq
  | dropMeasurement name => exact ⟨h.sfile, h.handed, h.partition.dropMeasurement name⟩
  | roll => exact ⟨h.sfile, h.handed, h.partition.roll⟩
  | compactLogFile i =>
    refine ⟨h.sfile, ?_, (h.partition.compactLogFile i).1⟩
    show ∀ id ∈ (t.state.partition.compactLogFile i).seriesIDSet, _
    obtain heq | ⟨_, _, _, -, -, heq⟩ := t.state.partition.compactLogFile_cases i <;> rw [heq] <;> exact h.handed
  | compactToLevel i n =>
    refine ⟨h.sfile, ?_, (h.partition.compactToLevel i n).1⟩
    show ∀ id ∈ (t.state.partition.compactToLevel i n).seriesIDSet, _
    obtain heq | ⟨_, _, _, -, -, heq⟩ := t.state.partition.compactToLevel_cases i n <;> rw [heq] <;> exact h.handed
  | dropSeries id | deleteSeriesID id | compactSeriesFile => exact hop.elim

theorem right_step_of_same (h : t.state.Tagged) {op : Op K} (hop : op.OnTags)
    (hshows : ∀ n k v, Shows (t.step op).state.partition.files n k v ↔ Shows t.state.partition.files n k v)
    (hcreated : (t.step op).created = t.created) (hr : t.Right) : (t.step op).Right := by
  rw [right_iff (tagged_step h op hop)]
  intro n k v
  rw [hshows, hcreated]
  exact (right_iff h).mp hr n k v

theorem mem_createdStep_create (created : K → List (K × K)) (series : List (Series K)) :
    (k, v) ∈ createdStep created (.create series) n ↔ (k, v) ∈ created n ∨ ∃ s ∈ series, s.Has n k v := by
  rw [createdStep, mem_append, mem_flatMap]
  refine or_congr Iff.rfl (exists_congr fun s => ?_)
  rw [mem_filter, Series.Has]
  simp only [decide_eq_true_eq, and_assoc]

theorem right_create_iff (h : t.state.Tagged) (hr : t.Right) (series : List (Series K)) :
    (t.step (.create series)).Right ↔ t.Meets (.create series) := by
  obtain ⟨hs, hext, hkeys⟩ := createAll_spec h.sfile series
  obtain ⟨-, hids⟩ := createAll_ids h.sfile series
  obtain ⟨-, hshows, -⟩ := (h.partition.extends hext).addSeriesList hkeys
  have hold := (right_iff h).mp hr
  -- A series is written precisely if the id that it has, if any, is not live.
  have hwritten : ∀ n k v,
      (∃ x ∈ (t.state.sfile.createAll series).1.zip series, x.1 ∉ t.state.partition.seriesIDSet ∧ x.2.Has n k v) ↔
        ∃ s ∈ series, s.Has n k v ∧ ∀ id, t.state.sfile.findID s = some id → id ∉ t.state.partition.seriesIDSet := by
    intro n k v
    constructor
    · rintro ⟨x, hx, hlive, hhas⟩
      refine ⟨x.2, (of_mem_zip hx).2, hhas, ?_⟩
      intro id hid
      rcases hids x hx with hsome | ⟨hnone, -⟩
      · rw [hsome] at hid
        exact Option.some.inj hid ▸ hlive
      · rw [hnone] at hid
        cases hid
    · rintro ⟨s, hmem, hhas, hlive⟩
      obtain ⟨i, hi, rfl⟩ := getElem_of_mem hmem
      have hlen := length_createAll t.state.sfile series
      have hi' : i < (t.state.sfile.createAll series).1.length := hlen ▸ hi
      have hx : ((t.state.sfile.createAll series).1[i], series[i]) ∈ (t.state.sfile.createAll series).1.zip series :=
        mem_iff_getElem.mpr ⟨i, by rw [length_zip, hlen, Nat.min_self]; exact hi, getElem_zip⟩
      refine ⟨_, hx, ?_, hhas⟩
      rcases hids _ hx with hsome | ⟨-, hlt⟩
      · exact hlive _ hsome
      · exact fun hm => Nat.not_le_of_lt hlt (h.handed _ hm)
  rw [right_iff (tagged_step h (.create series) trivial), Meets]
  have hafter : ∀ n k v, Shows (t.step (.create series)).state.partition.files n k v ↔
      (∃ s ∈ series, s.Has n k v ∧ ∀ id, t.state.sfile.findID s = some id → id ∉ t.state.partition.seriesIDSet) ∨
        (k, v) ∈ t.created n := by
    intro n k v
    rw [← hwritten, ← hold]
    exact hshows n k v
  have hreported (n k v : K) : hasTagValue t.state.partition.files n k v = true ↔ (k, v) ∈ t.created n :=
    hr.hasTagValue n k v
  constructor
  · intro h' s hmem k v htag
    rw [hreported]
    have hin : (k, v) ∈ createdStep t.created (.create series) s.name :=
      (mem_createdStep_create t.created series).mpr (.inr ⟨s, hmem, rfl, htag⟩)
    exact ((hafter s.name k v).mp ((h' s.name k v).mpr hin)).symm
  · intro h' n k v
    show _ ↔ (k, v) ∈ createdStep t.created (.create series) n
    rw [hafter, mem_createdStep_create]
    constructor
    · rintro (⟨s, hmem, hhas, -⟩ | hold)
      · exact .inr ⟨s, hmem, hhas⟩
      · exact .inl hold
    · rintro (hold | ⟨s, hmem, rfl, htag⟩)
      · exact .inr hold
      · rcases h' s hmem k v htag with hrep | hnew
        · exact .inr ((hreported s.name k v).mp hrep)
        · exact .inl hnew

theorem right_dropMeasurement_iff (h : t.state.Tagged) (hr : t.Right) (name : K) :
    (t.step (.dropMeasurement name)).Right ↔ t.Meets (.dropMeasurement name) := by
  have hold := (right_iff h).mp hr
  have hclean : ∀ f ∈ t.state.partition.older.map content, f.Clean t.state.sfile :=
    (forall_mem_cons.mp h.partition.clean).2
  have hd : ∀ f ∈ t.state.partition.older.map content, f.Distinct :=
    (forall_mem_cons.mp h.partition.distinct).2
  rw [right_iff (tagged_step h (.dropMeasurement name) trivial), Meets, eq_nil_iff_forall_not_mem]
  have hafter : ∀ n k v, Shows (t.step (.dropMeasurement name)).state.partition.files n k v ↔
      if n = name then Shows (t.state.partition.older.map content) n k v else (k, v) ∈ t.created n := by
    intro n k v
    refine (shows_dropMeasurement h.partition name).trans ?_
    split_ifs
    · rfl
    · exact hold n k v
  constructor
  · intro h' k hk
    obtain ⟨v, hv⟩ := (mem_tagKeys_iff hclean hd).mp hk
    have hin := (h' name k v).mp ((hafter name k v).mpr (by rwa [if_pos rfl]))
    have hin : (k, v) ∈ if name = name then [] else t.created name := hin
    rw [if_pos rfl] at hin
    exact not_mem_nil hin
  · intro h' n k v
    show _ ↔ (k, v) ∈ if n = name then [] else t.created n
    rw [hafter]
    split_ifs with hn
    · subst hn
      refine iff_of_false ?_ not_mem_nil
      exact fun hv => h' k ((mem_tagKeys_iff hclean hd).mpr ⟨v, hv⟩)
    · rfl

/-- **One step.** -/
theorem right_step_iff (h : t.state.Tagged) (hr : t.Right) {op : Op K} (hop : op.OnTags) :
    (t.step op).Right ↔ t.Meets op := by
  cases op with
  | create series => exact right_create_iff h hr series
  | dropMeasurement name => exact right_dropMeasurement_iff h hr name
  | roll =>
    exact iff_of_true (right_step_of_same h hop (fun _ _ _ => shows_roll _) rfl hr) trivial
  | compactLogFile i =>
    exact iff_of_true (right_step_of_same h hop (h.partition.compactLogFile i).2 rfl hr) trivial
  | compactToLevel i n =>
    exact iff_of_true (right_step_of_same h hop (h.partition.compactToLevel i n).2 rfl hr) trivial
  | dropSeries id | deleteSeriesID id | compactSeriesFile => exact hop.elim

theorem tagged_empty : (empty : Tracked K).state.Tagged :=
  ⟨sound_empty, fun id hid => absurd hid (Finset.notMem_empty id), Partition.tagged_empty⟩

theorem right_empty : (empty : Tracked K).Right := by
  rw [right_iff tagged_empty]
  intro n k v
  refine iff_of_false ?_ not_mem_nil
  rintro ⟨f, hf, hv⟩
  obtain rfl := mem_singleton.mp hf
  cases hv

/-- **Tags are reported exactly** throughout a history of creations, drops of measurements, rolls and compactions precisely if
every step meets the condition. -/
theorem tags_reported_exactly_iff (ops : List (Op K)) (hops : ∀ op ∈ ops, op.OnTags) :
    (∀ pre, pre <+: ops → ((empty : Tracked K).run pre).Right) ↔
      ∀ pre op, pre ++ [op] <+: ops → ((empty : Tracked K).run pre).Meets op :=
  @right_throughout_iff _ _ step (fun t => t.state.Tagged) Right Op.OnTags Meets empty
    (fun _ op hop h => tagged_step h op hop) (fun _ _ hop h hr => right_step_iff h hr hop) ops hops tagged_empty right_empty

theorem meets_create_of_new (h : t.state.sfile.findID s = none) : t.Meets (.create [s]) := by
  intro s' hs k v htag
  obtain rfl := mem_singleton.mp hs
  refine .inr ⟨s', hs, ⟨rfl, htag⟩, ?_⟩
  intro id hid
  rw [h] at hid
  cases hid

/-- A measurement that is dropped before the log file is rolled, and then created with another series. -/
theorem dropped_in_active_log :
    ((empty : Tracked ℕ).run [.create [⟨1, [(2, 3)]⟩], .dropMeasurement 1, .create [⟨1, [(2, 4)]⟩]]).Right := by
  refine (tags_reported_exactly_iff [.create [⟨1, [(2, 3)]⟩], .dropMeasurement 1, .create [⟨1, [(2, 4)]⟩]] ?_).mpr ?_ _
    List.prefix_rfl
  · intro op hop
    simp only [mem_cons, not_mem_nil, or_false] at hop
    rcases hop with rfl | rfl | rfl <;> trivial
  · refine meets_throughout_cons (meets_create_of_new rfl) (meets_throughout_cons rfl ?_)
    exact meets_throughout_cons (meets_create_of_new (by decide)) meets_throughout_nil

/-- The tags of a dropped measurement are reported if they are in an older file, and the tags of a series that is created
again are not reported if they are in none. -/
theorem dropped_tags_stay_and_new_ones_are_missing :
    FileSet.hasTagKey ((State.empty : State ℕ).run [.create [⟨1, [(2, 3)]⟩], .roll, .dropMeasurement 1]).partition.files 1 2 = true ∧
      FileSet.hasTagKey ((State.empty : State ℕ).run [.create [⟨1, [(2, 3)]⟩], .dropMeasurement 1,
        .create [⟨1, [(2, 3)]⟩]]).partition.files 1 2 = false := by
  decide

end Tracked

end Influxdb.Tsi1
