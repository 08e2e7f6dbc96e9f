import Influxdb.Tsi1.Partition

/-!
# Lookup — lookups in files that entries and compactions make

What each lookup finds after an entry has been executed, in the index file of a log file, and in the index file of a run of
index files.  The maps of a log file have distinct keys and those of an index file increasing ones; the two are stated once,
for a property of lists of keys.
-/

namespace Influxdb.Tsi1

open List Assoc
open Option (bind_some map_some)

variable {K : Type} [LinearOrder K] {n k v : K} {f : File K} {s : Series K} {deleted : Bool} {id : ℕ}
variable {tagSet : List (K × TagKey K)} {ts : TagKey K}

/-! ## Maps -/

variable {α : Type}

def Keys (P : List K → Prop) (l : List (K × α)) : Prop := P (l.map Prod.fst)

/-- The keys of all maps of a file have a property. -/
structure File.Maps (P : List K → Prop) (f : File K) : Prop where
  mms : Keys P f.mms
  tagSet : ∀ m ∈ f.mms, Keys P m.2.tagSet
  values : ∀ m ∈ f.mms, ∀ t ∈ m.2.tagSet, Keys P t.2.values

/-- Distinct keys, as the maps of a log file have them. -/
abbrev File.Distinct (f : File K) : Prop := f.Maps Nodup

/-- Increasing keys, as the maps of an index file have them. -/
abbrev File.Sorted (f : File K) : Prop := f.Maps fun ks => ks.Pairwise (· < ·)

variable {l : List (K × α)}

theorem increasing_iff_keys : Increasing l ↔ Keys (fun ks => ks.Pairwise (· < ·)) l :=
  pairwise_map.symm

theorem File.Sorted.distinct (h : f.Sorted) : f.Distinct :=
  ⟨h.mms.imp fun hlt => ne_of_lt hlt, fun m hm => (h.tagSet m hm).imp fun hlt => ne_of_lt hlt,
    fun m hm t ht => (h.values m hm t ht).imp fun hlt => ne_of_lt hlt⟩

theorem sortMap_perm (l : List (K × α)) : (sortMap l).Perm l := insertionSort_perm l

theorem get_sortMap (h : Keys Nodup l) (k : K) : get k (sortMap l) = get k l :=
  get_eq_of_perm h (sortMap_perm l) k

theorem increasing_sortMap (h : Keys Nodup l) : Increasing (sortMap l) := by
  have hchain : (sortMap l).IsChain fun p q => p.1 ≤ q.1 := by
    refine (isChain_insertionSort ?_ l).imp ?_
    · intro p q hpq
      have hlt : p.1 < q.1 := by simpa using hpq
      simpa using le_of_lt hlt
    · intro p q hpq
      simpa [NotAfter] using hpq
  have : IsTrans (K × α) fun p q => p.1 ≤ q.1 := ⟨fun _ _ _ => le_trans⟩
  have hle : (sortMap l).Pairwise fun p q => p.1 ≤ q.1 := isChain_iff_pairwise.mp hchain
  have hnd : ((sortMap l).map Prod.fst).Nodup := ((sortMap_perm l).map Prod.fst).nodup_iff.mpr h
  exact hle.imp₂ (fun p q hpq hne => lt_of_le_of_ne hpq hne) (pairwise_map.mp hnd)

theorem get_map_snd {α β : Type} (g : K → α → β) (l : List (K × α)) (k : K) :
    get k (l.map fun p => (p.1, g p.1 p.2)) = (get k l).map (g k) := by
  induction l with
  | nil => rfl
  | cons p l ih =>
    rw [map_cons, get_cons, get_cons, ih]
    split_ifs with hp
    · rw [hp]
      rfl
    · rfl

theorem keys_put (h : Keys Nodup l) (k : K) (a : α) : Keys Nodup (put k a l) :=
  nodup_put h k a

/-! ## Tag sets -/

def lookupValue (tagSet : List (K × TagKey K)) (k v : K) : Option TagValue :=
  (get k tagSet).bind fun ts => get v ts.values

/-- The series of a tag value in a tag set. -/
def lookupSeries (tagSet : List (K × TagKey K)) (k v : K) : Finset ℕ :=
  ((lookupValue tagSet k v).map (·.series)).getD ∅

theorem lookupValue_updateTagValue (g : TagValue → TagValue) (tagSet : List (K × TagKey K)) (tag : K × K) (k v : K) :
    lookupValue (updateTagValue g tagSet tag) k v =
      if (k, v) = tag then some (g ((lookupValue tagSet tag.1 tag.2).getD ⟨false, ∅⟩)) else lookupValue tagSet k v := by
  obtain ⟨k', v'⟩ := tag
  rw [lookupValue, updateTagValue]
  by_cases hk : k = k'
  · subst hk
    rw [get_put_self, bind_some]
    by_cases hv : v = v'
    · subst hv
      rw [get_put_self, if_pos rfl, TagKey.createTagValueIfNotExists, createTagSetIfNotExists, lookupValue]
      cases get k tagSet <;> rfl
    · rw [get_put_of_ne hv, if_neg (by simpa using hv), createTagSetIfNotExists, lookupValue]
      cases get k tagSet <;> rfl
  · rw [get_put_of_ne hk, if_neg (by simp [hk]), lookupValue]

theorem touch_touch (deleted : Bool) (id : ℕ) (s : Finset ℕ) :
    touch deleted id (touch deleted id s) = touch deleted id s := by
  cases deleted <;> simp [touch]

theorem lookupSeries_updateTagValue (deleted : Bool) (id : ℕ) (tagSet : List (K × TagKey K)) (tag : K × K) (k v : K) :
    lookupSeries (updateTagValue (fun tv => { tv with series := touch deleted id tv.series }) tagSet tag) k v =
      if (k, v) = tag then touch deleted id (lookupSeries tagSet k v) else lookupSeries tagSet k v := by
  rw [lookupSeries, lookupValue_updateTagValue]
  by_cases h : (k, v) = tag
  · subst h
    rw [if_pos rfl, if_pos rfl, lookupSeries]
    cases lookupValue tagSet k v <;> rfl
  · rw [if_neg h, if_neg h, lookupSeries]

/-- The series of a tag value after an id has been added to, or removed from, all tags of a series. -/
theorem lookupSeries_foldl (deleted : Bool) (id : ℕ) (tags : List (K × K)) (tagSet : List (K × TagKey K)) (k v : K) :
    lookupSeries (tags.foldl (updateTagValue fun tv => { tv with series := touch deleted id tv.series }) tagSet) k v =
      if (k, v) ∈ tags then touch deleted id (lookupSeries tagSet k v) else lookupSeries tagSet k v := by
  induction tags generalizing tagSet with
  | nil => rfl
  | cons tag tags ih =>
    rw [foldl_cons, ih, lookupSeries_updateTagValue]
    by_cases htag : (k, v) = tag
    · subst htag
      rw [if_pos rfl, touch_touch, ite_self, if_pos mem_cons_self]
    · rw [if_neg htag]
      simp only [mem_cons, htag, false_or]

/-! ## Entries -/

def Series.Has (s : Series K) (n k v : K) : Prop := s.name = n ∧ (k, v) ∈ s.tags

instance (s : Series K) (n k v : K) : Decidable (s.Has n k v) := inferInstanceAs (Decidable (_ ∧ _))

namespace File

theorem tagValue_eq (f : File K) (n k v : K) :
    f.tagValue n k v = (f.measurement n).bind fun mm => lookupValue mm.tagSet k v := by
  rw [tagValue, tagKey, Option.bind_assoc]
  rfl

theorem tagValueSeriesIDSet_eq (f : File K) (n k v : K) :
    f.tagValueSeriesIDSet n k v = ((f.measurement n).map fun mm => lookupSeries mm.tagSet k v).getD ∅ := by
  rw [tagValueSeriesIDSet, tagValue_eq]
  cases f.measurement n <;> rfl

theorem tagValueSeriesIDSet_createMeasurement (f : File K) (n k v : K) :
    lookupSeries (f.createMeasurementIfNotExists n).tagSet k v = f.tagValueSeriesIDSet n k v := by
  rw [tagValueSeriesIDSet_eq, createMeasurementIfNotExists]
  cases f.measurement n <;> rfl

/-- **The series of a tag value after a series entry.** -/
theorem tagValueSeriesIDSet_execSeries (s : Series K) (deleted : Bool) (id : ℕ) (f : File K) (n k v : K) :
    (f.execSeries s deleted id).tagValueSeriesIDSet n k v =
      if s.Has n k v then touch deleted id (f.tagValueSeriesIDSet n k v) else f.tagValueSeriesIDSet n k v := by
  rw [tagValueSeriesIDSet_eq, execSeries, measurement]
  by_cases hn : n = s.name
  · subst hn
    rw [get_put_self]
    simp only [map_some, Option.getD_some, lookupSeries_foldl, tagValueSeriesIDSet_createMeasurement]
    simp only [Series.Has, true_and]
  · rw [get_put_of_ne hn, if_neg fun h => hn h.1.symm, tagValueSeriesIDSet_eq, measurement]

/-! ## Distinct keys -/

/-- The tag keys of a tag set, and the values of each, are distinct. -/
def DistinctTags (tagSet : List (K × TagKey K)) : Prop :=
  Keys Nodup tagSet ∧ ∀ t ∈ tagSet, Keys Nodup t.2.values

theorem distinctTags_put (h : DistinctTags tagSet) (k : K)
    (hts : Keys Nodup ts.values) : DistinctTags (put k ts tagSet) := by
  refine ⟨keys_put h.1 k ts, ?_⟩
  intro t ht
  rcases mem_put ht with rfl | ht
  · exact hts
  · exact h.2 t ht

theorem keys_createTagSet (h : DistinctTags tagSet) (k : K) : Keys Nodup (createTagSetIfNotExists tagSet k).values := by
  rw [createTagSetIfNotExists]
  cases hk : get k tagSet with
  | none => exact nodup_nil
  | some ts => exact h.2 (k, ts) (mem_of_get hk)

theorem distinctTags_updateTagValue (h : DistinctTags tagSet) (g : TagValue → TagValue)
    (tag : K × K) : DistinctTags (updateTagValue g tagSet tag) :=
  distinctTags_put h tag.1 (keys_put (keys_createTagSet h tag.1) tag.2 _)

theorem Distinct.createMeasurement (h : f.Distinct) (n : K) : DistinctTags (f.createMeasurementIfNotExists n).tagSet := by
  rw [createMeasurementIfNotExists]
  cases hn : f.measurement n with
  | none => exact ⟨nodup_nil, forall_mem_nil _⟩
  | some mm => exact ⟨h.tagSet (n, mm) (mem_of_get hn), h.values (n, mm) (mem_of_get hn)⟩

theorem Distinct.put (h : f.Distinct) (n : K) {mm : Measurement K} (hmm : DistinctTags mm.tagSet)
    (ins tombs : Finset ℕ) : (File.mk (put n mm f.mms) ins tombs).Distinct := by
  refine ⟨keys_put h.mms n mm, ?_, ?_⟩
  · intro m hm
    rcases mem_put hm with rfl | hm
    · exact hmm.1
    · exact h.tagSet m hm
  · intro m hm
    rcases mem_put hm with rfl | hm
    · exact hmm.2
    · exact h.values m hm

omit [LinearOrder K] in
theorem distinct_empty : (File.empty : File K).Distinct :=
  ⟨nodup_nil, forall_mem_nil _, forall_mem_nil _⟩

theorem Distinct.execSeries (h : f.Distinct) (s : Series K) (deleted : Bool) (id : ℕ) :
    (f.execSeries s deleted id).Distinct := by
  refine h.put s.name ?_ _ _
  have key : ∀ (tags : List (K × K)) {tagSet : List (K × TagKey K)}, DistinctTags tagSet →
      DistinctTags (tags.foldl (updateTagValue fun tv => { tv with series := touch deleted id tv.series }) tagSet) := by
    intro tags
    induction tags with
    | nil => exact fun hts => hts
    | cons tag tags ih => exact fun hts => ih (distinctTags_updateTagValue hts _ tag)
  exact key s.tags (h.createMeasurement s.name)

/-- **Executing entries keeps the keys distinct.** -/
theorem Distinct.execEntry (h : f.Distinct) (seriesKey : ℕ → Option (Series K)) (e : LogEntry K) :
    (f.execEntry seriesKey e).Distinct := by
  cases e with
  | measurementTombstone n =>
    refine h.put n ?_ _ _
    exact ⟨nodup_nil, forall_mem_nil _⟩
  | tagKeyTombstone n k =>
    refine h.put n ?_ _ _
    exact distinctTags_put (h.createMeasurement n) k (keys_createTagSet (h.createMeasurement n) k)
  | tagValueTombstone n k v =>
    refine h.put n ?_ _ _
    exact distinctTags_updateTagValue (h.createMeasurement n) (fun tv => { tv with deleted := true }) (k, v)
  | series deleted id =>
    rw [File.execEntry]
    cases seriesKey id with
    | none => exact h
    | some s => exact h.execSeries s deleted id

end File

/-! ## The index file of a log file -/

namespace File

variable (h : f.Distinct)
include h

theorem measurement_compactLog (n : K) : f.compactLog.measurement n = (f.measurement n).map Measurement.compact := by
  rw [measurement, compactLog, get_map_snd fun _ mm => Measurement.compact mm, get_sortMap h.mms, measurement]

theorem tagKey_compactLog (n k : K) : f.compactLog.tagKey n k = (f.tagKey n k).map TagKey.compact := by
  rw [tagKey, measurement_compactLog h, tagKey]
  cases hn : f.measurement n with
  | none => rfl
  | some mm =>
    rw [map_some, bind_some, bind_some, Measurement.compact,
      get_map_snd fun _ ts => TagKey.compact ts, get_sortMap (h.tagSet (n, mm) (mem_of_get hn))]

theorem keys_values_of_tagKey (hts : f.tagKey n k = some ts) : Keys Nodup ts.values := by
  obtain ⟨mm, hmm, hk⟩ := Option.bind_eq_some_iff.mp hts
  exact h.values (n, mm) (mem_of_get hmm) (k, ts) (mem_of_get hk)

theorem tagValue_compactLog (n k v : K) :
    f.compactLog.tagValue n k v = if ((f.tagKey n k).map (·.deleted)).getD false then none else f.tagValue n k v := by
  rw [tagValue, tagKey_compactLog h, tagValue]
  cases hk : f.tagKey n k with
  | none => rfl
  | some ts =>
    rw [map_some, bind_some, bind_some, TagKey.compact, map_some, Option.getD_some]
    split_ifs with hd
    · rfl
    · rw [get_sortMap (keys_values_of_tagKey h hk)]

theorem sorted_compactLog : f.compactLog.Sorted := by
  have hkeys : ∀ {α β : Type} {l : List (K × α)} (g : α → β), Keys Nodup l →
      Keys (fun ks => ks.Pairwise (· < ·)) ((sortMap l).map fun p => (p.1, g p.2)) := by
    intro α β l g hl
    rw [Keys, map_map]
    exact increasing_iff_keys.mp (increasing_sortMap hl)
  refine ⟨hkeys Measurement.compact h.mms, ?_, ?_⟩
  · refine forall_mem_map.mpr fun m' hm' => ?_
    exact hkeys TagKey.compact (h.tagSet m' ((sortMap_perm f.mms).subset hm'))
  · refine forall_mem_map.mpr fun m' hm' => forall_mem_map.mpr fun t' ht' => ?_
    have hvalues := h.values m' ((sortMap_perm f.mms).subset hm') t' ((sortMap_perm m'.2.tagSet).subset ht')
    show Keys _ (if t'.2.deleted then [] else sortMap t'.2.values)
    split_ifs
    · exact Pairwise.nil
    · exact increasing_iff_keys.mp (increasing_sortMap hvalues)

end File

/-! ## The index file of a run of index files -/

namespace IndexFiles

variable {p : List (File K)}

omit [LinearOrder K] in
theorem foldl_union (g : File K → Finset ℕ) (p : List (File K)) (init : Finset ℕ) (i : ℕ) :
    i ∈ p.foldl (fun ss f => ss ∪ g f) init ↔ i ∈ init ∨ ∃ f ∈ p, i ∈ g f := by
  induction p generalizing init with
  | nil => simp
  | cons f p ih =>
    rw [foldl_cons, ih, Finset.mem_union, or_assoc]
    simp

theorem increasing_mms (h : ∀ f ∈ p, f.Sorted) : ∀ l ∈ p.map (·.mms), Increasing l := by
  refine forall_mem_map.mpr fun f hf => ?_
  exact increasing_iff_keys.mpr (h f hf).mms

theorem increasing_tagSets (h : ∀ f ∈ p, f.Sorted) (n : K) :
    ∀ l ∈ p.filterMap fun f => (f.measurement n).map (·.tagSet), Increasing l := by
  intro l hl
  obtain ⟨f, hf, hl⟩ := mem_filterMap.mp hl
  obtain ⟨mm, hmm, rfl⟩ := Option.map_eq_some_iff.mp hl
  exact increasing_iff_keys.mpr ((h f hf).tagSet (n, mm) (mem_of_get hmm))

omit [LinearOrder K] in
theorem mem_of_mem_untilTombstone {group : List (TagKey K)} (h : ts ∈ untilTombstone group) : ts ∈ group := by
  induction group with
  | nil => exact h
  | cons t group ih =>
    rw [untilTombstone] at h
    split_ifs at h
    · exact mem_singleton.mp h ▸ mem_cons_self
    · exact (mem_cons.mp h).elim (fun heq => heq ▸ mem_cons_self) fun hm => mem_cons_of_mem t (ih hm)

def keyGroup (p : List (File K)) (n k : K) : List (TagKey K) := p.filterMap fun f => f.tagKey n k

theorem groupOf_tagSets (n k : K) :
    groupOf k (p.filterMap fun f => (f.measurement n).map (·.tagSet)) = keyGroup p n k := by
  rw [groupOf, filterMap_filterMap, keyGroup]
  refine filterMap_congr fun f _ => ?_
  rw [File.tagKey]
  cases f.measurement n <;> rfl

theorem increasing_values (h : ∀ f ∈ p, f.Sorted) {n k : K} :
    ∀ l ∈ (untilTombstone (keyGroup p n k)).map (·.values), Increasing l := by
  refine forall_mem_map.mpr fun ts hts => ?_
  obtain ⟨f, hf, hk⟩ := mem_filterMap.mp (mem_of_mem_untilTombstone hts)
  obtain ⟨mm, hmm, hk⟩ := Option.bind_eq_some_iff.mp hk
  exact increasing_iff_keys.mpr ((h f hf).values (n, mm) (mem_of_get hmm) (k, ts) (mem_of_get hk))

/-- The tag values that the files have, as far as they count. -/
def valueGroup (p : List (File K)) (n k v : K) : List TagValue :=
  (untilTombstone (keyGroup p n k)).filterMap fun ts => get v ts.values

variable (h : ∀ f ∈ p, f.Sorted)
include h

theorem measurement_compact (n : K) : (compact p).measurement n =
      if p.filterMap (fun f => f.measurement n) = [] then none
      else some (mergedMeasurement p n (p.filterMap fun f => f.measurement n)) := by
  rw [File.measurement, compact, get_map_snd (mergedMeasurement p), get_mergeGroups (increasing_mms h), groupOf,
    filterMap_map]
  show (if p.filterMap (fun f => f.measurement n) = [] then none else some _).map _ = _
  split_ifs <;> rfl

/-- **The tag key of a run of files** has the flag of the newest file that has it. -/
theorem tagKey_compact (n k : K) :
    (compact p).tagKey n k = if keyGroup p n k = [] then none else some (mergedKey p n k (keyGroup p n k)) := by
  rw [File.tagKey, measurement_compact h]
  by_cases hnil : p.filterMap (fun f => f.measurement n) = []
  · have hkeys : keyGroup p n k = [] := by
      rw [keyGroup, filterMap_eq_nil_iff]
      intro f hf
      rw [File.tagKey, filterMap_eq_nil_iff.mp hnil f hf]
      rfl
    rw [if_pos hnil, if_pos hkeys]
    rfl
  · rw [if_neg hnil, bind_some]
    show get k (mergedTagSet p n) = _
    rw [mergedTagSet, get_map_snd (mergedKey p n), get_mergeGroups (increasing_tagSets h n), groupOf_tagSets]
    split_ifs <;> rfl

/-- **The tag value of a run of files**: the flag of the newest file that counts, and the series of all files. -/
theorem tagValue_compact (n k v : K) : (compact p).tagValue n k v =
      if valueGroup p n k v = [] then none else some (mergedValue p n k v (valueGroup p n k v)) := by
  rw [File.tagValue, tagKey_compact h]
  by_cases hnil : keyGroup p n k = []
  · have hvalues : valueGroup p n k v = [] := by
      rw [valueGroup, hnil]
      rfl
    rw [if_pos hnil, if_pos hvalues]
    rfl
  · rw [if_neg hnil, bind_some]
    show get v (mergedValues p n k (keyGroup p n k)) = _
    rw [mergedValues, get_map_snd (mergedValue p n k), get_mergeGroups (increasing_values h), groupOf, filterMap_map]
    show (if valueGroup p n k v = [] then none else some (valueGroup p n k v)).map _ = _
    split_ifs <;> rfl

theorem sorted_compact : (compact p).Sorted := by
  have hkeys : ∀ {α β : Type} {ls : List (List (K × α))} (g : K → List α → β), (∀ l ∈ ls, Increasing l) →
      Keys (fun ks => ks.Pairwise (· < ·)) ((mergeGroups ls).map fun q => (q.1, g q.1 q.2)) := by
    intro α β ls g hls
    rw [Keys, map_map]
    exact increasing_iff_keys.mp (increasing_mergeGroups hls)
  refine ⟨hkeys (mergedMeasurement p) (increasing_mms h), ?_, ?_⟩
  · exact forall_mem_map.mpr fun m _ => hkeys (mergedKey p m.1) (increasing_tagSets h m.1)
  · refine forall_mem_map.mpr fun m _ => forall_mem_map.mpr fun t ht => ?_
    have hgroup : t.2 = keyGroup p m.1 t.1 := by
      have hinc := increasing_tagSets h m.1
      have hget := (get_eq_some_iff (increasing_mergeGroups hinc).nodup).mpr ht
      rw [get_mergeGroups hinc, groupOf_tagSets] at hget
      split_ifs at hget
      exact (Option.some.inj hget).symm
    rw [hgroup]
    exact hkeys (mergedValue p m.1 t.1) (increasing_values h)

end IndexFiles

end Influxdb.Tsi1
