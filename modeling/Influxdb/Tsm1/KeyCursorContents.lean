import Influxdb.Tsm1.KeyCursorRun

/-!
# KeyCursorContents — what a new key cursor finds

The locations of a new cursor hold all points of the files from the seek time on, in the order of the
files (`lastOf_locations`).  The sort only exchanges blocks that do not overlap, so it keeps the
last-write-wins map (`lastOf_sorted`), and the run of `KeyCursorRun` returns it.
-/

namespace Influxdb.Tsm1

open List Cursors Timed KeyCursor TSMFile KeyIndex Location

variable {Buf V : Type*} {C : BlockCodec Buf V} {ty : BlockType} {key : Key} {t : Int} {asc : Bool} {s : Int}

/-- The watermark of a new cursor. -/
def startMark (asc : Bool) (t : Int) : Int := if asc then t - 1 else t + 1

theorem not_done_startMark : ¬ Done asc (startMark asc t) s ↔ if asc then t ≤ s else s ≤ t := by
  unfold Done startMark
  split_ifs <;> omega

theorem int64_eq {x : Int} (h1 : minInt64 ≤ x) (h2 : x ≤ maxInt64) : int64 x = x := by
  unfold minInt64 at h1
  unfold maxInt64 at h2
  unfold int64
  omega

/-! ## The locations of a file -/

namespace TSMFile

variable {f : TSMFile Buf} {ie : IndexEntry Buf} {l : Location Buf}

theorem location?_eq_some (h : f.location? key t asc ie = some l) :
    l.r = f ∧ l.entry = ie ∧ (if asc then t ≤ ie.maxTime else ie.minTime ≤ t) ∧
      (if asc then l.readMin = minInt64 ∧ l.readMax = int64 (t - 1)
        else l.readMax = maxInt64 ∧ l.readMin = int64 (t + 1)) := by
  unfold location? at h
  cases asc
  all_goals
    simp only [Bool.true_and, Bool.not_true, Bool.not_false, Bool.false_and, Bool.false_eq_true, if_false, if_true] at h ⊢
    split_ifs at h with h1 h2
    cases h
    exact ⟨rfl, rfl, by simpa using h2, rfl, rfl⟩

theorem valueAt_of_location?_eq_none (hs : ie.Sound C ty) (h : f.location? key t asc ie = none)
    (hsm : ¬ Done asc (startMark asc t) s) : valueAt (liveOf C ty (f.reader.tombstoneRange key) ie.b) s = none := by
  refine valueAt_eq_none.mpr fun p hp hps => ?_
  obtain ⟨h1, h2⟩ := hs.mem_range_of_live hp
  rw [not_done_startMark] at hsm
  unfold location? at h
  split_ifs at h with hany h3 h4 hasc
  · obtain ⟨ts, hts, hcov⟩ := any_eq_true.mp hany
    rw [Bool.and_eq_true, decide_eq_true_eq, decide_eq_true_eq] at hcov
    have hlive : Live (f.reader.tombstoneRange key) p.1 := by simpa using (mem_filter.mp hp).2
    exact hlive ts hts ⟨by omega, by omega⟩
  · rw [Bool.and_eq_true, decide_eq_true_eq] at h3
    rw [if_pos h3.1] at hsm
    omega
  · rw [Bool.and_eq_true, decide_eq_true_eq, Bool.not_eq_true'] at h4
    rw [if_neg (by simp [h4.1])] at hsm
    omega

theorem at_of_location?_eq_some (hs : ie.Sound C ty) (ht : minNanoTime ≤ t) (ht' : t ≤ maxNanoTime)
    (h : f.location? key t asc ie = some l) : l.At C ty key asc (startMark asc t) := by
  obtain ⟨h1, h2, -, h3⟩ := location?_eq_some h
  have hb1 : minInt64 + 2 ≤ t := ht
  have hb2 : t ≤ maxInt64 - 1 := ht'
  have hmM : minInt64 < maxInt64 := by decide
  rw [int64_eq (by omega) (by omega), int64_eq (by omega) (by omega)] at h3
  have hsound : l.entry.Sound C ty := h2.symm ▸ hs
  have h5 := hsound.minInt64_le
  have h6 := hsound.le_maxInt64
  refine ⟨hsound, ?_, fun p hp hd => ?_⟩
  · unfold startMark
    split_ifs at h3 ⊢ <;> omega
  · have h4 := hsound.mem_range_of_live hp
    unfold Done startMark at hd
    split_ifs at h3 hd <;> omega

end TSMFile

/-! ## The time range of a file -/

theorem KeyIndex.widen_spec (range : Int × Int) (ki : KeyIndex Buf) :
    (ki.widen range).1 ≤ range.1 ∧ range.2 ≤ (ki.widen range).2 ∧
      (∀ e, ki.entries.head? = some e → (ki.widen range).1 ≤ e.minTime) ∧
      ∀ e, ki.entries.getLast? = some e → e.maxTime ≤ (ki.widen range).2 := by
  refine ⟨?_, ?_, fun e he => ?_, fun e he => ?_⟩
  · cases h : ki.entries.head? with
    | none => simp [widen, h]
    | some e => simp only [widen, h, Option.elim_some]; split_ifs <;> omega
  · cases h : ki.entries.getLast? with
    | none => simp [widen, h]
    | some e => simp only [widen, h, Option.elim_some]; split_ifs <;> omega
  · simp only [widen, he, Option.elim_some]
    split_ifs <;> omega
  · simp only [widen, he, Option.elim_some]
    split_ifs <;> omega

theorem foldl_widen_spec : ∀ (kis : List (KeyIndex Buf)) (range : Int × Int),
    (kis.foldl widen range).1 ≤ range.1 ∧ range.2 ≤ (kis.foldl widen range).2 ∧
      ∀ ki ∈ kis, (∀ e, ki.entries.head? = some e → (kis.foldl widen range).1 ≤ e.minTime) ∧
        ∀ e, ki.entries.getLast? = some e → e.maxTime ≤ (kis.foldl widen range).2
  | [], range => ⟨le_rfl, le_rfl, forall_mem_nil _⟩
  | ki :: kis, range => by
    obtain ⟨h1, h2, h3, h4⟩ := ki.widen_spec range
    obtain ⟨h5, h6, h7⟩ := foldl_widen_spec kis (ki.widen range)
    rw [foldl_cons]
    refine ⟨h5.trans h1, h2.trans h6, forall_mem_cons.mpr ⟨?_, h7⟩⟩
    exact ⟨fun e he => h5.trans (h3 e he), fun e he => (h4 e he).trans h6⟩

section SoundAt

variable {r : TSMReader Buf}

theorem TSMReader.SoundAt.readEntries_spec (h : r.SoundAt C ty key) : (∀ e ∈ r.readEntries key, e.Sound C ty) ∧
      (r.readEntries key).Pairwise (fun a b => a.maxTime < b.minTime) ∧ (∀ s, valueAt (r.livePoints C key) s =
        lastOf ((r.readEntries key).map fun e => liveOf C ty (r.tombstoneRange key) e.b) s) ∧
      ∀ e ∈ r.readEntries key, r.timeRange.1 ≤ e.minTime ∧ e.maxTime ≤ r.timeRange.2 := by
  rcases filter_key_of_asc h.keys_asc key with hf | ⟨ki, hki, hkey, hf⟩
  · have hread : r.readEntries key = [] := by
      rw [TSMReader.readEntries, ← head?_filter, hf]
      rfl
    rw [hread, TSMReader.livePoints, hf]
    exact ⟨by simp, by simp, fun s => rfl, by simp⟩
  · have hread : r.readEntries key = ki.entries := by
      rw [TSMReader.readEntries, ← head?_filter, hf]
      rfl
    have hs := h.entries_sound ki hki hkey
    have ho := h.entries_ordered ki hki hkey
    rw [hread, TSMReader.livePoints, hf]
    refine ⟨hs, ho, fun s => ?_, fun e he => ?_⟩
    · rw [flatMap_singleton, h.typ_eq ki hki hkey]
      exact (entries_live_spec hs ho).2 s
    · -- between the first and the last entry
      obtain ⟨h1, h2⟩ : (∀ e, ki.entries.head? = some e → r.timeRange.1 ≤ e.minTime) ∧
          ∀ e, ki.entries.getLast? = some e → e.maxTime ≤ r.timeRange.2 :=
        (foldl_widen_spec r.index (maxInt64, 0)).2.2 ki hki
      have hord : ki.entries.Pairwise fun a b => a.minTime ≤ b.minTime ∧ a.maxTime ≤ b.maxTime := by
        refine ho.imp_of_mem fun {a b} ha hb hlt => ?_
        have h3 := (hs a ha).le
        have h4 := (hs b hb).le
        omega
      have hne := ne_nil_of_mem he
      exact ⟨(h1 _ (head?_eq_some_head hne)).trans (hord.rel_head_of_rel_head_head he ⟨le_rfl, le_rfl⟩).1,
        (hord.rel_getLast_of_rel_getLast_getLast he ⟨le_rfl, le_rfl⟩).2.trans (h2 _ (getLast?_eq_some_getLast hne))⟩

end SoundAt

/-! ## All locations -/

theorem lastOf_filterMap {ε : Type*} {g : ε → Option (Location Buf)} {h : ε → ValueArray V} :
    ∀ {es : List ε}, (∀ e ∈ es, g e = none → valueAt (h e) s = none) →
      (∀ e ∈ es, ∀ l, g e = some l → l.live C ty key = h e) →
      lastOf ((es.filterMap g).map (·.live C ty key)) s = lastOf (es.map h) s
  | [], _, _ => rfl
  | e :: es, hnone, hsome => by
    have ih := lastOf_filterMap (forall_mem_cons.mp hnone).2
      (forall_mem_cons.mp hsome).2
    rw [map_cons, lastOf_cons, ← ih]
    cases hg : g e with
    | none => rw [filterMap_cons_none hg, hnone e mem_cons_self hg, Option.or_none]
    | some l =>
      rw [filterMap_cons_some hg, map_cons, lastOf_cons, hsome e mem_cons_self l hg]

theorem TSMFile.mem_locations {f : TSMFile Buf} {l : Location Buf} (hl : l ∈ f.locations key t asc) :
    ∃ ie ∈ f.reader.readEntries key, f.location? key t asc ie = some l := by
  unfold locations at hl
  simp only at hl
  split_ifs at hl
  · cases hl
  · cases hl
  · exact mem_filterMap.mp hl

theorem TSMFile.lastOf_locations {f : TSMFile Buf} (h : f.reader.SoundAt C ty key)
    (hs : ¬ Done asc (startMark asc t) s) :
    lastOf ((f.locations key t asc).map (·.live C ty key)) s = valueAt (f.reader.livePoints C key) s := by
  obtain ⟨h1, -, h3, h4⟩ := h.readEntries_spec
  have hs' := not_done_startMark.mp hs
  -- a file that is skipped has no point there
  have hskip (hout : s < f.reader.timeRange.1 ∨ f.reader.timeRange.2 < s) :
      valueAt (f.reader.livePoints C key) s = none := by
    rw [h3]
    refine Timed.lastOf_eq_none.mpr (forall_mem_map.mpr fun e he => valueAt_eq_none.mpr fun p hp hps => ?_)
    have h5 := (h1 e he).mem_range_of_live hp
    have h6 := h4 e he
    omega
  unfold locations
  simp only
  split_ifs with hc1 hc2
  · rw [Bool.and_eq_true, decide_eq_true_eq] at hc1
    rw [if_pos hc1.1] at hs'
    rw [hskip (by omega)]
    rfl
  · rw [Bool.and_eq_true, decide_eq_true_eq, Bool.not_eq_true'] at hc2
    rw [if_neg (by simp [hc2.1])] at hs'
    rw [hskip (by omega)]
    rfl
  · rw [h3]
    refine lastOf_filterMap (fun e he hnone => ?_) fun e _ l hl => ?_
    · exact valueAt_of_location?_eq_none (h1 e he) hnone hs
    · obtain ⟨h5, h6, -⟩ := location?_eq_some hl
      rw [live, h5, h6]

theorem lastOf_locations : ∀ {files : List (TSMFile Buf)}, (∀ f ∈ files, f.reader.SoundAt C ty key) →
    ∀ {s : Int}, ¬ Done asc (startMark asc t) s → lastOf ((locations files key t asc).map (·.live C ty key)) s =
      lastWins C (files.map (·.reader)) key s
  | [], _, _, _ => rfl
  | f :: files, h, s, hs => by
    have ih := lastOf_locations (forall_mem_cons.mp h).2 hs
    unfold lastWins at ih ⊢
    rw [locations, flatMap_cons, map_append, lastOf_append, map_cons, map_cons,
      lastOf_cons, ← ih, TSMFile.lastOf_locations (h f mem_cons_self) hs]
    rfl

/-- The blocks overlap in time. -/
def Location.Overlaps (a b : Location Buf) : Prop :=
  a.entry.minTime ≤ b.entry.maxTime ∧ b.entry.minTime ≤ a.entry.maxTime

/-- Locations that overlap are in the order of their files. -/
def PathOrdered (ls : List (Location Buf)) : Prop :=
  ls.Pairwise fun a b => a.Overlaps b → a.r.path < b.r.path

theorem pathOrdered_locations {files : List (TSMFile Buf)} (hpath : files.Pairwise fun a b => a.path < b.path)
    (h : ∀ f ∈ files, f.reader.SoundAt C ty key) : PathOrdered (locations files key t asc) := by
  refine pairwise_flatMap.mpr ⟨fun f hf => ?_, hpath.imp fun {f g} hlt => ?_⟩
  · -- the blocks of one file do not overlap
    obtain ⟨-, hord, -⟩ := (h f hf).readEntries_spec
    unfold TSMFile.locations
    simp only
    split_ifs
    · exact Pairwise.nil
    · exact Pairwise.nil
    · refine Pairwise.filterMap _ (fun a a' hlt b hb b' hb' hover => ?_) hord
      obtain ⟨-, h1, -⟩ := location?_eq_some hb
      obtain ⟨-, h2, -⟩ := location?_eq_some hb'
      have h3 := hover.2
      rw [h1, h2] at h3
      omega
  · intro a ha b hb _
    obtain ⟨_, _, ha⟩ := mem_locations ha
    obtain ⟨_, _, hb⟩ := mem_locations hb
    rw [(location?_eq_some ha).1, (location?_eq_some hb).1]
    exact hlt

section

variable {less : Location Buf → Location Buf → Bool} (hless : less = ascLess ∨ less = descLess)

include hless

theorem not_overlaps_of_less {a b : Location Buf} (h : less b a = true)
    (hp : a.Overlaps b → a.r.path < b.r.path) : ¬ a.Overlaps b := by
  intro hover
  have hlt := hp hover
  have hov : b.entry.overlapsTimeRange a.entry.minTime a.entry.maxTime = true := by
    rw [IndexEntry.overlapsTimeRange, Bool.and_eq_true, decide_eq_true_eq, decide_eq_true_eq]
    exact ⟨hover.2, hover.1⟩
  have hba : b.r.path < a.r.path := by
    rcases hless with rfl | rfl
    · rw [ascLess, if_pos hov, decide_eq_true_eq] at h
      exact h
    · rw [descLess, if_pos hov, decide_eq_true_eq] at h
      exact h
  exact absurd hba hlt.asymm

/-- **Sorting keeps the contents.** -/
theorem lastOf_sorted {L : List (Location Buf)} (hL : PathOrdered L) (hs : ∀ l ∈ L, l.entry.Sound C ty) (s : Int) :
    lastOf ((insertionSort less L).map (·.live C ty key)) s = lastOf (L.map (·.live C ty key)) s := by
  refine (insertionSort_induction (P := fun l => PathOrdered l ∧ (∀ a ∈ l, a.entry.Sound C ty) ∧
    lastOf (l.map (·.live C ty key)) s = lastOf (L.map (·.live C ty key)) s) ?_ ⟨hL, hs, rfl⟩).2.2
  rintro as a b bs hba ⟨hord, hsound, hlast⟩
  obtain ⟨hord1, hord2, hord3⟩ := pairwise_append.mp hord
  obtain ⟨ha, hord4⟩ := pairwise_cons.mp hord2
  obtain ⟨hb, hord5⟩ := pairwise_cons.mp hord4
  have hnot := not_overlaps_of_less hless hba (ha b mem_cons_self)
  refine ⟨?_, fun l hl => hsound l (by simp only [mem_append, mem_cons] at hl ⊢; tauto), ?_⟩
  · refine pairwise_append.mpr ⟨hord1, pairwise_cons.mpr ⟨forall_mem_cons.mpr ⟨?_, hb⟩,
      pairwise_cons.mpr ⟨(forall_mem_cons.mp ha).2, hord5⟩⟩, fun x hx y hy => ?_⟩
    · exact fun hover => absurd ⟨hover.2, hover.1⟩ hnot
    · exact hord3 x hx y (by simp only [mem_cons] at hy ⊢; tauto)
  · rw [← hlast]
    simp only [map_append, map_cons]
    refine lastOf_swap _ _ ?_
    -- only one of the two can have a point at a time
    have hsa := hsound a (by simp)
    have hsb := hsound b (by simp)
    have hone : ∀ {l : Location Buf}, l.entry.Sound C ty → s < l.entry.minTime ∨ l.entry.maxTime < s →
        valueAt (l.live C ty key) s = none := fun hl hout =>
      valueAt_eq_none.mpr fun p hp hps => by
        have := hl.mem_range_of_live hp
        omega
    by_cases hin : a.entry.minTime ≤ s ∧ s ≤ a.entry.maxTime
    · refine .inl (hone hsb ?_)
      by_contra hout
      exact hnot ⟨by omega, by omega⟩
    · exact .inr (hone hsa (by omega))

end

/-! ## A new cursor -/

section New

variable {files : List (TSMFile Buf)} (hpath : files.Pairwise fun a b => a.path < b.path)
  (h : ∀ f ∈ files, f.reader.SoundAt C ty key) (ht : minNanoTime ≤ t) (ht' : t ≤ maxNanoTime)

include h ht ht'

theorem locations_at {l : Location Buf} (hl : l ∈ locations files key t asc) :
    l.At C ty key asc (startMark asc t) ∧ if asc then t ≤ l.entry.maxTime else l.entry.minTime ≤ t := by
  obtain ⟨f, hf, hl⟩ := mem_flatMap.mp hl
  obtain ⟨ie, hie, hsome⟩ := mem_locations hl
  obtain ⟨-, h2, h3, -⟩ := location?_eq_some hsome
  exact ⟨at_of_location?_eq_some ((h f hf).readEntries_spec.1 ie hie) ht ht' hsome, h2.symm ▸ h3⟩

theorem newKeyCursor_inv (seeks : List (Location Buf)) (hseeks : ∀ l ∈ seeks, l ∈ locations files key t asc) :
    ((ofLocations key seeks asc).seek t).Inv C ty (seeks.map (·.live C ty key)) (startMark asc t) := by
  set c := (ofLocations key seeks asc).seek t
  have hall : ∀ i ∈ range seeks.length, ((seeks[i]?).any fun e =>
      if asc then t < e.entry.minTime || e.entry.contains t
      else t > e.entry.maxTime || e.entry.contains t) = true := fun i hi => by
    have hlt := mem_range.mp hi
    rw [getElem?_eq_getElem hlt, Option.any_some]
    have hside := (locations_at h ht ht' (hseeks _ (getElem_mem hlt))).2
    simp only [IndexEntry.contains]
    split_ifs at hside ⊢ <;> grind
  have hcurrent : c.current = if asc then range seeks.length else (range seeks.length).reverse := by
    unfold c seek positions
    refine filter_eq_self.mpr fun i hi => hall i ?_
    split_ifs at hi
    · exact hi
    · exact mem_reverse.mp hi
  have hmem : ∀ i, i ∈ c.current ↔ i < seeks.length := fun i => by
    rw [hcurrent]
    split_ifs
    · exact mem_range
    · rw [mem_reverse]
      exact mem_range
  have hlt : ∀ j l, seeks[j]? = some l → j < seeks.length := fun j l hl =>
    (List.getElem?_eq_some_iff.mp hl).1
  refine ⟨⟨fun l hl => (locations_at h ht ht' (hseeks l hl)).1, rfl, fun i hi => (hmem i).mp hi, ?_, ?_,
    fun j l hl _ => (hmem j).mpr (hlt j l hl)⟩, fun j l hl _ => ?_⟩
  · rw [hcurrent]
    show Pairwise (fun i j => if asc then i ≤ j else j ≤ i) _
    split_ifs
    · exact pairwise_lt_range.imp fun h => le_of_lt h
    · exact pairwise_reverse.mpr (pairwise_lt_range.imp fun h => le_of_lt h)
  · rw [hcurrent]
    refine Nodup.sublist (tail_sublist _) ?_
    split_ifs
    · exact nodup_range
    · exact nodup_reverse.mpr nodup_range
  · -- the scan starts at the first position listed
    have hj := hlt j l hl
    obtain ⟨n, hn⟩ : ∃ n, seeks.length = n + 1 := ⟨seeks.length - 1, by omega⟩
    show Ahead asc _ j ∨ _
    have hpos : c.pos = if asc then 0 else (seeks.length : Int) - 1 := by
      show (c.current.head?.elim (0 : Int) fun i => i) = _
      rw [hcurrent, hn]
      split_ifs
      · simp [range_succ_eq_map]
      · simp [range_succ]
    rw [hpos, hcurrent]
    rw [hn] at hj ⊢
    unfold Ahead
    split_ifs
    · rcases Nat.eq_zero_or_pos j with rfl | hpos
      · exact .inr ⟨rfl, by simp [range_succ_eq_map]⟩
      · exact .inl (by omega)
    · rcases Nat.lt_or_ge j n with hlt | hge
      · exact .inl (by omega)
      · obtain rfl : j = n := by omega
        exact .inr ⟨by omega, by simp [range_succ]⟩

include hpath

theorem newKeyCursor_spec (asc : Bool) :
    ∃ N out, (∀ fuel ≥ N, (newKeyCursor files key t asc).readAll C ty fuel = some (.ok out)) ∧
      Asc (assemble asc out) ∧ ∀ s v, (s, v) ∈ assemble asc out ↔
        (if asc then t ≤ s else s ≤ t) ∧ lastWins C (files.map (·.reader)) key s = some v := by
  have hless : @lessOf Buf asc = ascLess ∨ @lessOf Buf asc = descLess := by
    cases asc
    · exact .inr rfl
    · exact .inl rfl
  have hinv := newKeyCursor_inv h ht ht'
    (insertionSort (lessOf asc) (locations files key t asc)) fun l hl => mem_insertionSort.mp hl
  obtain ⟨N, out, hout, hcov⟩ := KeyCursor.readAll_spec hinv
  have hcov : Covers (assemble asc out)
      (lastOf ((insertionSort (lessOf asc) (locations files key t asc)).map
        (·.live C ty key))) (fun s => ¬ Done asc (startMark asc t) s) := hcov
  refine ⟨N, out, hout, hcov.asc, fun s v => ?_⟩
  rw [hcov.asc.mem_iff, ← not_done_startMark]
  by_cases hs : Done asc (startMark asc t) s
  · rw [hcov.valueAt_of_not_mem s (not_not.mpr hs)]
    simp [hs]
  · rw [hcov.valueAt_of_mem s hs, lastOf_sorted hless (pathOrdered_locations hpath h)
      (fun l hl => (locations_at h ht ht' hl).1.sound), lastOf_locations h hs, and_iff_right hs]

/-- **A key cursor returns the last-write-wins view.**  Reading blocks until an empty one ends.  Going up,
the blocks put together are ascending and hold exactly the points from the seek time on, each with the
value of the last file that has one without a tombstone.  Going down, every block is ascending and comes
before the one read before it, and they hold exactly the points up to the seek time. -/
theorem key_cursor_last_write_wins :
    (∃ N out, (∀ fuel ≥ N, (KeyCursor.newKeyCursor files key t true).readAll C ty fuel = some (.ok out)) ∧
      Asc out.flatten ∧ ∀ s v, (s, v) ∈ out.flatten ↔ t ≤ s ∧ lastWins C (files.map (·.reader)) key s = some v) ∧
    ∃ N out, (∀ fuel ≥ N, (KeyCursor.newKeyCursor files key t false).readAll C ty fuel = some (.ok out)) ∧
      (∀ b ∈ out, Asc b) ∧ out.Pairwise (fun a b => ∀ p ∈ b, ∀ q ∈ a, p.1 < q.1) ∧
      ∀ s v, (s, v) ∈ out.flatten ↔ s ≤ t ∧ lastWins C (files.map (·.reader)) key s = some v := by
  constructor
  · obtain ⟨N, out, h1, h2, h3⟩ := newKeyCursor_spec hpath h ht ht' true
    exact ⟨N, out, h1, h2, h3⟩
  · obtain ⟨N, out, h1, h2, h3⟩ := newKeyCursor_spec hpath h ht ht' false
    obtain ⟨h4, h5⟩ := pairwise_flatten.mp (h2 : Asc out.reverse.flatten)
    refine ⟨N, out, h1, fun b hb => h4 b (mem_reverse.mpr hb), pairwise_reverse.mp h5, ?_⟩
    intro s v
    refine Iff.trans ?_ (h3 s v)
    show (s, v) ∈ out.flatten ↔ (s, v) ∈ out.reverse.flatten
    simp only [mem_flatten, mem_reverse]

end New

/-- Two files that overlap, one with a tombstone. -/
def overlappingFiles : List (TSMFile (ValueArray ℕ)) :=
  [⟨[1], ⟨[⟨[7], .float64, [⟨1, 4, [(1, 10), (4, 40)]⟩, ⟨6, 9, [(6, 60), (9, 90)]⟩]⟩], fun _ => [⟨9, 9⟩]⟩⟩,
    ⟨[2], ⟨[⟨[7], .float64, [⟨4, 6, [(4, 41), (6, 61)]⟩]⟩], fun _ => []⟩⟩]

/-- The theorem at two files that overlap, from time 2 on and from time 8 down. -/
theorem key_cursor_last_write_wins_two_files :
    (∃ N out, (∀ fuel ≥ N, (KeyCursor.newKeyCursor overlappingFiles [7] 2 true).readAll
        (plainCodec ℕ) .float64 fuel = some (.ok out)) ∧ Asc out.flatten ∧ ∀ s v, (s, v) ∈ out.flatten ↔
        2 ≤ s ∧ lastWins (plainCodec ℕ) (overlappingFiles.map (·.reader)) [7] s = some v) ∧
    lastWins (plainCodec ℕ) (overlappingFiles.map (·.reader)) [7] 4 = some 41 := by
  have hsound : ∀ (min max : Int) (b : ValueArray ℕ), b ≠ [] ∧ Asc b ∧ min = b.minTime ∧ max = b.maxTime ∧
      minInt64 ≤ min ∧ max ≤ maxInt64 → IndexEntry.Sound (plainCodec ℕ) .float64 ⟨min, max, b⟩ :=
    fun min max b ⟨h1, h2, h3, h4, h5, h6⟩ => ⟨rfl, h1, h2, h3, h4, h5, h6⟩
  refine ⟨(key_cursor_last_write_wins (by decide) ?_ (by decide) (by decide)).1, by decide⟩
  intro f hf
  simp only [overlappingFiles, mem_cons, not_mem_nil, or_false] at hf
  rcases hf with rfl | rfl
  · refine ⟨by simp, by simp, ?_, by simp⟩
    simp only [forall_eq, mem_cons, not_mem_nil, or_false, forall_eq_or_imp, forall_const]
    exact ⟨hsound _ _ _ (by decide), hsound _ _ _ (by decide)⟩
  · refine ⟨by simp, by simp, ?_, by simp⟩
    simp only [mem_singleton, forall_eq, forall_const]
    exact hsound _ _ _ (by decide)

end Influxdb.Tsm1
