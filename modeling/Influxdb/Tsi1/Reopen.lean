import Influxdb.Tsi1.LiveSeries

/-!
# Reopen — the live series of a partition that is opened again

A log file is read again entry by entry, and an entry is executed only if the series file still finds the key of its id.  For
one id, a file says that the series was added, that it was removed, or nothing; the newest file that says something decides.
What the files in memory say and what they say after they have been read again leads to the same decision, behind every file,
for every id that the series file has not forgotten.
-/

namespace Influxdb.Tsi1

open List Layer SeriesFile State Influxdb.Tsi1.Partition

variable {K : Type} {f : File K}

/-! ## What files say about an id -/

/-- Files from the newest to the oldest, each with what it says: added (`some false`), removed (`some true`) or nothing. -/
def newest (marks : List (Option Bool)) : Bool := marks.foldr (fun o live => o.elim live fun deleted => !deleted) false

theorem newest_cons (o : Option Bool) (marks : List (Option Bool)) :
    newest (o :: marks) = o.elim (newest marks) fun deleted => !deleted := rfl

theorem newest_append_congr {a b b' : List (Option Bool)} (h : newest b = newest b') : newest (a ++ b) = newest (a ++ b') := by
  induction a with
  | nil => exact h
  | cons o a ih => rw [cons_append, cons_append, newest_cons, newest_cons, ih]

variable (id : ℕ)

/-- What a file says about an id. -/
def File.mark (f : File K) : Option Bool :=
  if id ∈ f.seriesIDSet then some false else if id ∈ f.tombstoneSeriesIDSet then some true else none

/-- What an entry says about an id. -/
def LogEntry.mark : LogEntry K → Option Bool
  | .series deleted i => if i = id then some deleted else none
  | _ => none

/-- What the last entry about an id says. -/
def logMark (entries : List (LogEntry K)) : Option Bool :=
  entries.foldl (fun acc e => (e.mark id).or acc) none

/-- What the entries on disk say about an id whose key is found. -/
def Layer.diskMark : Layer K → Option Bool
  | .log f => logMark id f.entries
  | .index f => f.mark id

/-- What a layer says in memory. -/
def Layer.mark (l : Layer K) : Option Bool := l.content.mark id

theorem mem_foldr_iff (files : List (File K)) (s : Finset ℕ) :
    id ∈ files.foldr (fun f s => (s \ f.tombstoneSeriesIDSet) ∪ f.seriesIDSet) s ↔
      (files.map (File.mark id)).foldr (fun o live => o.elim live fun deleted => !deleted) (decide (id ∈ s)) = true := by
  induction files with
  | nil => exact decide_eq_true_iff.symm
  | cons f files ih =>
    rw [foldr_cons, map_cons, foldr_cons, Finset.mem_union, Finset.mem_sdiff, ih, File.mark]
    split_ifs with hins htomb
    · exact iff_of_true (.inr hins) rfl
    · exact iff_of_false (by rintro (h | h); exacts [h.2 htomb, hins h]) Bool.false_ne_true
    · exact ⟨fun h => (h.resolve_right hins).1, fun h => .inl ⟨h, htomb⟩⟩

theorem mem_buildSeriesSet_iff (files : List (File K)) :
    id ∈ FileSet.buildSeriesSet files ↔ newest (files.map (File.mark id)) = true :=
  mem_foldr_iff id files ∅

section Entries

variable [LinearOrder K] {sf : SeriesFile K} {id : ℕ}

theorem mark_execSeries (id : ℕ) (s : Series K) (deleted : Bool) (i : ℕ) (f : File K) :
    (f.execSeries s deleted i).mark id = ((LogEntry.series deleted i : LogEntry K).mark id).or (f.mark id) := by
  rw [File.mark, LogEntry.mark, File.mark]
  simp only [File.execSeries]
  by_cases hi : i = id
  · subst hi
    cases deleted <;> simp [File.mem_touch_self]
  · simp [File.mem_touch_of_ne (Ne.symm hi), hi]

theorem mark_execEntry (id : ℕ) (seriesKey : ℕ → Option (Series K)) (f : File K) (e : LogEntry K) :
    (f.execEntry seriesKey e).mark id = (if (seriesKey id).isSome then e.mark id else none).or (f.mark id) := by
  have hother {g : File K} (hg : g.mark id = f.mark id) :
      g.mark id = (if (seriesKey id).isSome then none else none).or (f.mark id) := by
    rw [ite_self, Option.none_or, hg]
  cases e with
  | measurementTombstone name | tagKeyTombstone name key | tagValueTombstone name key value => exact hother rfl
  | series deleted i =>
    rw [File.execEntry]
    by_cases hi : i = id
    · subst hi
      cases hs : seriesKey i with
      | none => simp
      | some s => simp [mark_execSeries]
    · cases hs : seriesKey i with
      | none => simp [LogEntry.mark, hi]
      | some s => simp [mark_execSeries, LogEntry.mark, hi]

/-- **A log file that is read again** says what its entries say, if the key of the id is found, and nothing otherwise. -/
theorem mark_replay (id : ℕ) (seriesKey : ℕ → Option (Series K)) (entries : List (LogEntry K)) :
    (LogFile.replay seriesKey entries).content.mark id = if (seriesKey id).isSome then logMark id entries else none := by
  have key : ∀ f, (entries.foldl (File.execEntry seriesKey) f).mark id =
      if (seriesKey id).isSome then entries.foldl (fun acc e => (e.mark id).or acc) (f.mark id) else f.mark id := by
    induction entries with
    | nil => simp
    | cons e entries ih =>
      intro f
      rw [foldl_cons, ih, mark_execEntry]
      by_cases hk : (seriesKey id).isSome = true <;> simp [hk]
  exact key .empty

end Entries

/-! ## Memory and disk -/

/-- Memory and disk decide alike about an id, behind every layer. -/
def Agree (id : ℕ) : List (Layer K) → Prop
  | [] => True
  | l :: ls => newest ((l :: ls).map (Layer.mark id)) = newest ((l :: ls).map (Layer.diskMark id)) ∧ Agree id ls

variable {id : ℕ} {l : Layer K} {l₁ ls l₂ : List (Layer K)}

theorem Agree.eq (h : Agree id ls) : newest (ls.map (mark id)) = newest (ls.map (diskMark id)) := by
  cases ls with
  | nil => rfl
  | cons l ls => exact h.1

theorem Agree.of_append (h : Agree id (l₁ ++ l₂)) : Agree id l₂ := by
  induction l₁ with
  | nil => exact h
  | cons l l₁ ih => exact ih h.2

theorem Agree.cons (h : Agree id ls) (hl : l.mark id = l.diskMark id) : Agree id (l :: ls) := by
  refine ⟨?_, h⟩
  rw [map_cons, map_cons, newest_cons, newest_cons, hl, h.eq]

/-- Layers may be replaced by one that is the same in memory and on disk and decides as they did. -/
theorem Agree.replace (h : Agree id (l₁ ++ (ls ++ l₂))) (hl : l.mark id = l.diskMark id)
    (heq : newest ((ls ++ l₂).map (mark id)) = newest ((l :: l₂).map (mark id))) : Agree id (l₁ ++ l :: l₂) := by
  induction l₁ with
  | nil =>
    have hall : Agree id (ls ++ l₂) := h
    exact hall.of_append.cons hl
  | cons x l₁ ih =>
    have ih := ih h.2
    refine ⟨?_, ih⟩
    have hmem : newest ((l₁ ++ (ls ++ l₂)).map (mark id)) = newest ((l₁ ++ l :: l₂).map (mark id)) := by
      rw [@List.map_append _ _ _ l₁, @List.map_append _ _ _ l₁]
      exact newest_append_congr heq
    have hdisk := (Agree.eq h.2).symm.trans (hmem.trans ih.eq)
    have hx : newest ((x :: (l₁ ++ (ls ++ l₂))).map (mark id)) =
        newest ((x :: (l₁ ++ (ls ++ l₂))).map (diskMark id)) := h.1
    show newest ((x :: (l₁ ++ l :: l₂)).map (mark id)) = newest ((x :: (l₁ ++ l :: l₂)).map (diskMark id))
    rw [map_cons, map_cons, newest_cons, newest_cons] at hx ⊢
    rw [← hmem, ← hdisk]
    exact hx

/-- No layer adds the id, neither in memory nor on disk. -/
def Silent (id : ℕ) (l : Layer K) : Prop := l.mark id ≠ some false ∧ l.diskMark id ≠ some false

theorem newest_eq_false {marks : List (Option Bool)} (h : ∀ o ∈ marks, o ≠ some false) : newest marks = false := by
  induction marks with
  | nil => rfl
  | cons o marks ih =>
    rw [newest_cons, ih (forall_mem_cons.mp h).2]
    cases o with
    | none => rfl
    | some deleted =>
      cases deleted with
      | false => exact absurd rfl (h _ mem_cons_self)
      | true => rfl

theorem agree_of_silent (h : ∀ l ∈ ls, Silent id l) : Agree id ls := by
  induction ls with
  | nil => trivial
  | cons l ls ih =>
    refine ⟨?_, ih (forall_mem_cons.mp h).2⟩
    rw [newest_eq_false, newest_eq_false]
    · refine forall_mem_map.mpr fun l' hl' => ?_
      exact (h l' hl').2
    · refine forall_mem_map.mpr fun l' hl' => ?_
      exact (h l' hl').1

/-! ## The series file -/

section Run

variable {sf sf' : SeriesFile K} {p : Partition K} {st : State K}

/-- A series file after creations: no key is lost, new ids are new, and nothing is deleted. -/
structure SeriesFile.Grows (sf sf' : SeriesFile K) : Prop where
  extends_ : sf.Extends sf'
  seq : sf.seq ≤ sf'.seq
  deleted : sf'.deleted = sf.deleted
  new : ∀ id, (sf'.seriesKey id).isSome → (sf.seriesKey id).isSome ∨ sf.seq < id

theorem SeriesFile.Grows.trans {sf'' : SeriesFile K} (h : sf.Grows sf') (h' : sf'.Grows sf'') : sf.Grows sf'' := by
  refine ⟨h.extends_.trans h'.extends_, h.seq.trans h'.seq, h'.deleted.trans h.deleted, ?_⟩
  intro id hid
  rcases h'.new id hid with hid | hid
  · exact h.new id hid
  · exact .inr (Nat.lt_of_le_of_lt h.seq hid)

theorem SeriesFile.seriesKey_compact (sf : SeriesFile K) (id : ℕ) :
    sf.compact.seriesKey id = if id ∈ sf.deleted then none else sf.seriesKey id := by
  have h := Assoc.get_filter (fun i => i ∉ sf.deleted) sf.keys id
  split_ifs with hid
  · exact h.trans (if_neg (by simp [hid]))
  · exact h.trans (if_pos (by simp [hid]))

theorem SeriesFile.Sound.compact (h : sf.Sound) : sf.compact.Sound :=
  ⟨fun p hp => h.le p (mem_filter.mp hp).1, h.nodup.sublist (filter_sublist.map _)⟩

theorem SeriesFile.Sound.le_of_known (h : sf.Sound) (hid : (sf.seriesKey id).isSome) : id ≤ sf.seq := by
  obtain ⟨s, hs⟩ := Option.isSome_iff_exists.mp hid
  exact h.le _ (Assoc.mem_of_get hs)

/-! ## The partition -/

namespace Partition

/-- All files with the active log file first. -/
def layers (p : Partition K) : List (Layer K) := .log p.active :: p.older

/-- **What is kept**: for an id that the series file finds, memory and disk agree, and the set of live series has what they
decide; ids that have not been handed out are nowhere added; the series of the set are found and not deleted. -/
structure Kept (sf : SeriesFile K) (p : Partition K) : Prop where
  agree : ∀ id, (sf.seriesKey id).isSome → Agree id p.layers
  decided : ∀ id, (sf.seriesKey id).isSome → (id ∈ p.seriesIDSet ↔ newest (p.layers.map (Layer.mark id)) = true)
  fresh : ∀ id, sf.seq < id → ∀ l ∈ p.layers, Silent id l
  disjoint : ∀ l ∈ p.layers, ∀ i ∈ l.content.seriesIDSet, i ∉ l.content.tombstoneSeriesIDSet
  known : ∀ id ∈ p.seriesIDSet, (sf.seriesKey id).isSome ∧ id ∉ sf.deleted

theorem kept_empty : (empty : Partition K).Kept sf := by
  refine ⟨fun id _ => ⟨rfl, trivial⟩, fun id _ => iff_of_false (Finset.notMem_empty _) Bool.false_ne_true, ?_, ?_, ?_⟩
  · intro id _ l hl
    obtain rfl := mem_singleton.mp hl
    exact ⟨nofun, nofun⟩
  · exact forall_mem_singleton.mpr (fun i hi => absurd hi (Finset.notMem_empty i))
  · exact fun id hid => absurd hid (Finset.notMem_empty id)

theorem Kept.grows (h : p.Kept sf) (hsf : sf.Sound) (hg : sf.Grows sf') : p.Kept sf' := by
  refine ⟨?_, ?_, fun id hid => h.fresh id (Nat.lt_of_le_of_lt hg.seq hid), h.disjoint, ?_⟩
  · intro id hid
    rcases hg.new id hid with hid | hid
    · exact h.agree id hid
    · exact agree_of_silent (h.fresh id hid)
  · intro id hid
    rcases hg.new id hid with hid | hid
    · exact h.decided id hid
    · refine iff_of_false (fun hmem => Nat.not_le_of_lt hid (hsf.le_of_known (h.known id hmem).1)) ?_
      rw [newest_eq_false]
      · exact Bool.false_ne_true
      · refine forall_mem_map.mpr fun l hl => ?_
        exact (h.fresh id hid l hl).1
  · intro id hid
    obtain ⟨hk, hd⟩ := h.known id hid
    obtain ⟨s, hs⟩ := Option.isSome_iff_exists.mp hk
    exact ⟨Option.isSome_iff_exists.mpr ⟨s, hg.extends_ id s hs⟩, hg.deleted ▸ hd⟩

theorem agree_head {f g : LogFile K} {ls : List (Layer K)} (h : Agree id (.log f :: ls))
    (hm : g.content.mark id = f.content.mark id) (hd : logMark id g.entries = logMark id f.entries) :
    Agree id (.log g :: ls) := by
  refine ⟨?_, h.2⟩
  have heq := h.1
  rw [map_cons, map_cons, newest_cons, newest_cons] at heq ⊢
  rw [show mark id (.log g) = _ from hm, show diskMark id (.log g) = _ from hd]
  exact heq

theorem Kept.roll (h : p.Kept sf) : p.roll.Kept sf := by
  refine ⟨fun id hid => (h.agree id hid).cons rfl, fun id hid => h.decided id hid, ?_, ?_, h.known⟩
  · exact fun id hid => forall_mem_cons.mpr ⟨⟨nofun, nofun⟩, h.fresh id hid⟩
  · exact forall_mem_cons.mpr ⟨fun i hi => absurd hi (Finset.notMem_empty i), h.disjoint⟩

theorem Kept.replace (h : p.Kept sf) {l₁ ls l₂ : List (Layer K)} (hold : p.older = l₁ ++ (ls ++ l₂))
    (hdisj : ∀ i ∈ f.seriesIDSet, i ∉ f.tombstoneSeriesIDSet)
    (heq : Effect (ls.map content) f.tombstoneSeriesIDSet f.seriesIDSet) :
    Kept sf { p with older := l₁ ++ .index f :: l₂ } := by
  have hlayers : p.layers = (.log p.active :: l₁) ++ (ls ++ l₂) := by rw [layers, hold]; rfl
  have hnewest (id : ℕ) : newest ((ls ++ l₂).map (mark id)) = newest ((.index f :: l₂).map (mark id)) := by
    have : newest ((ls.map content ++ l₂.map content).map (File.mark id)) =
        newest ((f :: l₂.map content).map (File.mark id)) := by
      rw [Bool.eq_iff_iff, ← mem_buildSeriesSet_iff, ← mem_buildSeriesSet_iff, FileSet.buildSeriesSet, foldr_append, heq]
      rfl
    rw [← map_append, map_map, map_cons, map_map] at this
    exact this
  -- The layers of the new partition are old ones or the new file.
  have hcases : ∀ l ∈ ((.log p.active :: l₁) ++ .index f :: l₂ : List (Layer K)), l = .index f ∨ l ∈ p.layers :=
    fun l hl => hlayers ▸ mem_of_mem_replace hl
  refine ⟨?_, ?_, ?_, ?_, h.known⟩
  · intro id hid
    have hagree := h.agree id hid
    rw [hlayers] at hagree
    exact hagree.replace rfl (hnewest id)
  · intro id hid
    refine (h.decided id hid).trans (Bool.eq_iff_iff.mp ?_)
    rw [hlayers, @List.map_append _ _ _ (.log p.active :: l₁)]
    show _ = newest (((.log p.active :: l₁) ++ .index f :: l₂).map (mark id))
    rw [@List.map_append _ _ _ (.log p.active :: l₁)]
    exact newest_append_congr (hnewest id)
  · intro id hid l hl
    rcases hcases l hl with rfl | hl
    · have hnot : id ∉ f.seriesIDSet := by
        intro hmem
        have hlive : id ∈ FileSet.buildSeriesSet (ls.map content) := by
          rw [FileSet.buildSeriesSet, heq]
          exact Finset.mem_union_right _ hmem
        obtain ⟨g, hg, hadd⟩ := exists_of_mem_buildSeriesSet hlive
        obtain ⟨l, hl, rfl⟩ := mem_map.mp hg
        have hsilent := h.fresh id hid l
          (hlayers ▸ mem_append_right _ (mem_append_left _ hl))
        exact hsilent.1 (if_pos hadd)
      have hmark : f.mark id ≠ some false := by
        rw [File.mark, if_neg hnot]
        split_ifs <;> simp
      exact ⟨hmark, hmark⟩
    · exact h.fresh id hid l hl
  · intro l hl
    rcases hcases l hl with rfl | hl
    · exact hdisj
    · exact h.disjoint l hl

theorem Kept.delete (h : p.Kept sf) (hid : id ∉ p.seriesIDSet) : p.Kept (sf.deleteSeriesID id) := by
  rw [deleteSeriesID]
  split_ifs
  · exact h
  · refine ⟨h.agree, h.decided, h.fresh, h.disjoint, ?_⟩
    intro i hi
    refine ⟨(h.known i hi).1, ?_⟩
    rw [Finset.mem_insert]
    rintro (rfl | hdel)
    · exact hid hi
    · exact (h.known i hi).2 hdel

theorem Kept.forget (h : p.Kept sf) : p.Kept sf.compact := by
  have hfound {i : ℕ} (hi : (sf.compact.seriesKey i).isSome) : (sf.seriesKey i).isSome := by
    rw [seriesKey_compact] at hi
    split_ifs at hi
    · cases hi
    · exact hi
  refine ⟨fun i hi => h.agree i (hfound hi), fun i hi => h.decided i (hfound hi), h.fresh, h.disjoint, ?_⟩
  intro i hi
  obtain ⟨hk, hd⟩ := h.known i hi
  rw [seriesKey_compact, if_neg hd]
  exact ⟨hk, hd⟩

end Partition

variable [LinearOrder K]

theorem SeriesFile.create_grows (h : sf.Sound) (s : Series K) : sf.Grows (sf.create s).2 := by
  have hext := (create_spec h s).2.1
  rw [create] at hext ⊢
  cases hf : sf.findID s with
  | some id => exact ⟨.refl sf, Nat.le_refl _, rfl, fun id hid => .inl hid⟩
  | none =>
    rw [hf] at hext
    refine ⟨hext, Nat.le_succ _, rfl, ?_⟩
    intro id hid
    by_cases hne : id = sf.seq + 1
    · exact .inr (hne ▸ Nat.lt_succ_self _)
    · rw [seriesKey, Assoc.get_put_of_ne hne] at hid
      exact .inl hid

theorem SeriesFile.create_notMem_deleted (h : ∀ id ∈ sf.deleted, id ≤ sf.seq) (s : Series K) :
    (sf.create s).1 ∉ sf.deleted := by
  rw [create]
  cases hf : sf.findID s with
  | some id =>
    obtain ⟨p, hp, rfl⟩ := Option.map_eq_some_iff.mp hf
    have hfound := find?_some hp
    exact (of_decide_eq_true hfound).2
  | none =>
    intro hmem
    exact absurd (h _ hmem) (Nat.not_succ_le_self _)

theorem SeriesFile.createAll_grows (h : sf.Sound) (hdel : ∀ id ∈ sf.deleted, id ≤ sf.seq) (ss : List (Series K)) :
    sf.Grows (sf.createAll ss).2 ∧ ∀ id ∈ (sf.createAll ss).1, id ∉ sf.deleted := by
  induction ss generalizing sf with
  | nil =>
    exact ⟨⟨.refl sf, Nat.le_refl _, rfl, fun id hid => .inl hid⟩, forall_mem_nil _⟩
  | cons s ss ih =>
    have hgrow := create_grows h s
    have hdel' : ∀ id ∈ (sf.create s).2.deleted, id ≤ (sf.create s).2.seq := by
      intro id hid
      rw [hgrow.deleted] at hid
      exact (hdel id hid).trans hgrow.seq
    obtain ⟨hgrow', hids⟩ := ih (create_spec h s).1 hdel'
    refine ⟨hgrow.trans hgrow', ?_⟩
    exact forall_mem_cons.mpr ⟨create_notMem_deleted hdel s, hgrow.deleted ▸ hids⟩

namespace Partition

theorem disjoint_execEntry (h : ∀ i ∈ f.seriesIDSet, i ∉ f.tombstoneSeriesIDSet)
    (seriesKey : ℕ → Option (Series K)) (e : LogEntry K) :
    ∀ i ∈ (f.execEntry seriesKey e).seriesIDSet, i ∉ (f.execEntry seriesKey e).tombstoneSeriesIDSet := by
  cases e with
  | measurementTombstone name | tagKeyTombstone name key | tagValueTombstone name key value => exact h
  | series deleted id =>
    rw [File.execEntry]
    cases seriesKey id with
    | none => exact h
    | some s =>
      exact File.disjoint_touch h

/-- **An entry about a series** that is written to the active log file. -/
theorem Kept.write (h : p.Kept sf) (hsf : sf.Sound) {seriesKey : ℕ → Option (Series K)} {deleted : Bool} {i : ℕ}
    (hkey : (sf.seriesKey i).isSome → (seriesKey i).isSome)
    (hadd : deleted = false → (sf.seriesKey i).isSome ∧ i ∉ sf.deleted) : Kept sf { p with
      active := p.active.write seriesKey (.series deleted i)
      seriesIDSet := touch deleted i p.seriesIDSet } := by
  have hmark (id : ℕ) : mark id (.log (p.active.write seriesKey (.series deleted i))) =
      (if (seriesKey id).isSome then (LogEntry.series deleted i : LogEntry K).mark id else none).or
        (mark id (.log p.active)) := mark_execEntry id seriesKey p.active.content (.series deleted i)
  have hdisk (id : ℕ) : diskMark id (.log (p.active.write seriesKey (.series deleted i))) =
      ((LogEntry.series deleted i : LogEntry K).mark id).or (diskMark id (.log p.active)) :=
    foldl_append
  have hother {id : ℕ} (hid : i ≠ id) : (LogEntry.series deleted i : LogEntry K).mark id = none := if_neg hid
  have hself : (LogEntry.series deleted i : LogEntry K).mark i = some deleted := if_pos rfl
  refine ⟨?_, ?_, ?_, ?_, ?_⟩
  · intro id hid
    by_cases hne : i = id
    · subst hne
      refine Agree.cons (h.agree i hid).2 ?_
      rw [hmark, hdisk, if_pos (hkey hid), hself]
      rfl
    · refine agree_head (h.agree id hid) ((hmark id).trans ?_) ((hdisk id).trans ?_)
      · rw [hother hne, ite_self, Option.none_or]
        rfl
      · rw [hother hne, Option.none_or]
        rfl
  · intro id hid
    show id ∈ touch deleted i p.seriesIDSet ↔ newest (_ :: p.older.map (mark id)) = true
    rw [newest_cons, hmark]
    by_cases hne : i = id
    · subst hne
      rw [if_pos (hkey hid), hself, File.mem_touch_self]
      cases deleted <;> simp
    · rw [hother hne, ite_self, Option.none_or, ← newest_cons, File.mem_touch_of_ne (Ne.symm hne)]
      exact h.decided id hid
  · intro id hid l hl
    rcases mem_cons.mp hl with rfl | hl
    · have hold := h.fresh id hid (.log p.active) mem_cons_self
      rw [Silent, hmark, hdisk]
      by_cases hne : i = id
      · subst hne
        -- An id that has not been handed out is not added.
        have hdel : deleted = true := by
          cases deleted with
          | true => rfl
          | false => exact absurd (hsf.le_of_known (hadd rfl).1) (Nat.not_le_of_lt hid)
        rw [hself, hdel]
        refine ⟨?_, nofun⟩
        split_ifs
        · nofun
        · exact hold.1
      · rw [hother hne, ite_self]
        exact hold
    · exact h.fresh id hid l (mem_cons_of_mem _ hl)
  · obtain ⟨hactive, hold⟩ := forall_mem_cons.mp h.disjoint
    exact forall_mem_cons.mpr ⟨disjoint_execEntry hactive seriesKey (.series deleted i), hold⟩
  · intro id hid
    by_cases hne : id = i
    · subst hne
      exact hadd (File.mem_touch_self.mp hid)
    · exact h.known id ((File.mem_touch_of_ne hne).mp hid)

theorem Kept.addSeriesList (h : p.Kept sf) (hsf : sf.Sound) {xs : List (ℕ × Series K)}
    (hxs : ∀ x ∈ xs, (sf.seriesKey x.1).isSome ∧ x.1 ∉ sf.deleted) : (p.addSeriesList xs).Kept sf := by
  refine inv_foldl (fun p x hx h => ?_) hxs h
  rw [addSeries]
  split_ifs
  · exact h
  · exact h.write hsf (fun _ => rfl) fun _ => hx

theorem Kept.dropSeries (h : p.Kept sf) (hsf : sf.Sound) (id : ℕ) : (p.dropSeries sf id).Kept sf :=
  h.write hsf (fun hid => hid) nofun

theorem Kept.compactLogFile (h : p.Kept sf) (i : ℕ) : (p.compactLogFile i).Kept sf := by
  obtain heq | ⟨l₁, f, l₂, hold, hf, heq⟩ := p.compactLogFile_cases i <;> rw [heq]
  · exact h
  · exact h.replace hold (h.disjoint _ (mem_cons_of_mem _ hf)) fun s => rfl

theorem Kept.compactToLevel (h : p.Kept sf) (i n : ℕ) : (p.compactToLevel i n).Kept sf := by
  obtain heq | ⟨l₁, fs, l₂, hold, hfs, heq⟩ := p.compactToLevel_cases i n <;> rw [heq]
  · exact h
  · obtain ⟨hout, -, -, heffect⟩ :=
      IndexFiles.buildSeriesIDSets_spec fun f hf => h.disjoint _ (mem_cons_of_mem _ (hfs f hf))
    refine h.replace hold hout fun s => ?_
    rw [contents_index]
    exact heffect s

end Partition

/-! ## Histories -/

/-- The steps in question: no measurement is dropped, and the series file deletes ids only that are not live. -/
def Op.Legal (st : State K) : Op K → Prop
  | .dropMeasurement _ => False
  | .deleteSeriesID id => id ∉ st.partition.seriesIDSet
  | _ => True

/-- All steps of a history are legal where they are made. -/
def State.Legal : State K → List (Op K) → Prop
  | _, [] => True
  | st, op :: ops => op.Legal st ∧ Legal (st.step op) ops

structure State.Kept (st : State K) : Prop where
  sfile : st.sfile.Sound
  deleted : ∀ id ∈ st.sfile.deleted, id ≤ st.sfile.seq
  partition : st.partition.Kept st.sfile

theorem State.kept_step (h : st.Kept) {op : Op K} (hop : op.Legal st) : (st.step op).Kept := by
  cases op with
  | create series =>
    obtain ⟨hs, -, hkeys⟩ := createAll_spec h.sfile series
    obtain ⟨hgrow, hids⟩ := createAll_grows h.sfile h.deleted series
    refine ⟨hs, ?_, (h.partition.grows h.sfile hgrow).addSeriesList hs ?_⟩
    · intro id hid
      have hid : id ∈ st.sfile.deleted := hgrow.deleted ▸ hid
      exact (h.deleted id hid).trans hgrow.seq
    · intro x hx
      refine ⟨Option.isSome_iff_exists.mpr ⟨x.2, hkeys x hx⟩, ?_⟩
      rw [hgrow.deleted]
      exact hids x.1 (of_mem_zip hx).1
  | dropSeries id => exact ⟨h.sfile, h.deleted, h.partition.dropSeries h.sfile id⟩
  | roll => exact ⟨h.sfile, h.deleted, h.partition.roll⟩
  | compactLogFile i => exact ⟨h.sfile, h.deleted, h.partition.compactLogFile i⟩
  | compactToLevel i n => exact ⟨h.sfile, h.deleted, h.partition.compactToLevel i n⟩
  | dropMeasurement name => exact hop.elim
  | deleteSeriesID id =>
    refine ⟨?_, ?_, h.partition.delete hop⟩
    · show (st.sfile.deleteSeriesID id).Sound
      rw [deleteSeriesID]
      split_ifs
      · exact h.sfile
      · exact ⟨h.sfile.le, h.sfile.nodup⟩
    · show ∀ i ∈ (st.sfile.deleteSeriesID id).deleted, i ≤ (st.sfile.deleteSeriesID id).seq
      rw [deleteSeriesID]
      split_ifs with hskip
      · exact h.deleted
      · intro i hi
        rcases Finset.mem_insert.mp hi with rfl | hi
        · refine h.sfile.le_of_known ?_
          rw [not_or, Option.isNone_iff_eq_none, ← ne_eq, Option.ne_none_iff_isSome] at hskip
          exact hskip.2
        · exact h.deleted i hi
  | compactSeriesFile => exact ⟨h.sfile.compact, h.deleted, h.partition.forget⟩

theorem State.kept_run {ops : List (Op K)} (hops : State.Legal st ops) (h : st.Kept) : (st.run ops).Kept := by
  induction ops generalizing st with
  | nil => exact h
  | cons op ops ih => exact ih hops.2 (kept_step h hops.1)

omit [LinearOrder K] in
theorem State.kept_empty : (empty : State K).Kept :=
  ⟨sound_empty, fun _ hid => absurd hid (Finset.notMem_empty _), Partition.kept_empty⟩

/-! ## Opening again -/

def Layer.indexFile : Layer K → Option (File K)
  | .log _ => none
  | .index f => some f

def Partition.indexFiles (p : Partition K) : List (File K) := p.older.filterMap Layer.indexFile

theorem newest_forgotten (hid : sf.seriesKey id = none) (ls : List (Layer K)) :
    newest ((ls.map (reopenLayer sf)).map (mark id)) = newest ((ls.filterMap indexFile).map (File.mark id)) := by
  induction ls with
  | nil => rfl
  | cons l ls ih =>
    rw [map_cons, map_cons, newest_cons, ih]
    cases l with
    | index f => rfl
    | log f =>
      have hnone : (reopenLayer sf (.log f)).mark id = none := by
        refine (mark_replay id sf.seriesKey f.entries).trans (if_neg ?_)
        rw [hid]
        nofun
      rw [hnone]
      rfl

theorem Partition.mem_reopen_iff (p : Partition K) (sf : SeriesFile K) :
    id ∈ (p.reopen sf).seriesIDSet ↔ newest ((p.layers.map (reopenLayer sf)).map (mark id)) = true := by
  refine (mem_buildSeriesSet_iff id _).trans ?_
  rw [files, layers, map_cons, map_cons, map_cons, map_map]
  rfl

/-- **A partition that is opened again has the same live series** precisely if the index files alone leave no series live
whose key the series file has forgotten. -/
theorem reopen_keeps_series_iff (ops : List (Op K)) (hops : State.Legal State.empty ops) :
    ((State.empty.run ops).partition.reopen (State.empty.run ops).sfile).seriesIDSet =
        (State.empty.run ops).partition.seriesIDSet ↔ ∀ id, (State.empty.run ops).sfile.seriesKey id = none →
        id ∉ FileSet.buildSeriesSet (State.empty.run ops).partition.indexFiles := by
  have hkept := (kept_run hops kept_empty).partition
  generalize empty.run ops = st at hkept ⊢
  have hfound (id : ℕ) (hid : (st.sfile.seriesKey id).isSome) :
      id ∈ (st.partition.reopen st.sfile).seriesIDSet ↔ id ∈ st.partition.seriesIDSet := by
    have hmap : (st.partition.layers.map (reopenLayer st.sfile)).map (mark id) =
        st.partition.layers.map (diskMark id) := by
      rw [map_map]
      refine map_congr_left fun l _ => ?_
      cases l with
      | index f => rfl
      | log f => exact (mark_replay id st.sfile.seriesKey f.entries).trans (if_pos hid)
    rw [mem_reopen_iff, hkept.decided id hid, (hkept.agree id hid).eq, hmap]
  have hforgotten (id : ℕ) (hid : st.sfile.seriesKey id = none) :
      id ∈ (st.partition.reopen st.sfile).seriesIDSet ↔ id ∈ FileSet.buildSeriesSet st.partition.indexFiles := by
    rw [mem_reopen_iff, newest_forgotten hid, mem_buildSeriesSet_iff]
    rfl
  constructor
  · intro heq id hid hlive
    have hmem := (hforgotten id hid).mpr hlive
    rw [heq] at hmem
    have hknown := (hkept.known id hmem).1
    rw [hid] at hknown
    cases hknown
  · intro h
    ext id
    cases hid : st.sfile.seriesKey id with
    | some s => exact hfound id (hid ▸ rfl)
    | none =>
      refine iff_of_false (fun hmem => h id hid ((hforgotten id hid).mp hmem)) ?_
      intro hmem
      have hknown := (hkept.known id hmem).1
      rw [hid] at hknown
      cases hknown

/-- Created, dropped and deleted in the series file while everything is in log files: nothing is left of the series. -/
theorem forgotten_in_log_is_kept :
    ((State.empty.run [.create [oneTag], .dropSeries 1, .deleteSeriesID 1, .compactSeriesFile]).partition.reopen
        (State.empty.run [.create [oneTag], .dropSeries 1, .deleteSeriesID 1, .compactSeriesFile]).sfile).seriesIDSet =
      (State.empty.run [.create [oneTag], .dropSeries 1, .deleteSeriesID 1, .compactSeriesFile]).partition.seriesIDSet := by
  refine (reopen_keeps_series_iff [.create [oneTag], .dropSeries 1, .deleteSeriesID 1, .compactSeriesFile] ?_).mpr ?_
  · have hdropped : 1 ∉ (empty.run [.create [oneTag], .dropSeries 1]).partition.seriesIDSet := by decide
    exact ⟨trivial, trivial, hdropped, trivial, trivial⟩
  · exact fun id _ => Finset.notMem_empty id

/-- The insertion is in an index file, the tombstone in a log file, and the key is forgotten: the series comes back. -/
theorem forgotten_series_comes_back :
    (State.empty.run [.create [oneTag], .roll, .compactLogFile 0, .dropSeries 1, .deleteSeriesID 1,
        .compactSeriesFile]).partition.seriesIDSet = ∅ ∧
      ((State.empty.run [.create [oneTag], .roll, .compactLogFile 0, .dropSeries 1, .deleteSeriesID 1,
          .compactSeriesFile]).partition.reopen
        (State.empty.run [.create [oneTag], .roll, .compactLogFile 0, .dropSeries 1, .deleteSeriesID 1,
          .compactSeriesFile]).sfile).seriesIDSet = {1} := by
  decide

end Run

end Influxdb.Tsi1
