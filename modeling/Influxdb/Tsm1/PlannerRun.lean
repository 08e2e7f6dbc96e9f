import Influxdb.Tsm1.PlannerGroups

/-!
# PlannerRun — runs of the planner

The planner is shared by the compaction goroutines, while the file store changes under it.  A call is
split where it takes and leaves the planner's lock: it is admitted, takes its listing, plans, and acquires
its groups (`Step`).  A run is the list of its states, newest first.
-/

namespace Influxdb.Tsm1

open List DefaultPlanner

variable {h : List PlannerSystem} {f : Path} {s : PlannerSystem}

/-- The planner, the file store and the calls on their way.  `unreleased` are the groups that were returned
and not released. -/
structure PlannerSystem where
  planner : DefaultPlanner
  store : PlanStore
  admitted : List Call
  listed : List (Call × TsmGenerations)
  planned : List (List CompactionGroup)
  unreleased : List CompactionGroup

namespace PlannerSystem

def initial (writeColdDuration : Int) (store : PlanStore) : PlannerSystem where
  planner := newDefaultPlanner writeColdDuration
  store := store
  admitted := []
  listed := []
  planned := []
  unreleased := []

/-- What can happen next.  The file store may change in any way, also while a call plans, so that `answers`
can be any store. -/
inductive Step (parse : Path → ℕ × ℕ) : PlannerSystem → PlannerSystem → Prop
  | change (s : PlannerSystem) (store : PlanStore) : Step parse s { s with store := store }
  | forceFull (s : PlannerSystem) : Step parse s { s with planner := s.planner.requestFull }
  | fullyCompacted (s : PlannerSystem) :
      Step parse s { s with planner := (s.planner.fullyCompacted parse s.store).2 }
  | enter (s : PlannerSystem) (call : Call) (h : s.planner.admits call = true) :
      Step parse s { s with admitted := call :: s.admitted }
  | list (s : PlannerSystem) (call : Call) (rest : List Call) (h : s.admitted.Perm (call :: rest)) :
      Step parse s { s with
        planner := (s.planner.findGenerations parse s.store true).2
        admitted := rest
        listed := (call, (s.planner.findGenerations parse s.store true).1) :: s.listed }
  | plan (s : PlannerSystem) (call : Call) (gens : TsmGenerations) (answers : PlanStore)
      (rest : List (Call × TsmGenerations)) (h : s.listed.Perm ((call, gens) :: rest)) :
      Step parse s { s with
        planner := (s.planner.groupsOf parse answers gens call).2
        listed := rest
        planned := (s.planner.groupsOf parse answers gens call).1 :: s.planned }
  | acquire (s : PlannerSystem) (groups : List CompactionGroup) (rest : List (List CompactionGroup))
      (h : s.planned.Perm (groups :: rest)) :
      Step parse s { s with
        planner := (s.planner.acquired groups).2
        planned := rest
        unreleased := s.unreleased ++ (s.planner.acquired groups).1.1 }
  | release (s : PlannerSystem) (groups rest : List CompactionGroup) (h : s.unreleased.Perm (groups ++ rest)) :
      Step parse s { s with planner := s.planner.release groups, unreleased := rest }

/-- The states of a run, newest first. -/
inductive Run (parse : Path → ℕ × ℕ) : List PlannerSystem → Prop
  | initial (writeColdDuration : Int) (store : PlanStore) : Run parse [initial writeColdDuration store]
  | step {s t : PlannerSystem} {h : List PlannerSystem} (hrun : Run parse (s :: h)) (hstep : Step parse s t) :
      Run parse (t :: s :: h)

end PlannerSystem

/-! ## The planner's own state -/

section Planner

variable (parse : Path → ℕ × ℕ) (c : DefaultPlanner) (store : PlanStore)

variable (skipInUse : Bool)

/-- What `findGenerations` lists when it lists anew. -/
def freshListing : TsmGenerations :=
  listGenerations parse (store.stats.filter fun f => !(skipInUse && decide (f.path ∈ c.filesInUse)))

theorem findGenerations_spec : let (gens, c') := c.findGenerations parse store skipInUse
    c'.lastGenerations = gens ∧ c'.lastFindGenerations = store.lastModified ∧
      (c.lastFindGenerations ≠ 0 ∧ store.lastModified = c.lastFindGenerations ∧ gens = c.lastGenerations ∨
        gens = freshListing parse c store skipInUse) := by
  unfold findGenerations
  split_ifs with hkept
  · exact ⟨rfl, hkept.2.symm, .inl ⟨hkept.1, hkept.2, rfl⟩⟩
  · exact ⟨rfl, rfl, .inr rfl⟩

theorem findGenerations_filesInUse : (c.findGenerations parse store skipInUse).2.filesInUse = c.filesInUse := by
  unfold findGenerations
  split_ifs <;> rfl

theorem findGenerations_plansFull (since : Int) (gens : TsmGenerations) :
    (c.findGenerations parse store skipInUse).2.plansFull since gens = c.plansFull since gens := by
  unfold findGenerations
  split_ifs <;> rfl

theorem fullyCompacted_snd : (c.fullyCompacted parse store).2 = (c.findGenerations parse store false).2 := by
  unfold fullyCompacted
  simp only
  split_ifs <;> rfl

theorem groupsOf_snd (gens : TsmGenerations) (call : Call) : let c' := (c.groupsOf parse store gens call).2
    c'.filesInUse = c.filesInUse ∧ c'.lastGenerations = c.lastGenerations ∧
      c'.lastFindGenerations = c.lastFindGenerations := by
  cases call with
  | planLevel | planOptimize => exact ⟨rfl, rfl, rfl⟩
  | plan since now =>
    unfold groupsOf
    simp only
    split_ifs <;> exact ⟨rfl, rfl, rfl⟩

theorem mem_foldl_insert : ∀ (l : List Path) (s : Finset Path), f ∈ l.foldl (fun s f => insert f s) s ↔ f ∈ s ∨ f ∈ l
  | [], s => by simp
  | a :: l, s => by
    rw [foldl_cons, mem_foldl_insert l, Finset.mem_insert, mem_cons]
    tauto

theorem mem_foldl_erase : ∀ (l : List Path) (s : Finset Path), f ∈ l.foldl (fun s f => s.erase f) s ↔ f ∈ s ∧ f ∉ l
  | [], s => by simp
  | a :: l, s => by
    rw [foldl_cons, mem_foldl_erase l, Finset.mem_erase, mem_cons]
    tauto

theorem acquired_spec (groups : List CompactionGroup) : (c.acquired groups).1.1 = [] ∧ (c.acquired groups).2 = c ∨
    (c.acquired groups).1.1 = groups ∧ (∀ f ∈ groups.flatten, f ∉ c.filesInUse) ∧
      (∀ f, f ∈ (c.acquired groups).2.filesInUse ↔ f ∈ c.filesInUse ∨ f ∈ groups.flatten) ∧
      (c.acquired groups).2.lastGenerations = c.lastGenerations ∧
      (c.acquired groups).2.lastFindGenerations = c.lastFindGenerations := by
  unfold acquired acquire
  split_ifs with hused
  · exact .inl ⟨rfl, rfl⟩
  · refine .inr ⟨rfl, fun f hf hmem => ?_, fun f => ?_, rfl, rfl⟩
    · obtain ⟨g, hg, hfg⟩ := mem_flatten.mp hf
      exact hused (any_eq_true.mpr ⟨g, hg, any_eq_true.mpr ⟨f, hfg, by simpa using hmem⟩⟩)
    · simp only
      rw [← foldl_flatten, mem_foldl_insert]

variable {parse c store} in
theorem planned_run {call : Call} (hasc : (c.findGenerations parse store true).1.Pairwise fun a b => a.id < b.id)
    {group : CompactionGroup} (hgroup : group ∈ (c.run parse store call).1.1) :
    ∃ groups, Planned (c.findGenerations parse store true).1
      (PassedOver parse c store (c.findGenerations parse store true).1 call) groups ∧ group ∈ groups := by
  have hplanned : Planned _ (PassedOver parse _ store _ call) _ :=
    planned_groupsOf hasc (c.findGenerations parse store true).2 store call
  unfold run at hgroup
  split_ifs at hgroup
  · simp only at hgroup
    refine ⟨_, hplanned.mono fun g hg => ?_, ?_⟩
    · cases call with
      | planLevel | planOptimize => exact hg
      | plan since now => exact ⟨findGenerations_plansFull parse c store true since _ ▸ hg.1, hg.2⟩
    · rcases acquired_spec _ _ with ⟨hnone, -⟩ | ⟨hall, -⟩
      · rw [hnone] at hgroup
        cases hgroup
      · exact hall ▸ hgroup
  · cases hgroup

end Planner

/-! ## What every run keeps -/

variable {parse : Path → ℕ × ℕ}

/-- The listing of some distinct files. -/
def IsListing (parse : Path → ℕ × ℕ) (gens : TsmGenerations) : Prop :=
  ∃ stats : List FileStat, (stats.map (·.path)).Nodup ∧ Listing parse stats gens

namespace PlannerSystem

/-- The planner's listing is one of a state of the run, of the store with the same modification time. -/
def Kept (parse : Path → ℕ × ℕ) (c : DefaultPlanner) (states : List PlannerSystem) : Prop :=
  c.lastFindGenerations ≠ 0 → ∃ s ∈ states, s.store.lastModified = c.lastFindGenerations ∧
    ∃ skipInUse, c.lastGenerations = freshListing parse s.planner s.store skipInUse

theorem Kept.mono {c c' : DefaultPlanner} {states : List PlannerSystem} (h : Kept parse c states)
    (hgens : c'.lastGenerations = c.lastGenerations) (hfind : c'.lastFindGenerations = c.lastFindGenerations)
    (t : PlannerSystem) : Kept parse c' (t :: states) := by
  intro hne
  rw [hfind] at hne
  obtain ⟨s, hs, hmod, skipInUse, heq⟩ := h hne
  exact ⟨s, mem_cons_of_mem _ hs, hmod.trans hfind.symm, skipInUse, hgens.trans heq⟩

theorem Kept.findGenerations (hk : Kept parse s.planner (s :: h)) (skipInUse : Bool) :
    (∃ s' ∈ s :: h, s'.store.lastModified = s.store.lastModified ∧ ∃ skip,
      (s.planner.findGenerations parse s.store skipInUse).1 = freshListing parse s'.planner s'.store skip) ∧
    ∀ t, Kept parse (s.planner.findGenerations parse s.store skipInUse).2 (t :: s :: h) := by
  obtain ⟨hgens, hfind, hcases⟩ := findGenerations_spec parse s.planner s.store skipInUse
  refine (and_iff_left_of_imp ?_).mpr ?_
  · rintro ⟨s', hs', hmod, skip, heq⟩ t -
    exact ⟨s', mem_cons_of_mem _ hs', hmod.trans hfind.symm, skip, hgens.trans heq⟩
  · rcases hcases with ⟨hne, hmod, heq⟩ | heq
    · obtain ⟨s', hs', hmod', skip, hskip⟩ := hk hne
      exact ⟨s', hs', hmod'.trans hmod.symm, skip, heq.trans hskip⟩
    · exact ⟨s, mem_cons_self, rfl, skipInUse, heq⟩

/-- The invariant of a run that has come to `s`. -/
structure Inv (parse : Path → ℕ × ℕ) (s : PlannerSystem) (h : List PlannerSystem) : Prop where
  kept : Kept parse s.planner (s :: h)
  listed : ∀ w ∈ s.listed, IsListing parse w.2
  planned : ∀ groups ∈ s.planned, groups.flatten.Nodup
  unreleased : s.unreleased.flatten.Nodup
  inUse : ∀ f, f ∈ s.planner.filesInUse ↔ f ∈ s.unreleased.flatten

theorem inv_initial (writeColdDuration : Int) (store : PlanStore) : Inv parse (initial writeColdDuration store) [] where
  kept h := absurd rfl h
  listed := by simp [initial]
  planned := by simp [initial]
  unreleased := by simp [initial]
  inUse := by simp [initial, newDefaultPlanner]

theorem Inv.step {s t : PlannerSystem} (hi : Inv parse s h) (hstep : Step parse s t) : Inv parse t (s :: h) := by
  cases hstep with
  | change store | forceFull | enter call _ =>
    exact ⟨hi.kept.mono rfl rfl _, hi.listed, hi.planned, hi.unreleased, hi.inUse⟩
  | fullyCompacted =>
    rw [fullyCompacted_snd]
    refine ⟨(hi.kept.findGenerations false).2 _, hi.listed, hi.planned, hi.unreleased, fun f => ?_⟩
    rw [findGenerations_filesInUse]
    exact hi.inUse f
  | list call rest _ =>
    obtain ⟨⟨s', -, -, skip, hgens⟩, hkept⟩ := hi.kept.findGenerations true
    refine ⟨hkept _, forall_mem_cons.mpr ⟨?_, hi.listed⟩, hi.planned, hi.unreleased, fun f => ?_⟩
    · rw [hgens]
      exact ⟨_, (PlanStore.nodup _).sublist (filter_sublist.map _), listing_listGenerations _ _⟩
    · simp only
      rw [findGenerations_filesInUse]
      exact hi.inUse f
  | plan call gens answers rest hperm =>
    obtain ⟨huse, hgens, hfind⟩ := groupsOf_snd parse s.planner answers gens call
    obtain ⟨stats, hnodup, hlisting⟩ := hi.listed _ (hperm.mem_iff.mpr mem_cons_self)
    refine ⟨hi.kept.mono hgens hfind _, fun w hw => hi.listed w (hperm.mem_iff.mpr (mem_cons_of_mem _ hw)),
      forall_mem_cons.mpr ⟨?_, hi.planned⟩, hi.unreleased, fun f => ?_⟩
    · exact (planned_groupsOf hlisting.ids_asc _ _ _).nodup (hlisting.paths_nodup hnodup)
    · simp only
      rw [huse]
      exact hi.inUse f
  | acquire groups rest hperm =>
    have hrest : ∀ gs ∈ rest, gs.flatten.Nodup := fun gs hgs =>
      hi.planned gs (hperm.mem_iff.mpr (mem_cons_of_mem _ hgs))
    rcases acquired_spec s.planner groups with ⟨hnone, hsame⟩ | ⟨hall, hfree, hmem, hgens, hfind⟩
    · rw [hnone, hsame, append_nil]
      exact ⟨hi.kept.mono rfl rfl _, hi.listed, hrest, hi.unreleased, hi.inUse⟩
    · rw [hall]
      refine ⟨hi.kept.mono hgens hfind _, hi.listed, hrest, ?_, fun f => ?_⟩
      · rw [flatten_append]
        refine hi.unreleased.append (hi.planned _ (hperm.mem_iff.mpr mem_cons_self)) fun f hf hf' => ?_
        exact hfree f hf' ((hi.inUse f).mpr hf)
      · simp only
        rw [hmem, flatten_append, mem_append, hi.inUse]
  | release groups rest hperm =>
    have hflat : s.unreleased.flatten.Perm (groups.flatten ++ rest.flatten) :=
      flatten_append ▸ hperm.flatten
    have hnodup := hflat.nodup_iff.mp hi.unreleased
    refine ⟨hi.kept.mono rfl rfl _, hi.listed, hi.planned, hnodup.of_append_right, fun f => ?_⟩
    rw [release, ← foldl_flatten, mem_foldl_erase, hi.inUse, hflat.mem_iff, mem_append]
    have hdisj : f ∈ groups.flatten → f ∉ rest.flatten := fun h1 h2 =>
      disjoint_of_nodup_append hnodup h1 h2
    tauto

theorem Run.inv (hrun : Run parse (s :: h)) : Inv parse s h := by
  generalize hstates : s :: h = states at hrun
  induction hrun generalizing s h with
  | initial writeColdDuration store =>
    cases hstates
    exact inv_initial writeColdDuration store
  | step hrun hstep ih =>
    cases hstates
    exact (ih rfl).step hstep

theorem Run.call (hrun : Run parse (s :: h)) (call : Call) : ∃ h', Run parse ({ s with
      planner := (s.planner.run parse s.store call).2
      unreleased := s.unreleased ++ (s.planner.run parse s.store call).1.1 } :: h') := by
  unfold DefaultPlanner.run
  split_ifs with hadmits
  · exact ⟨_, (((hrun.step (.enter s call hadmits)).step (.list _ call s.admitted (Perm.refl _))).step
      (.plan _ call _ s.store s.listed (Perm.refl _))).step
      (.acquire _ _ s.planned (Perm.refl _))⟩
  · rw [append_nil]
    exact ⟨h, hrun⟩

/-! ## No file is planned twice, and no file is left behind -/

/-- **Exclusive plans.** At every moment of every run the groups that were returned and not released are
disjoint, and `filesInUse` is their union. -/
theorem unreleased_disjoint {s : PlannerSystem} {h : List PlannerSystem} (hrun : Run parse (s :: h)) :
    s.unreleased.Pairwise List.Disjoint ∧ ∀ f, f ∈ s.planner.filesInUse ↔ ∃ group ∈ s.unreleased, f ∈ group := by
  have hi := hrun.inv
  refine ⟨(nodup_flatten.mp hi.unreleased).2, fun f => ?_⟩
  rw [hi.inUse, mem_flatten]

/-- **Gaps.** A file between two files of a group that a plan returns is in the group, unless it was in use
when the plan's listing was taken or the size guard of the plan passes its generation over. -/
theorem plan_no_gaps {s : PlannerSystem} {h : List PlannerSystem} (hrun : Run parse (s :: h))
    -- the file store gives a new modification time to every change of its files
    (hstore : ∀ s' ∈ h, s'.store.lastModified = s.store.lastModified →
      s'.store.stats.map (·.path) = s.store.stats.map (·.path))
    (call : Call) {group : CompactionGroup} (hgroup : group ∈ (s.planner.run parse s.store call).1.1)
    {a b : Path} (ha : a ∈ group) (hb : b ∈ group) {f : FileStat} (hf : f ∈ s.store.stats)
    (haf : (parse a).1 < (parse f.path).1) (hfb : (parse f.path).1 < (parse b).1) : f.path ∈ group ∨
    (∃ s' ∈ s :: h, s'.store.lastModified = s.store.lastModified ∧ f.path ∈ s'.planner.filesInUse ∧
      (s.planner.findGenerations parse s.store true).1 = freshListing parse s'.planner s'.store true) ∨
    ∃ g ∈ (s.planner.findGenerations parse s.store true).1, f.path ∈ g.paths ∧
      PassedOver parse s.planner s.store (s.planner.findGenerations parse s.store true).1 call g := by
  obtain ⟨s', hs', hmod, skip, hgens⟩ := (hrun.inv.kept.findGenerations true).1
  have hpaths : s'.store.stats.map (·.path) = s.store.stats.map (·.path) := by
    rcases mem_cons.mp hs' with rfl | hs'
    · rfl
    · exact hstore s' hs' hmod
  by_cases huse : skip = true ∧ f.path ∈ s'.planner.filesInUse
  · obtain ⟨rfl, huse⟩ := huse
    exact .inr (.inl ⟨s', hs', hmod, huse, hgens⟩)
  · -- the file is listed, under the name it has now
    have hmem : f.path ∈ s'.store.stats.map (·.path) := hpaths ▸ mem_map_of_mem hf
    obtain ⟨f', hf', hpath⟩ := mem_map.mp hmem
    have hlisted : f' ∈ s'.store.stats.filter fun f =>
        !(skip && decide (f.path ∈ s'.planner.filesInUse)) := by
      refine mem_filter.mpr ⟨hf', ?_⟩
      rw [hpath]
      cases skip with
      | false => rfl
      | true => simpa using huse
    rw [← hpath] at haf hfb ⊢
    have hlisting := listing_listGenerations parse (s'.store.stats.filter fun f =>
      !(skip && decide (f.path ∈ s'.planner.filesInUse)))
    rw [← freshListing, ← hgens] at hlisting
    obtain ⟨groups, hplanned, hgroups⟩ := planned_run hlisting.ids_asc hgroup
    rcases hplanned.no_gaps hlisting hgroups ha hb hlisted haf hfb with hmem | ⟨g, hg, hskip, hfg⟩
    · exact .inl hmem
    · exact .inr (.inr ⟨g, hg, hfg, hskip⟩)

/-! ## Plans with gaps -/

/-- A file of the store lies between two files of a group that the call returns, and is not in it. -/
def HasGap (parse : Path → ℕ × ℕ) (s : PlannerSystem) (call : Call) : Prop :=
  ∃ group ∈ (s.planner.run parse s.store call).1.1, ∃ a ∈ group, ∃ b ∈ group, ∃ f ∈ s.store.stats,
    (parse a).1 < (parse f.path).1 ∧ (parse f.path).1 < (parse b).1 ∧ f.path ∉ group

/-- The file of a generation and a sequence number. -/
def tsmFile (generation sequence : ℕ) : FileStat where
  path := defaultFormatFileName generation sequence ++ [46, 116, 115, 109]
  hasTombstone := false
  size := 1

/-- Two generations of level 2 and 24 of level 1. -/
def newFiles : PlanStore where
  stats := [tsmFile 1 2, tsmFile 2 2] ++ (range 24).map fun i => tsmFile (3 + i) 1
  nodup := by decide +kernel
  lastModified := 1
  blockCount _ := 1

/-- The last 16 of them have been compacted. -/
def someCompacted : PlanStore where
  stats := [tsmFile 1 2, tsmFile 2 2] ++ ((range 8).map fun i => tsmFile (3 + i) 1) ++ [tsmFile 18 2, tsmFile 26 2]
  nodup := by decide +kernel
  lastModified := 2
  blockCount _ := 1

/-- What the level 1 plan of the new files returns. -/
def levelOnePlan : (List CompactionGroup × ℕ) × DefaultPlanner :=
  (newDefaultPlanner 0).run parseFileName newFiles (.planLevel 1)

/-- The first group of the plan is still being compacted, the others are released. -/
def slowCompaction : PlannerSystem where
  planner := levelOnePlan.2.release (levelOnePlan.1.1.drop 1)
  store := someCompacted
  admitted := []
  listed := []
  planned := []
  unreleased := levelOnePlan.1.1.take 1

theorem run_slowCompaction : ∃ h, Run parseFileName (slowCompaction :: h) := by
  have hinit : Run parseFileName [initial 0 newFiles] := Run.initial 0 newFiles
  obtain ⟨h, hrun⟩ := hinit.call (.planLevel 1)
  refine ⟨_, (hrun.step (.change _ someCompacted)).step
    (.release _ (levelOnePlan.1.1.drop 1) (levelOnePlan.1.1.take 1) ?_)⟩
  have happ : (levelOnePlan.1.1.take 1 ++ levelOnePlan.1.1.drop 1).Perm
      (levelOnePlan.1.1.drop 1 ++ levelOnePlan.1.1.take 1) := perm_append_comm
  rw [take_append_drop] at happ
  exact happ

/-- Five generations of level 4, of which the third is over the max size. -/
def overSized : PlanStore where
  stats := [tsmFile 1 4, tsmFile 2 4] ++ ([4, 5, 6].map fun sequence =>
    { tsmFile 3 sequence with size := 1073741824 }) ++ [tsmFile 4 4, tsmFile 5 4]
  nodup := by decide +kernel
  lastModified := 1
  blockCount _ := 1000

/-- While generations 3 to 10 are being compacted, generations 1, 2, 18 and 26 are planned together; an
optimize plan and a full plan pass over a generation that is too large. -/
theorem plans_leave_gaps : (∃ s h, Run parseFileName (s :: h) ∧ HasGap parseFileName s (.planLevel 2)) ∧
    (∃ s h, Run parseFileName (s :: h) ∧ HasGap parseFileName s .planOptimize) ∧
    ∃ s h, Run parseFileName (s :: h) ∧ HasGap parseFileName s (.plan 0 2) := by
  obtain ⟨h, hrun⟩ := run_slowCompaction
  have hover : Run parseFileName [initial 0 overSized] := Run.initial 0 overSized
  refine ⟨⟨slowCompaction, h, hrun, [tsmFile 1 2, tsmFile 2 2, tsmFile 18 2, tsmFile 26 2].map (·.path), ?_,
      (tsmFile 2 2).path, ?_, (tsmFile 18 2).path, ?_, tsmFile 3 1, ?_⟩,
    ⟨initial 0 overSized, _, hover, [tsmFile 1 4, tsmFile 2 4, tsmFile 4 4, tsmFile 5 4].map (·.path), ?_,
      (tsmFile 2 4).path, ?_, (tsmFile 4 4).path, ?_, { tsmFile 3 5 with size := 1073741824 }, ?_⟩,
    ⟨{ initial 0 overSized with planner := (newDefaultPlanner 0).requestFull }, _, hover.step (.forceFull _),
      [tsmFile 1 4, tsmFile 2 4, tsmFile 4 4, tsmFile 5 4].map (·.path), ?_,
      (tsmFile 2 4).path, ?_, (tsmFile 4 4).path, ?_, { tsmFile 3 5 with size := 1073741824 }, ?_⟩⟩
  all_goals decide +kernel

theorem unreleased_disjoint_slowCompaction : (∃ h, Run parseFileName (slowCompaction :: h)) ∧
    slowCompaction.unreleased.Pairwise List.Disjoint ∧
      ∀ f, f ∈ slowCompaction.planner.filesInUse ↔ ∃ group ∈ slowCompaction.unreleased, f ∈ group := by
  obtain ⟨h, hrun⟩ := run_slowCompaction
  exact ⟨⟨h, hrun⟩, unreleased_disjoint hrun⟩

theorem plan_no_gaps_newFiles : ∃ group ∈ ((newDefaultPlanner 0).run parseFileName newFiles (.planLevel 1)).1.1,
    (tsmFile 3 1).path ∈ group ∧ (tsmFile 5 1).path ∈ group ∧ ((tsmFile 4 1).path ∈ group ∨
      (∃ s' ∈ [initial 0 newFiles], s'.store.lastModified = 1 ∧ (tsmFile 4 1).path ∈ s'.planner.filesInUse ∧
        ((newDefaultPlanner 0).findGenerations parseFileName newFiles true).1 =
          freshListing parseFileName s'.planner s'.store true) ∨
      ∃ g ∈ ((newDefaultPlanner 0).findGenerations parseFileName newFiles true).1, (tsmFile 4 1).path ∈ g.paths ∧
        PassedOver parseFileName (newDefaultPlanner 0) newFiles
          ((newDefaultPlanner 0).findGenerations parseFileName newFiles true).1 (.planLevel 1) g) := by
  have hgroup : (range 8).map (fun i => (tsmFile (3 + i) 1).path) ∈
      ((newDefaultPlanner 0).run parseFileName newFiles (.planLevel 1)).1.1 := by decide +kernel
  refine ⟨_, hgroup, by decide +kernel, by decide +kernel, ?_⟩
  exact plan_no_gaps (s := initial 0 newFiles) (h := []) (Run.initial 0 newFiles)
    (forall_mem_nil _) (.planLevel 1) hgroup (a := (tsmFile 3 1).path)
    (b := (tsmFile 5 1).path) (f := tsmFile 4 1) (by decide +kernel) (by decide +kernel) (by decide +kernel)
    (by decide +kernel) (by decide +kernel)

end PlannerSystem

end Influxdb.Tsm1
