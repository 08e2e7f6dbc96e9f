import Mathlib.Data.List.Flatten
import Influxdb.Tsm1.Planner

/-!
# PlannerGroups — what the plans are made of

A listing holds every file once, in the generation that its name gives, and the generations ascend
(`Listing`).  Every planner splits a listing into disjoint runs of generations, less the generations it
passes over: `Planned` says so of the groups it returns.
-/

namespace Influxdb.Tsm1

open List DefaultPlanner TsmGenerations

variable {parse : Path → ℕ × ℕ} {groups : List CompactionGroup}
variable {g : TsmGeneration} {p : TsmGeneration → Bool} {G : TsmGenerations} {group : CompactionGroup} {store : PlanStore}

/-! ## Listings -/

/-- The generations of `stats`, oldest first. -/
structure Listing (parse : Path → ℕ × ℕ) (stats : List FileStat) (gens : TsmGenerations) : Prop where
  ids_asc : gens.Pairwise fun a b => a.id < b.id
  files_eq : ∀ g ∈ gens, g.files = stats.filter fun f => (parse f.path).1 = g.id
  exists_gen : ∀ f ∈ stats, ∃ g ∈ gens, g.id = (parse f.path).1

/-- The map of generations while the files are added. -/
structure Grouped (parse : Path → ℕ × ℕ) (stats : List FileStat) (gens : TsmGenerations) : Prop where
  ids_nodup : (gens.map (·.id)).Nodup
  files_eq : ∀ g ∈ gens, g.files = stats.filter fun f => (parse f.path).1 = g.id
  exists_gen : ∀ f ∈ stats, ∃ g ∈ gens, g.id = (parse f.path).1

theorem Grouped.addFile {stats : List FileStat} {gens : TsmGenerations} (h : Grouped parse stats gens)
    (f : FileStat) : Grouped parse (stats ++ [f]) (addFile parse gens f) := by
  unfold DefaultPlanner.addFile
  simp only
  split_ifs with hany
  · -- the generation is there
    obtain ⟨g₀, hg₀, hid⟩ := any_eq_true.mp hany
    have hid : g₀.id = (parse f.path).1 := by simpa using hid
    have hids : ∀ g, (if g.id = (parse f.path).1 then
        { g with files := g.files ++ [f] } else g : TsmGeneration).id = g.id := fun g => by
      split_ifs <;> rfl
    refine ⟨?_, forall_mem_map.mpr fun g hg => ?_, forall_mem_append.mpr ⟨fun x hx => ?_, ?_⟩⟩
    · rw [map_map]
      exact (congrArg Nodup (map_congr_left fun g _ => hids g)).mpr h.ids_nodup
    · rw [hids, filter_append, ← h.files_eq g hg]
      split_ifs with heq
      · simp [heq]
      · simp [Ne.symm heq]
    · obtain ⟨g, hg, hgid⟩ := h.exists_gen x hx
      exact ⟨_, mem_map_of_mem hg, (hids g).trans hgid⟩
    · exact forall_mem_singleton.mpr ⟨_, mem_map_of_mem hg₀, (hids g₀).trans hid⟩
  · -- a new generation
    have hnew : ∀ g ∈ gens, g.id ≠ (parse f.path).1 := fun g hg heq =>
      hany (any_eq_true.mpr ⟨g, hg, by simpa using heq⟩)
    refine ⟨?_, forall_mem_append.mpr ⟨fun g hg => ?_, forall_mem_singleton.mpr ?_⟩,
      forall_mem_append.mpr ⟨fun x hx => ?_, ?_⟩⟩
    · rw [map_append, nodup_append]
      refine ⟨h.ids_nodup, by simp, forall_mem_map.mpr fun g hg b hb => ?_⟩
      have hb : b = (parse f.path).1 := by simpa using hb
      exact hb ▸ hnew g hg
    · rw [filter_append, ← h.files_eq g hg]
      simp [Ne.symm (hnew g hg)]
    · have hnone : stats.filter (fun x => (parse x.path).1 = (parse f.path).1) = [] := by
        refine filter_eq_nil_iff.mpr fun x hx => ?_
        obtain ⟨g, hg, hgid⟩ := h.exists_gen x hx
        simpa using hgid ▸ hnew g hg
      rw [filter_append]
      simp [hnone]
    · obtain ⟨g, hg, hgid⟩ := h.exists_gen x hx
      exact ⟨g, mem_append_left _ hg, hgid⟩
    · exact forall_mem_singleton.mpr ⟨_, mem_append_right _ (mem_singleton_self _), rfl⟩

theorem grouped_foldl (parse : Path → ℕ × ℕ) (stats : List FileStat) :
    Grouped parse stats (stats.foldl (addFile parse) []) := by
  induction stats using reverseRecOn with
  | nil => exact ⟨by simp, by simp, by simp⟩
  | append_singleton stats f ih =>
    rw [foldl_append]
    exact ih.addFile f

/-- **The listing** of some files. -/
theorem listing_listGenerations (parse : Path → ℕ × ℕ) (stats : List FileStat) :
    Listing parse stats (listGenerations parse stats) := by
  have h := grouped_foldl parse stats
  have hperm : (listGenerations parse stats).Perm (stats.foldl (addFile parse) []) := insertionSort_perm _
  refine ⟨?_, fun g hg => h.files_eq g (hperm.mem_iff.mp hg), fun f hf => ?_⟩
  · have hchain : (listGenerations parse stats).IsChain fun a b : TsmGeneration => a.id ≤ b.id :=
      (isChain_insertionSort (fun x y hxy => by
        rw [decide_eq_true_eq] at hxy
        rw [decide_eq_false_iff_not]
        omega) _).imp fun a b hab => by
          rw [NotAfter, decide_eq_false_iff_not] at hab
          omega
    have hle : (listGenerations parse stats).Pairwise fun a b : TsmGeneration => a.id ≤ b.id := by
      have : IsTrans TsmGeneration fun a b => a.id ≤ b.id := ⟨fun _ _ _ => le_trans⟩
      exact isChain_iff_pairwise.mp hchain
    have hne : (listGenerations parse stats).Pairwise fun a b : TsmGeneration => a.id ≠ b.id :=
      pairwise_map.mp ((hperm.map TsmGeneration.id).nodup_iff.mpr h.ids_nodup)
    exact (hle.and hne).imp fun hab => lt_of_le_of_ne hab.1 hab.2
  · obtain ⟨g, hg, hid⟩ := h.exists_gen f hf
    exact ⟨g, hperm.mem_iff.mpr hg, hid⟩

namespace Listing

variable {stats : List FileStat} {gens : TsmGenerations}

theorem gen_eq (h : Listing parse stats gens) (hg : g ∈ gens) {p : Path} (hp : p ∈ g.paths) : (parse p).1 = g.id := by
  obtain ⟨f, hf, rfl⟩ := mem_map.mp hp
  rw [h.files_eq g hg] at hf
  simpa using (mem_filter.mp hf).2

theorem paths_nodup (h : Listing parse stats gens) (hn : (stats.map (·.path)).Nodup) : (paths gens).Nodup := by
  refine nodup_flatMap.mpr ⟨fun g hg => ?_, ?_⟩
  · rw [TsmGeneration.paths, h.files_eq g hg]
    exact hn.sublist (filter_sublist.map _)
  · refine (Pairwise.and_mem.mp h.ids_asc).imp fun {a b} hab p hpa hpb => ?_
    have h1 := h.gen_eq hab.1 hpa
    have h2 := h.gen_eq hab.2.1 hpb
    omega

end Listing

/-! ## Runs of generations -/

/-- A generation of the listing between two of `G` is in `G` or is passed over. -/
def NoGaps (gens : TsmGenerations) (skip : TsmGeneration → Prop) (G : TsmGenerations) : Prop :=
  ∀ x ∈ G, ∀ y ∈ G, ∀ g ∈ gens, x.id < g.id → g.id < y.id → g ∈ G ∨ skip g

/-- The groups are the files of disjoint parts of the listing that have no gaps. -/
def Planned (gens : TsmGenerations) (skip : TsmGeneration → Prop) (groups : List CompactionGroup) : Prop :=
  ∃ Gs : List TsmGenerations, Gs.flatten.Sublist gens ∧ (∀ G ∈ Gs, NoGaps gens skip G) ∧
    Forall₂ (fun group G => group.Perm (TsmGenerations.paths G)) groups Gs

variable {gens : TsmGenerations} {skip : TsmGeneration → Prop} (hasc : gens.Pairwise fun a b => a.id < b.id)

include hasc in
theorem noGaps_of_infix (hp : ∀ g ∈ gens, p g = false → skip g) (hG : G <:+: gens.filter p) : NoGaps gens skip G := by
  intro x hx y hy g hg hxg hgy
  cases hpg : p g with
  | false => exact .inr (hp g hg hpg)
  | true =>
    left
    obtain ⟨as, bs, heq⟩ := hG
    have hsorted := hasc.filter p
    have hmem : g ∈ gens.filter p := mem_filter.mpr ⟨hg, hpg⟩
    rw [← heq] at hsorted hmem
    obtain ⟨h1, -, h3⟩ := pairwise_append.mp hsorted
    obtain ⟨-, -, h2⟩ := pairwise_append.mp h1
    rcases mem_append.mp hmem with hmem | hmem
    · rcases mem_append.mp hmem with hmem | hmem
      · have := h2 g hmem x hx
        omega
      · exact hmem
    · have := h3 y (mem_append_right _ hy) g hmem
      omega

theorem Planned.mono {skip' : TsmGeneration → Prop}
    (h : Planned gens skip groups) (himp : ∀ g, skip g → skip' g) : Planned gens skip' groups := by
  obtain ⟨Gs, hsub, hgaps, hforall⟩ := h
  exact ⟨Gs, hsub, fun G hG x hx y hy g hg hxg hgy => (hgaps G hG x hx y hy g hg hxg hgy).imp_right (himp g), hforall⟩

theorem planned_nil : Planned gens skip [] :=
  ⟨[], nil_sublist _, forall_mem_nil _, Forall₂.nil⟩

include hasc in
theorem planned_of_parts (hp : ∀ g ∈ gens, p g = false → skip g) {Gs : List TsmGenerations}
    (hsub : Gs.flatten.Sublist gens) (hinf : ∀ G ∈ Gs, G <:+: gens.filter p)
    {f : TsmGenerations → CompactionGroup} (hf : ∀ G, (f G).Perm (paths G)) : Planned gens skip (Gs.map f) := by
  refine ⟨Gs, hsub, fun G hG => noGaps_of_infix hasc hp (hinf G hG), ?_⟩
  rw [forall₂_map_left_iff]
  exact forall₂_same.mpr fun G _ => hf G

theorem Planned.exists_part (h : Planned gens skip groups) (hgroup : group ∈ groups) : ∃ G, G.Sublist gens ∧
      NoGaps gens skip G ∧ group.Perm (paths G) := by
  obtain ⟨Gs, hsub, hgaps, hforall⟩ := h
  obtain ⟨i, hi, rfl⟩ := mem_iff_getElem.mp hgroup
  obtain ⟨hlen, hget⟩ := forall₂_iff_get.mp hforall
  have hG : Gs[i] ∈ Gs := getElem_mem (hlen ▸ hi)
  exact ⟨Gs[i], (sublist_flatten_of_mem hG).trans hsub, hgaps _ hG, hget i hi (hlen ▸ hi)⟩

/-- A file of the listing between two files of a group is in the group, or its generation is passed
over. -/
theorem Planned.no_gaps (h : Planned gens skip groups) {stats : List FileStat}
    (hl : Listing parse stats gens) (hgroup : group ∈ groups) {a b : Path}
    (ha : a ∈ group) (hb : b ∈ group) {f : FileStat} (hf : f ∈ stats)
    (haf : (parse a).1 < (parse f.path).1) (hfb : (parse f.path).1 < (parse b).1) :
    f.path ∈ group ∨ ∃ g ∈ gens, skip g ∧ f.path ∈ g.paths := by
  obtain ⟨G, hsub, hgaps, hperm⟩ := h.exists_part hgroup
  obtain ⟨x, hx, hax⟩ := mem_flatMap.mp (hperm.mem_iff.mp ha)
  obtain ⟨y, hy, hby⟩ := mem_flatMap.mp (hperm.mem_iff.mp hb)
  obtain ⟨g, hg, hid⟩ := hl.exists_gen f hf
  have hfg : f.path ∈ g.paths := by
    rw [TsmGeneration.paths, hl.files_eq g hg]
    exact mem_map_of_mem (mem_filter.mpr ⟨hf, by simpa using hid.symm⟩)
  rw [hl.gen_eq (hsub.mem hx) hax, ← hid] at haf
  rw [hl.gen_eq (hsub.mem hy) hby, ← hid] at hfb
  rcases hgaps x hx y hy g hg haf hfb with hmem | hskip
  · exact .inl (hperm.mem_iff.mpr (mem_flatMap.mpr ⟨g, hmem, hfg⟩))
  · exact .inr ⟨g, hg, hskip, hfg⟩

theorem Planned.nodup (h : Planned gens skip groups) (hn : (paths gens).Nodup) : groups.flatten.Nodup := by
  obtain ⟨Gs, hsub, -, hforall⟩ := h
  have hperm : groups.flatten.Perm (paths Gs.flatten) := by
    clear hsub
    induction hforall with
    | nil => exact Perm.refl _
    | cons hg _ ih =>
      rw [flatten_cons, flatten_cons, paths, flatMap_append]
      exact hg.append ih
  exact hperm.nodup_iff.mpr (hn.sublist (hsub.flatMap _))

/-! ## The planners -/

theorem groupByLevel_flatten {s : TsmGeneration → Bool} : ∀ gens currentGen,
    (groupByLevel parse s gens currentGen).flatten = currentGen ++ gens.filter (fun g => !s g)
  | [], currentGen => by
    rw [groupByLevel]
    split_ifs with h
    · simp
    · simp [length_eq_zero_iff.mp (Nat.eq_zero_of_not_pos h)]
  | cur :: rest, currentGen => by
    rw [groupByLevel]
    split_ifs with h1 h2 h3
    · rw [groupByLevel_flatten rest currentGen, filter_cons_of_neg (by simp [h1])]
    · rw [groupByLevel_flatten rest _, filter_cons_of_pos (by simp [h1])]
      simp
    · rw [groupByLevel_flatten rest _, filter_cons_of_pos (by simp [h1])]
      simp
    · rw [flatten_cons, groupByLevel_flatten rest _, filter_cons_of_pos (by simp [h1])]
      simp

theorem chunkLoop_flatten {size : ℕ} : ∀ n a, (0 < a.length → 0 < size) →
    a.length ≤ n → (chunkLoop size n a).flatten = a
  | 0, a, _, h => by
    rw [length_eq_zero_iff.mp (Nat.le_zero.mp h)]
    rfl
  | n + 1, a, hs, h => by
    rw [chunkLoop]
    split_ifs with h1 h2
    · have hpos := hs h1
      rw [flatten_cons, chunkLoop_flatten n _ (fun _ => hpos) (by rw [length_drop]; omega), take_append_drop]
    · simp
    · rw [length_eq_zero_iff.mp (Nat.eq_zero_of_not_pos h1)]
      rfl

theorem chunk_flatten {size : ℕ} {a : TsmGenerations} (hs : 0 < a.length → 0 < size) :
    (chunk size a).flatten = a := chunkLoop_flatten a.length a hs le_rfl

theorem filterMap_ite {α β : Type*} (c : α → Prop) [DecidablePred c] (f : α → β) (l : List α) :
    (l.filterMap fun a => if c a then none else some (f a)) = (l.filter fun a => ¬ c a).map f := by
  induction l with
  | nil => rfl
  | cons a l ih =>
    by_cases h : c a
    · rw [filterMap_cons_none (by simp [h]), ih, filter_cons_of_neg (by simp [h])]
    · rw [filterMap_cons_some (b := f a) (by simp [h]), ih, filter_cons_of_pos (by simp [h]), map_cons]

include hasc in
theorem planned_levelGroups (level : ℕ) : Planned gens (fun _ => False) (levelGroups parse level gens) := by
  unfold levelGroups
  by_cases hfew : gens.length ≤ 1 ∧ !hasTombstones gens
  · rw [if_pos hfew]
    exact planned_nil
  · rw [if_neg hfew]
    generalize hm : (if level = 1 then 8 else 4) = minGenerations
    have hpos : 0 < minGenerations := by
      rw [← hm]
      split_ifs <;> decide
    have hall : gens.filter (fun _ => true) = gens := by simp
    have hgroups : (groupByLevel parse (fun _ => false) gens []).flatten = gens := by
      rw [groupByLevel_flatten]
      simp
    rw [filterMap_ite]
    refine planned_of_parts hasc (p := fun _ => true) (fun g _ h => by cases h) ?_ ?_
      (fun G => Perm.refl _)
    · -- the chunks of the groups of the level are parts of the listing
      have h1 : ((groupByLevel parse (fun _ => false) gens []).filter fun cur =>
          TsmGenerations.level parse cur = level).flatten.Sublist gens := by
        conv_rhs => rw [← hgroups]
        exact filter_sublist.flatten
      have h2 : ∀ L : List TsmGenerations,
          (L.flatMap (chunk minGenerations)).flatten = L.flatten := fun L => by
        induction L with
        | nil => rfl
        | cons G L ih =>
          rw [flatMap_cons, flatten_append, ih, chunk_flatten fun _ => hpos, flatten_cons]
      rw [← h2] at h1
      exact filter_sublist.flatten.trans h1
    · intro G hG
      obtain ⟨group, hgroup, hchunk⟩ := mem_flatMap.mp (mem_filter.mp hG).1
      rw [hall]
      have h1 : G <:+: group := by
        conv_rhs => rw [← chunk_flatten (a := group) fun _ => hpos]
        exact infix_of_mem_flatten hchunk
      have h2 : group <:+: gens := by
        conv_rhs => rw [← hgroups]
        exact infix_of_mem_flatten (mem_filter.mp hgroup).1
      exact h1.trans h2

include hasc in
theorem planned_optimizeGroups (store : PlanStore) :
    Planned gens (fun g => optimizeSkips store g = true) (optimizeGroups parse store gens) := by
  unfold optimizeGroups
  split_ifs with hfew
  · exact planned_nil
  · simp only
    have hgroups : (groupByLevel parse (optimizeSkips store) gens []).flatten =
        gens.filter fun g => !optimizeSkips store g := by
      rw [groupByLevel_flatten, nil_append]
    rw [filterMap_ite]
    refine planned_of_parts hasc (p := fun g => !optimizeSkips store g)
      (fun g _ h => by simpa using h) ?_ ?_ (fun G => Perm.refl _)
    · refine Sublist.trans (filter_sublist.flatten) ?_
      refine Sublist.trans (filter_sublist.flatten) ?_
      rw [hgroups]
      exact filter_sublist
    · intro G hG
      rw [← hgroups]
      exact infix_of_mem_flatten (mem_filter.mp (mem_filter.mp hG).1).1

/-- The generations a full plan of the listing passes over. -/
def FullSkipped (parse : Path → ℕ × ℕ) (store : PlanStore) (gens : TsmGenerations) (g : TsmGeneration) : Prop :=
  ∃ before rest, gens = before ++ g :: rest ∧ fullSkips parse store gens.length g rest = true

theorem fullGenerations_sublist (store : PlanStore) (n : ℕ) : ∀ gens : TsmGenerations,
    (fullGenerations parse store n gens).Sublist gens
  | [] => Sublist.refl _
  | group :: rest => by
    rw [fullGenerations]
    split_ifs
    · exact (fullGenerations_sublist store n rest).cons group
    · exact (fullGenerations_sublist store n rest).cons_cons group

theorem mem_fullGenerations_or (store : PlanStore) (n : ℕ) : ∀ {gens : TsmGenerations},
    g ∈ gens → g ∈ fullGenerations parse store n gens ∨
      ∃ before rest, gens = before ++ g :: rest ∧ fullSkips parse store n g rest = true
  | group :: rest, hg => by
    rw [fullGenerations]
    rcases mem_cons.mp hg with rfl | hg
    · split_ifs with hskip
      · exact .inr ⟨[], rest, rfl, hskip⟩
      · exact .inl mem_cons_self
    · rcases mem_fullGenerations_or store n hg with hmem | ⟨before, after, rfl, hskip⟩
      · left
        split_ifs
        · exact hmem
        · exact mem_cons_of_mem _ hmem
      · exact .inr ⟨group :: before, after, rfl, hskip⟩

theorem sortStrings_perm (l : List Path) : (sortStrings l).Perm l := insertionSort_perm l

theorem planned_fullGroups (store : PlanStore) :
    Planned gens (FullSkipped parse store gens) (fullGroups parse store gens) := by
  unfold fullGroups
  simp only
  split_ifs with hfew
  · exact planned_nil
  · refine ⟨[fullGenerations parse store gens.length gens], ?_, ?_, ?_⟩
    · simpa using fullGenerations_sublist store gens.length gens
    · intro G hG x _ y _ g hg _ _
      rw [mem_singleton.mp hG]
      exact mem_fullGenerations_or store gens.length hg
    · exact Forall₂.cons (sortStrings_perm _) Forall₂.nil

theorem planWindow_suffix {window : TsmGenerations} (h : planWindow parse store window = some G) : G <:+ window := by
  unfold planWindow at h
  simp only at h
  split_ifs at h
  cases h
  exact drop_suffix _ _

theorem planWindow_flatten (L : List TsmGenerations) :
    (L.filterMap (planWindow parse store)).flatten.Sublist L.flatten := by
  induction L with
  | nil => exact Sublist.refl _
  | cons window L ih =>
    cases h : planWindow parse store window with
    | none =>
      rw [filterMap_cons_none h, flatten_cons]
      exact ih.trans (sublist_append_right _ _)
    | some G =>
      rw [filterMap_cons_some h, flatten_cons, flatten_cons]
      exact (planWindow_suffix h).sublist.append ih

include hasc in
theorem planned_planGroups (store : PlanStore) : Planned gens (fun _ => False) (planGroups parse store gens) := by
  unfold planGroups
  simp only
  generalize hstart : planStart store 0 none false 0 (gens.take (planEnd parse gens)) = start
  generalize hexamined : (gens.take (planEnd parse gens)).drop start = examined
  have hinfix : examined <:+: gens := by
    rw [← hexamined]
    have hsuffix := drop_suffix start (gens.take (planEnd parse gens))
    have hprefix := take_prefix (planEnd parse gens) gens
    exact hsuffix.isInfix.trans hprefix.isInfix
  -- a step of 0 is taken only when there is no generation of level 4
  have hchunk : (chunk (if 4 > planEnd parse gens then planEnd parse gens else 4) examined).flatten = examined := by
    refine chunk_flatten fun hlen => ?_
    rw [← hexamined, length_drop, length_take] at hlen
    split_ifs <;> omega
  generalize chunk (if 4 > planEnd parse gens then planEnd parse gens else 4) examined =
    windows at hchunk
  have hall : gens.filter (fun _ => true) = gens := by simp
  refine planned_of_parts hasc (p := fun _ => true) (fun g _ h => by cases h) ?_ ?_
    (fun G => sortStrings_perm _)
  · refine filter_sublist.flatten.trans ((planWindow_flatten windows).trans ?_)
    rw [hchunk]
    exact hinfix.sublist
  · intro G hG
    obtain ⟨window, hwindow, hG⟩ := mem_filterMap.mp (mem_filter.mp hG).1
    rw [hall]
    have h1 : window <:+: examined := hchunk ▸ infix_of_mem_flatten hwindow
    exact (planWindow_suffix hG).isInfix.trans (h1.trans hinfix)

/-- The generations a call passes over, on its listing. -/
def PassedOver (parse : Path → ℕ × ℕ) (c : DefaultPlanner) (store : PlanStore) (gens : TsmGenerations)
    (call : Call) (g : TsmGeneration) : Prop :=
  match call with
  | .planLevel _ => False
  | .planOptimize => optimizeSkips store g = true
  | .plan since _ => c.plansFull since gens = true ∧ FullSkipped parse store gens g

include hasc in
/-- **Plans.** Every call asks for the files of disjoint parts of its listing, which have no gaps but the
generations that it passes over. -/
theorem planned_groupsOf (c : DefaultPlanner) (store : PlanStore)
    (call : Call) : Planned gens (PassedOver parse c store gens call) (c.groupsOf parse store gens call).1 := by
  cases call with
  | planLevel level => exact planned_levelGroups hasc level
  | planOptimize => exact planned_optimizeGroups hasc store
  | plan since now =>
    unfold groupsOf
    simp only
    split_ifs with hfull hcheck hfew
    · exact (planned_fullGroups store).mono fun g hg => ⟨hfull, hg⟩
    · exact planned_nil
    · exact planned_nil
    · exact (planned_planGroups hasc store).mono fun g hg => hg.elim

end Influxdb.Tsm1
