import Influxdb.Coordinator.Growth

/-!
# MapShardsRight — when each point goes to the group that owns its time

The private list of `MapShards` is searched by nominal ranges, so a point goes to the group of a neighbour in the batch
whenever that group contains its time nominally: also when the group is truncated before that time, and also when the point
is older than the retention policy allows.  Every batch drawn from a set of points is mapped rightly exactly if no group
that owns one of them contains another one in this way.
-/

namespace Influxdb.Coordinator

open List Assoc SgList

open Models (Time Point)
open Meta

variable {l : SgList} {g : ShardGroupInfo} {done : List Point} {t : Time} {m : ShardMapping} {p q : Point}

section Right

variable {database policy : String} {data data₀ : Data} {rpi rpi₀ : RetentionPolicyInfo} {min : Time}

/-! ## The first walk -/

/-- What holds after the points `done` of the first walk. -/
structure Collected (rpi : RetentionPolicyInfo) (min : Time) (l : SgList) (done : List Point) : Prop where
  bounded : l.Bounded
  items : ∀ g ∈ l.items, g ∈ rpi.shardGroups ∧ ∃ p ∈ done, ¬p.time < min ∧ g.owns p.time = true
  covered : ∀ p ∈ done, ¬p.time < min → ∃ g ∈ l.items, g.contains p.time = true

theorem Collected.sort (h : Collected rpi min l done) : Collected rpi min l.sort done := by
  refine ⟨h.bounded.sort, fun g hg => h.items g (mem_sort.mp hg), fun p hp hmin => ?_⟩
  obtain ⟨g, hg, hcon⟩ := h.covered p hp hmin
  exact ⟨g, mem_sort.mpr hg, hcon⟩

theorem Collected.skip {p : Point} (h : Collected rpi min l done)
    (hp : ¬p.time < min → ∃ g ∈ l.items, g.contains p.time = true) : Collected rpi min l (done ++ [p]) := by
  refine ⟨h.bounded, fun g hg => ?_, forall_mem_append.mpr ⟨h.covered, forall_mem_singleton.mpr hp⟩⟩
  obtain ⟨hmem, q, hq, hown⟩ := h.items g hg
  exact ⟨hmem, q, mem_append_left _ hq, hown⟩

theorem contains_of_owns (h : g.owns t = true) : g.contains t = true := by
  obtain ⟨-, hlo, hhi, -⟩ := ShardGroupInfo.owns_iff.mp h
  exact contains_iff.mpr ⟨hlo, hhi⟩

theorem Collected.add {rpi' : RetentionPolicyInfo} {p : Point}
    (h : Collected rpi min l done) (hsub : ∀ a ∈ rpi.shardGroups, a ∈ rpi'.shardGroups) (htiled : Tiled rpi'.shardGroups)
    (hg : g ∈ rpi'.shardGroups) (hown : g.owns p.time = true) (hmin : ¬p.time < min) :
    Collected rpi' min (l.add g) (done ++ [p]) := by
  have hsound := htiled.sound g hg (ShardGroupInfo.owns_iff.mp hown).1
  refine ⟨h.bounded.add hsound.set (hsound.start_le.trans hsound.le_end), forall_mem_append.mpr ⟨fun a ha => ?_, ?_⟩,
    forall_mem_append.mpr ⟨fun q hq hq' => ?_, ?_⟩⟩
  · obtain ⟨hmem, q, hq, hqown⟩ := h.items a ha
    exact ⟨hsub a hmem, q, mem_append_left _ hq, hqown⟩
  · exact forall_mem_singleton.mpr ⟨hg, p, mem_append_right _ mem_cons_self, hmin, hown⟩
  · obtain ⟨a, ha, hcon⟩ := h.covered q hq hq'
    exact ⟨a, mem_append_left _ ha, hcon⟩
  · exact forall_mem_singleton.mpr fun _ => ⟨g, mem_append_right _ mem_cons_self, contains_of_owns hown⟩

/-- **The first walk** succeeds; its list has a group for every point the policy does not drop, and only such groups. -/
theorem collect_spec (h₀ : Well database policy data₀ rpi₀) {ps done : List Point}
    (h : Well database policy data rpi) (hgrown : Grown rpi₀ rpi) (hcol : Collected rpi min l done)
    (hps : ∀ p ∈ ps, InRange p.time) :
    ∃ data' rpi' l', collect database policy min data l ps = .ok (data', l') ∧ Well database policy data' rpi' ∧
      Grown rpi₀ rpi' ∧ Collected rpi' min l' (done ++ ps) := by
  induction ps generalizing data rpi l done with
  | nil => exact ⟨data, rpi, l, rfl, h, hgrown, by simpa using hcol⟩
  | cons p ps ih =>
    obtain ⟨hp, hps⟩ := forall_mem_cons.mp hps
    have hsplit : done ++ p :: ps = done ++ [p] ++ ps := by simp
    rw [collect, hsplit]
    split_ifs with hmin hcov
    · exact ih h hgrown (hcol.skip fun hn => absurd hmin hn) hps
    · refine ih h hgrown (hcol.sort.skip fun _ => ?_) hps
      obtain ⟨g, hg, hcon⟩ := (covers_iff hcol.bounded).mp hcov
      exact ⟨g, mem_sort.mpr hg, hcon⟩
    · cases hf : rpi.shardGroupByTimestamp p.time with
      | some g =>
        rw [createShardGroup_found h hf]
        have hown := find?_some (p := fun g : ShardGroupInfo => g.owns p.time) hf
        exact ih h hgrown (hcol.sort.add (fun _ ha => ha) h.tiled (mem_of_find?_eq_some hf) hown hmin) hps
      | none =>
        have ho : Open rpi p.time := ⟨hp, hf⟩
        obtain ⟨data', rpi', hcreate, hwell', -, hdur, hperm⟩ := createShardGroup_made h ho
        rw [hcreate]
        have hgrown' := hgrown.made h₀.tiled h ho hdur hperm
        have hmem := hperm.mem_iff.mpr (mem_append_right _ mem_cons_self)
        refine ih hwell' hgrown' (hcol.sort.add ?_ hwell'.tiled hmem (newShardGroup_owns h ho) hmin) hps
        exact fun a ha => hperm.mem_iff.mpr (mem_append_left _ ha)

/-! ## The second walk -/

/-- The points of a mapping that are not dropped. -/
def ShardMapping.kept (m : ShardMapping) : List Point := m.points.flatMap Prod.snd

theorem flatMap_put_perm (k : ℕ) (p : Point) (l : List (ℕ × List Point)) :
    ((put k ((get k l).getD [] ++ [p]) l).flatMap Prod.snd).Perm (l.flatMap Prod.snd ++ [p]) := by
  induction l with
  | nil => simp [put]
  | cons e l ih =>
    rw [put, get_cons]
    split_ifs with hk
    · simp only [Option.getD_some, flatMap_cons, append_assoc]
      exact perm_append_comm.append_left _
    · simp only [flatMap_cons, append_assoc]
      exact ih.append_left _

theorem mem_mapPoint {s : ShardInfo} {e : ℕ × List Point} (he : e ∈ (m.mapPoint s p).points) (hq : q ∈ e.2) :
    (∃ e₀ ∈ m.points, e₀.1 = e.1 ∧ q ∈ e₀.2) ∨ q = p ∧ e.1 = s.id := by
  rcases mem_put he with rfl | he
  · rcases mem_append.mp hq with hq | hq
    · cases hget : get s.id m.points with
      | none =>
        rw [hget] at hq
        cases hq
      | some ps =>
        rw [hget] at hq
        exact .inl ⟨(s.id, ps), mem_of_get hget, rfl, hq⟩
    · exact .inr ⟨mem_singleton.mp hq, rfl⟩
  · exact .inl ⟨e, he, rfl, hq⟩

/-- What the second walk over `ps` makes of the mapping `m`. -/
structure Assigned (l : SgList) (m m' : ShardMapping) (ps : List Point) : Prop where
  once : (m'.dropped ++ m'.kept).Perm (m.dropped ++ m.kept ++ ps)
  dropped : ∀ p ∈ m'.dropped, p ∈ m.dropped ∨ p ∈ ps ∧ l.shardGroupAt p.time = none
  placed : ∀ e ∈ m'.points, ∀ p ∈ e.2, (∃ e₀ ∈ m.points, e₀.1 = e.1 ∧ p ∈ e₀.2) ∨
    p ∈ ps ∧ ∃ g, l.shardGroupAt p.time = some g ∧ ∃ s ∈ g.shards, s.id = e.1

/-- **The second walk** places every point once, by what the list finds for its time. -/
theorem assign_spec {ps : List Point} (hshards : ∀ p ∈ ps, ∀ g, l.shardGroupAt p.time = some g → g.shards ≠ []) :
    ∃ m', assign l m ps = .ok m' ∧ Assigned l m m' ps := by
  induction ps generalizing m with
  | nil =>
    refine ⟨m, rfl, by simp, fun p hp => .inl hp, fun e he p hp => .inl ⟨e, he, rfl, hp⟩⟩
  | cons p ps ih =>
    obtain ⟨hp, hps⟩ := forall_mem_cons.mp hshards
    rw [assign]
    cases hat : l.shardGroupAt p.time with
    | none =>
      obtain ⟨m', hm', has⟩ := @ih { m with dropped := m.dropped ++ [p] } hps
      refine ⟨m', hm', ?_, fun q hq => ?_, fun e he q hq => ?_⟩
      · refine has.once.trans ?_
        simp only [ShardMapping.kept, append_assoc]
        exact (perm_append_comm_assoc _ _ _).append_left _
      · rcases has.dropped q hq with hq | ⟨hq, hnone⟩
        · rcases mem_append.mp hq with hq | hq
          · exact .inl hq
          · rw [mem_singleton.mp hq]
            exact .inr ⟨mem_cons_self, hat⟩
        · exact .inr ⟨mem_cons_of_mem p hq, hnone⟩
      · rcases has.placed e he q hq with hold | ⟨hq, hg⟩
        · exact .inl hold
        · exact .inr ⟨mem_cons_of_mem p hq, hg⟩
    | some g =>
      have hne := hp g hat
      simp only [dif_neg hne]
      obtain ⟨m', hm', has⟩ := @ih (m.mapPoint (shardFor g hne p) p) hps
      refine ⟨m', hm', ?_, fun q hq => ?_, fun e he q hq => ?_⟩
      · refine has.once.trans ?_
        have hkept : (m.mapPoint (shardFor g hne p) p).kept.Perm (m.kept ++ [p]) := flatMap_put_perm _ p m.points
        simp only [append_assoc]
        refine List.Perm.append_left m.dropped ?_
        refine (hkept.append_right ps).trans ?_
        rw [append_assoc]
        rfl
      · rcases has.dropped q hq with hq | ⟨hq, hnone⟩
        · exact .inl hq
        · exact .inr ⟨mem_cons_of_mem p hq, hnone⟩
      · rcases has.placed e he q hq with ⟨e₀, he₀, hkey, hq⟩ | ⟨hq, hg⟩
        · rcases mem_mapPoint he₀ hq with ⟨e₁, he₁, hkey', hq⟩ | ⟨rfl, hid⟩
          · exact .inl ⟨e₁, he₁, hkey'.trans hkey, hq⟩
          · exact .inr ⟨mem_cons_self, g, hat, _, shardFor_mem g hne q, hid.symm.trans hkey⟩
        · exact .inr ⟨mem_cons_of_mem p hq, hg⟩

/-! ## Every point at its place -/

variable (database policy rpi) in
/-- **Each point goes to the group that owns its time**: every point of the batch is placed once, the points older than the
policy's duration are dropped, and every other point stands under a shard of the live group that `ShardGroupByTimestamp`
finds afterwards. -/
structure Right (now : Time) (points : List Point) (data' : Data) (m : ShardMapping) : Prop where
  once : (m.dropped ++ m.kept).Perm points
  dropped : ∀ p ∈ m.dropped, p.time < minTime rpi now
  placed : ∀ e ∈ m.points, ∀ p ∈ e.2, ¬p.time < minTime rpi now ∧
    ∃ rpi' g, data'.findPolicy database policy = .ok rpi' ∧ rpi'.shardGroupByTimestamp p.time = some g ∧
      ∃ s ∈ g.shards, s.id = e.1

/-- No group that owns a point of the batch contains a point that is too old or not its own. -/
def NoIntruder (database policy : String) (data : Data) (rpi : RetentionPolicyInfo) (now : Time) (points : List Point) :
    Prop :=
  ∀ p ∈ points, ¬p.time < minTime rpi now → ∀ g, groupFor database policy data p.time = some g →
    ∀ q ∈ points, g.contains q.time = true → ¬q.time < minTime rpi now ∧ g.owns q.time = true

/-- **A policy that points can be written to**: it is well kept, its shards are told apart and their counter has room, and
it is called by its name (`WritePoints` puts the name of the default policy in the place of an empty one). -/
structure Ready (database policy : String) (data : Data) (rpi : RetentionPolicyInfo) : Prop
    extends Well database policy data rpi where
  named : policy ≠ ""
  numbered : Numbered data.maxShardID rpi.shardGroups
  room : data.maxShardID + 1 < 2 ^ 64

/-- **Without an intruder** `MapShards` succeeds and is right. -/
theorem mapShards_right (h : Ready database policy data rpi) (now : Time) {points : List Point}
    (hrange : ∀ p ∈ points, InRange p.time) (hno : NoIntruder database policy data rpi now points) :
    ∃ data' m, mapShards database policy now data points = .ok (data', m) ∧
      Right database policy rpi now points data' m := by
  have hempty : Collected rpi (minTime rpi now) empty [] :=
    ⟨bounded_empty, forall_mem_nil _, forall_mem_nil _⟩
  obtain ⟨data', rpi', l, hcollect, hwell', hgrown, hcol⟩ := collect_spec h.toWell h.toWell (Grown.refl rpi) hempty hrange
  rw [nil_append] at hcol
  -- what the list finds for a point is its owner
  have hfound : ∀ q ∈ points, ∀ g, l.shardGroupAt q.time = some g →
      g ∈ rpi'.shardGroups ∧ ¬q.time < minTime rpi now ∧ g.owns q.time = true := by
    intro q hq g hg
    obtain ⟨hmem, hcon⟩ := (shardGroupAt_spec hcol.bounded q.time).1 g hg
    obtain ⟨hgrp, p, hp, hmin, hown⟩ := hcol.items g hmem
    obtain ⟨g₀, hg₀, hdel, hstart, hend, htr⟩ := hgrown.owner h.toWell hwell'.tiled (hrange p hp) hgrp hown
    have hcon₀ : g₀.contains q.time = g.contains q.time := by
      rw [ShardGroupInfo.contains, ShardGroupInfo.contains, hstart, hend]
    have hown₀ : g₀.owns q.time = g.owns q.time := by
      rw [ShardGroupInfo.owns, ShardGroupInfo.owns, hcon₀, hdel, ShardGroupInfo.truncated, ShardGroupInfo.truncated, htr]
    obtain ⟨hscope, hq'⟩ := hno p hp hmin g₀ hg₀ q hq (hcon₀.trans hcon)
    exact ⟨hgrp, hscope, hown₀.symm.trans hq'⟩
  obtain ⟨m, hm, has⟩ := @assign_spec l newShardMapping points fun p hp g hg => by
    obtain ⟨hgrp, -, hown⟩ := hfound p hp g hg
    exact (hwell'.tiled.sound g hgrp (ShardGroupInfo.owns_iff.mp hown).1).shards
  refine ⟨data', m, ?_, by simpa [newShardMapping, ShardMapping.kept] using has.once, fun p hp => ?_, fun e he p hp => ?_⟩
  · simp [mapShards, retentionPolicy_of_findPolicy h.find h.named, hcollect, hm]
  · rcases has.dropped p hp with hp | ⟨hp, hnone⟩
    · cases hp
    · by_contra hscope
      have hsome := (shardGroupAt_spec hcol.bounded p.time).2 (hcol.covered p hp hscope)
      rw [hnone] at hsome
      cases hsome
  · rcases has.placed e he p hp with ⟨e₀, he₀, -⟩ | ⟨hp, g, hg, s, hs, hid⟩
    · cases he₀
    · obtain ⟨hgrp, hscope, hown⟩ := hfound p hp g hg
      exact ⟨hscope, rpi', g, hwell'.find, hwell'.tiled.find_owner hgrp hown, s, hs, hid⟩

/-! ## A pair of points shows every intruder -/

theorem createShardGroup_of_groupFor (h : Ready database policy data rpi) (ht : InRange t)
    (hg : groupFor database policy data t = some g) :
    ∃ data' rpi', createShardGroup database policy data t = .ok (data', some g) ∧ Well database policy data' rpi' ∧
      Numbered data'.maxShardID rpi'.shardGroups ∧ g ∈ rpi'.shardGroups ∧ g.owns t = true := by
  have hwell := h.toWell
  cases hf : rpi.shardGroupByTimestamp t with
  | some a =>
    obtain rfl := Option.some.inj ((groupFor_found hwell hf).symm.trans hg)
    exact ⟨data, rpi, createShardGroup_found hwell hf, hwell, h.numbered, mem_of_find?_eq_some hf,
      find?_some (p := fun g : ShardGroupInfo => g.owns t) hf⟩
  | none =>
    have ho : Open rpi t := ⟨ht, hf⟩
    obtain rfl := Option.some.inj ((groupFor_made hwell ho).symm.trans hg)
    obtain ⟨data', rpi', hcreate, hwell', hmax, -, hperm⟩ := createShardGroup_made hwell ho
    refine ⟨data', rpi', hcreate, hwell', ?_, hperm.mem_iff.mpr (mem_append_right _ mem_cons_self),
      newShardGroup_owns hwell ho⟩
    rw [hmax]
    exact (h.numbered.create h.room rpi t).perm (hperm.trans (insertionSort_perm _).symm)

theorem collect_pair {data' : Data}
    (hcreate : createShardGroup database policy data p.time = .ok (data', some g)) (hg : g.Sound)
    (hmin : ¬p.time < min) (hq : g.contains q.time = true) :
    ∃ l, collect database policy min data empty [p, q] = .ok (data', l) ∧ l.Bounded ∧ ∀ a, a ∈ l.items ↔ a = g := by
  have hb : (empty.sort.add g).Bounded :=
    bounded_empty.sort.add hg.set (hg.start_le.trans hg.le_end)
  have hitems : ∀ a, a ∈ (empty.sort.add g).items ↔ a = g := fun a => mem_singleton
  have hcov : (empty.sort.add g).covers q.time = true :=
    (covers_iff hb).mpr ⟨g, (hitems g).mpr rfl, hq⟩
  have hfirst : collect database policy min data empty [p, q] =
      collect database policy min data' (empty.sort.add g) [q] := by
    have hnot : empty.covers p.time = false := rfl
    rw [collect, if_neg hmin, hnot, if_neg Bool.false_ne_true, hcreate]
  rw [hfirst, collect]
  by_cases hqmin : q.time < min
  · rw [if_pos hqmin]
    exact ⟨_, rfl, hb, hitems⟩
  · rw [if_neg hqmin, if_pos hcov]
    exact ⟨_, rfl, hb.sort, fun a => mem_sort.trans (hitems a)⟩

theorem numbered_unique {max : ℕ} {gs : List ShardGroupInfo} (h : Numbered max gs) {a b : ShardGroupInfo} (ha : a ∈ gs)
    (hb : b ∈ gs) {s s' : ShardInfo} (hs : s ∈ a.shards) (hs' : s' ∈ b.shards) (hid : s.id = s'.id) : a = b := by
  by_contra hne
  have hsymm : Std.Symm fun a b : ShardGroupInfo => ∀ s ∈ a.shards, ∀ s' ∈ b.shards, s.id ≠ s'.id :=
    ⟨fun a b hab s hs s' hs' heq => hab s' hs' s hs heq.symm⟩
  exact h.distinct.forall ha hb hne s hs s' hs' hid

/-- **An intruder** spoils the batch of the two points. -/
theorem noIntruder_pair (h : Ready database policy data rpi) {now : Time}
    (hp : InRange p.time) (hmin : ¬p.time < minTime rpi now) (hg : groupFor database policy data p.time = some g)
    (hq : g.contains q.time = true) {data' : Data} (hmap : mapShards database policy now data [p, q] = .ok (data', m))
    (hright : Right database policy rpi now [p, q] data' m) : ¬q.time < minTime rpi now ∧ g.owns q.time = true := by
  obtain ⟨data₁, rpi₁, hcreate, hwell₁, hnum₁, hgrp, hown⟩ := createShardGroup_of_groupFor h hp hg
  have hsound := hwell₁.tiled.sound g hgrp (ShardGroupInfo.owns_iff.mp hown).1
  obtain ⟨l, hcollect, hb, hitems⟩ := collect_pair hcreate hsound hmin hq
  -- the list holds `g` alone
  have honly : ∀ t a, l.shardGroupAt t = some a → a = g := fun t a ha =>
    (hitems a).mp ((shardGroupAt_spec hb t).1 a ha).1
  have hsome := (shardGroupAt_spec hb q.time).2 ⟨g, (hitems g).mpr rfl, hq⟩
  obtain ⟨m', hm', has⟩ := @assign_spec l newShardMapping [p, q] fun r _ a ha => by
    rw [honly _ a ha]
    exact hsound.shards
  have hmap' : mapShards database policy now data [p, q] = .ok (data₁, m') := by
    simp [mapShards, retentionPolicy_of_findPolicy h.find h.named, hcollect, hm']
  obtain ⟨rfl, rfl⟩ := Prod.mk.inj (Except.ok.inj (hmap.symm.trans hmap'))
  have hqmem : q ∈ m.dropped ++ m.kept := hright.once.mem_iff.mpr (mem_cons_of_mem p mem_cons_self)
  rcases mem_append.mp hqmem with hdrop | hkept
  · rcases has.dropped q hdrop with hold | ⟨-, hnone⟩
    · cases hold
    · rw [hnone] at hsome
      cases hsome
  · obtain ⟨e, he, hqe⟩ := mem_flatMap.mp hkept
    obtain ⟨hscope, rpi', g', hfind', hg', s, hs, hid⟩ := hright.placed e he q hqe
    refine ⟨hscope, ?_⟩
    obtain rfl := Except.ok.inj (hwell₁.find.symm.trans hfind')
    rcases has.placed e he q hqe with ⟨e₀, he₀, -⟩ | ⟨-, a, ha, s', hs', hid'⟩
    · cases he₀
    · obtain rfl := honly _ a ha
      have heq := numbered_unique hnum₁ (mem_of_find?_eq_some hg') hgrp hs hs' (hid.trans hid'.symm)
      rw [← heq]
      exact find?_some (p := fun g : ShardGroupInfo => g.owns q.time) hg'

/-- **When every point goes to the group that owns its time.**  In a policy that points can be written to, every batch
drawn from a list of points is mapped rightly if and only if no group that owns one of them contains another one that is
too old or not its own. -/
theorem batches_right_iff (h : Ready database policy data rpi) (now : Time) (points : List Point)
    (hrange : ∀ p ∈ points, InRange p.time) : (∀ batch, (∀ p ∈ batch, p ∈ points) →
      ∃ data' m, mapShards database policy now data batch = .ok (data', m) ∧
        Right database policy rpi now batch data' m) ↔ NoIntruder database policy data rpi now points := by
  constructor
  · intro hall p hp hmin g hg q hq hcon
    have hpair : ∀ r ∈ [p, q], r ∈ points := forall_mem_cons.mpr ⟨hp, forall_mem_singleton.mpr hq⟩
    obtain ⟨data', m, hmap, hright⟩ := hall [p, q] hpair
    exact noIntruder_pair h (hrange p hp) hmin hg hcon hmap hright
  · intro hno batch hbatch
    refine mapShards_right h now (fun p hp => hrange p (hbatch p hp)) ?_
    exact fun p hp hmin g hg q hq => hno p (hbatch p hp) hmin g hg q (hbatch q hq)

end Right

/-! ## Batches with and without an intruder -/

/-- A point of the measurement `m` at a minute after the epoch. -/
def pointAt (minute : Int) : Point := ⟨[109], [118, 61, 49], Time.ofUnixNano (minute * 60 * 1000000000)⟩

/-- The first hour has a group that is truncated at its thirtieth minute. -/
def truncatedHour : Data :=
  runGroupOps "db" "rp" hourly
    [.createShardGroup ⟨(pointAt 10).time, by decide⟩, .truncateShardGroups (pointAt 30).time]

/-- A policy that keeps one hour, in groups of a day. -/
def keepsAnHour : Data :=
  ⟨1, 1, 1, [⟨"db", "rp", [⟨"rp", 1, 3600 * 1000000000, 24 * 3600 * 1000000000, [], []⟩], []⟩], [], false, 0, 0⟩

/-- A point behind the truncation follows its neighbour into the truncated group, although no group owns its time; and a
point that is too old is kept with its neighbour. -/
theorem intruders_are_kept :
    (∃ data' m rpi', mapShards "db" "rp" (pointAt 60).time truncatedHour [pointAt 10, pointAt 40] = .ok (data', m) ∧
      m.points = [(1, [pointAt 10, pointAt 40])] ∧ data'.findPolicy "db" "rp" = .ok rpi' ∧
      rpi'.shardGroupByTimestamp (pointAt 40).time = none) ∧
    ∃ data' m rpi, mapShards "db" "rp" (pointAt 720).time keepsAnHour [pointAt 700, pointAt 300] = .ok (data', m) ∧
      m.points = [(1, [pointAt 700, pointAt 300])] ∧ keepsAnHour.findPolicy "db" "rp" = .ok rpi ∧
      (pointAt 300).time < minTime rpi (pointAt 720).time :=
  ⟨⟨_, _, _, rfl, by decide +kernel, rfl, by decide +kernel⟩, _, _, _, rfl, by decide +kernel, rfl, by decide +kernel⟩

theorem ready_truncatedHour : ∃ rpi, Ready "db" "rp" truncatedHour rpi := by
  have hwell : Well "db" "rp" hourly ⟨"rp", 1, 0, 3600 * 1000000000, [], []⟩ := ⟨rfl, tiled_nil, by decide⟩
  obtain ⟨rpi, hrun⟩ := hwell.run
    [.createShardGroup ⟨(pointAt 10).time, by decide⟩, .truncateShardGroups (pointAt 30).time]
  obtain ⟨rpi', hfind, hnum⟩ := Numbered.run hwell.find (numbered_nil _)
    [.createShardGroup ⟨(pointAt 10).time, by decide⟩, .truncateShardGroups (pointAt 30).time] (by decide +kernel)
  obtain rfl := Except.ok.inj (hrun.find.symm.trans hfind)
  exact ⟨rpi, hrun, by decide, hnum, by decide +kernel⟩

/-- Two points before the truncation and one of the next hour: no group that owns one of them reaches another. -/
theorem neighbours_right : ∃ rpi data' m,
    mapShards "db" "rp" (pointAt 60).time truncatedHour [pointAt 10, pointAt 100, pointAt 20] = .ok (data', m) ∧
      m.points = [(1, [pointAt 10, pointAt 20]), (2, [pointAt 100])] ∧
      Right "db" "rp" rpi (pointAt 60).time [pointAt 10, pointAt 100, pointAt 20] data' m := by
  obtain ⟨rpi, hready⟩ := ready_truncatedHour
  have hrange : ∀ p ∈ [pointAt 10, pointAt 100, pointAt 20], InRange p.time := by decide
  have hgroups : ∀ p ∈ [pointAt 10, pointAt 100, pointAt 20], ∀ q ∈ [pointAt 10, pointAt 100, pointAt 20],
      ∀ g ∈ groupFor "db" "rp" truncatedHour p.time, g.contains q.time = true →
        ¬q.time < Time.ofUnixNano Models.minNanoTime ∧ g.owns q.time = true := by
    decide +kernel
  have hmin : minTime rpi (pointAt 60).time = Time.ofUnixNano Models.minNanoTime := by
    cases hready.find
    rfl
  obtain ⟨data', m, hmap, hright⟩ := (batches_right_iff hready (pointAt 60).time _ hrange).mpr
    (fun p hp _ g hg q hq => hmin ▸ hgroups p hp q hq g hg) _ fun _ hp => hp
  have hpoints : (mapShards "db" "rp" (pointAt 60).time truncatedHour
      [pointAt 10, pointAt 100, pointAt 20]).toOption.map (·.2.points) =
        some [(1, [pointAt 10, pointAt 20]), (2, [pointAt 100])] := by decide +kernel
  rw [hmap] at hpoints
  exact ⟨rpi, data', m, hmap, Option.some.inj hpoints, hright⟩

end Influxdb.Coordinator
