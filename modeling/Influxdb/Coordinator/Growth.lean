import Influxdb.Coordinator.MapShards

/-!
# Growth — shard groups that are made one after the other

While `MapShards` walks over a batch, the policy only grows by new groups.  The windows of one duration are aligned, so the
largest free part around a time does not depend on which other groups have been made in between
(`Grown.newRange_eq`); every group made on the way has the instants of the group that the policy would have made for that
time at the start (`Grown.owner`).
-/

namespace Influxdb.Coordinator

open List

open Models (Time Point)
open Meta

/-! ## Aligned windows -/

theorem window_lo (t : Time) (d : Int) : (Data.window t d).lo.nanos = d * (t.nanos / d) := by
  show t.nanos - t.nanos % d = _
  have := Int.mul_ediv_add_emod t.nanos d
  omega

theorem window_hi_le (t : Time) (d : Int) : (Data.window t d).hi.nanos ≤ (Data.window t d).lo.nanos + d := by
  show (if Time.ofUnixNano Models.maxNanoTime < Meta.add (t.truncate d) d then Time.ofUnixNano (Models.maxNanoTime + 1)
    else Meta.add (t.truncate d) d).nanos ≤ (t.truncate d).nanos + d
  split_ifs with h
  · have hlt : Models.maxNanoTime + Models.unixEpoch < (t.truncate d).nanos + d := h
    show Models.maxNanoTime + 1 + Models.unixEpoch ≤ _
    omega
  · exact le_rfl

/-- **Windows of one duration** are the same or do not overlap. -/
theorem window_eq_of_overlaps {t t' : Time} {d : Int} (hd : 0 < d)
    (h : (Data.window t d).Overlaps (Data.window t' d)) : Data.window t d = Data.window t' d := by
  have hle : ∀ {a b}, (Data.window a d).lo.nanos < (Data.window b d).hi.nanos →
      (Data.window a d).lo ≤ (Data.window b d).lo := by
    intro a b hab
    have hhi := window_hi_le b d
    rw [window_lo] at hab hhi
    rw [time_le_iff, window_lo, window_lo]
    have hlt : a.nanos / d < b.nanos / d + 1 := by
      refine lt_of_mul_lt_mul_left (a := d) ?_ hd.le
      rw [mul_add, mul_one]
      omega
    exact Int.mul_le_mul_of_nonneg_left (by omega) hd.le
  have htr : t.truncate d = t'.truncate d := le_antisymm (hle h.1) (hle h.2)
  rw [Data.window, Data.window, htr]

/-! ## The free part around a time -/

section Free

variable {rpi : RetentionPolicyInfo} {t t' : Time}

/-- The range that a new group around `t` would take. -/
def newRange (rpi : RetentionPolicyInfo) (t : Time) : Range Time :=
  Range.narrowAll t (Data.window t rpi.shardGroupDuration) (liveRanges rpi.shardGroups)

/-- The policy can make a group around `t`. -/
structure Open (rpi : RetentionPolicyInfo) (t : Time) : Prop where
  inRange : InRange t
  none_owns : rpi.shardGroupByTimestamp t = none

variable (htiled : Tiled rpi.shardGroups) (hd : 0 < rpi.shardGroupDuration) (h : Open rpi t)

include htiled hd h

theorem newRange_spec : FreePart rpi.shardGroups t rpi.shardGroupDuration (newRange rpi t) ∧
      ∀ v, FreePart rpi.shardGroups t rpi.shardGroupDuration v → v.Within (newRange rpi t) := by
  -- the data only supply the ids of the new group
  have hspec := newShardGroup_spec htiled h.inRange h.none_owns ⟨0, 0, 0, [], [], false, 0, 0⟩ [] hd
  rw [range_newShardGroup] at hspec
  exact hspec

theorem within_newRange_of_overlaps {v : Range Time} (hv : FreePart rpi.shardGroups t' rpi.shardGroupDuration v)
    (hov : v.Overlaps (newRange rpi t)) : v.Within (newRange rpi t) := by
  obtain ⟨hpart, hlargest⟩ := newRange_spec htiled hd h
  have hwin : Data.window t' rpi.shardGroupDuration = Data.window t rpi.shardGroupDuration :=
    window_eq_of_overlaps hd (hov.mono hv.within hpart.within)
  have hw := hv.within
  rw [hwin] at hw
  refine (Range.within_hull_left v (newRange rpi t)).trans (hlargest _ ⟨?_, Range.hull_within hw hpart.within, ?_⟩)
  · exact (Range.within_hull_right v _).contains hpart.contains
  · intro g hg hlive
    exact Range.not_overlaps_hull hov (htiled.sound g hg hlive).start_le (hv.free g hg hlive) (hpart.free g hg hlive)

/-- **A free part is the same** around all of its times. -/
theorem newRange_eq_of_contains (h' : Open rpi t') (hcon : (newRange rpi t).Contains t') :
    newRange rpi t' = newRange rpi t := by
  obtain ⟨hpart, -⟩ := newRange_spec htiled hd h
  obtain ⟨hpart', -⟩ := newRange_spec htiled hd h'
  have hov := Range.overlaps_of_contains hcon hpart'.contains
  exact (within_newRange_of_overlaps htiled hd h hpart' hov.symm).antisymm
    (within_newRange_of_overlaps htiled hd h' hpart hov)

end Free

/-! ## Growth -/

/-- A group that has been made on the way. -/
structure IsNew (rpi : RetentionPolicyInfo) (n : ShardGroupInfo) : Prop where
  live : n.deleted = false
  truncatedAt : n.truncatedAt = zeroTime
  made : ∃ t, Open rpi t ∧ n.range = newRange rpi t

/-- `rpi'` is `rpi` with groups made in between. -/
structure Grown (rpi rpi' : RetentionPolicyInfo) : Prop where
  duration : rpi'.shardGroupDuration = rpi.shardGroupDuration
  groups : ∃ news, rpi'.shardGroups.Perm (rpi.shardGroups ++ news) ∧ ∀ n ∈ news, IsNew rpi n

theorem Grown.refl (rpi : RetentionPolicyInfo) : Grown rpi rpi :=
  ⟨rfl, [], by simp, forall_mem_nil _⟩

section Grown

variable {rpi rpi' : RetentionPolicyInfo} {t : Time} {g : ShardGroupInfo}

theorem Grown.mem (h : Grown rpi rpi') (hg : g ∈ rpi.shardGroups) : g ∈ rpi'.shardGroups := by
  obtain ⟨news, hperm, -⟩ := h.groups
  exact hperm.mem_iff.mpr (mem_append_left news hg)

theorem Grown.mem_or_new (h : Grown rpi rpi') (hg : g ∈ rpi'.shardGroups) : g ∈ rpi.shardGroups ∨ IsNew rpi g := by
  obtain ⟨news, hperm, hnew⟩ := h.groups
  exact (mem_append.mp (hperm.mem_iff.mp hg)).imp_right (hnew g)

theorem Grown.open (h : Grown rpi rpi') (ho : Open rpi' t) : Open rpi t := by
  refine ⟨ho.inRange, find?_eq_none.mpr fun g hg => ?_⟩
  exact find?_eq_none.mp ho.none_owns g (h.mem hg)

/-- **The free part around a time** does not depend on the groups made in between. -/
theorem Grown.newRange_eq (h : Grown rpi rpi') (htiled : Tiled rpi.shardGroups) (htiled' : Tiled rpi'.shardGroups)
    (hd : 0 < rpi.shardGroupDuration) (ho : Open rpi' t) : newRange rpi' t = newRange rpi t := by
  have hd' : 0 < rpi'.shardGroupDuration := h.duration ▸ hd
  obtain ⟨hpart, hlargest⟩ := newRange_spec htiled hd (h.open ho)
  obtain ⟨hpart', hlargest'⟩ := newRange_spec htiled' hd' ho
  refine Range.Within.antisymm (hlargest _ ⟨hpart'.contains, h.duration ▸ hpart'.within, ?_⟩)
    (hlargest' _ ⟨hpart.contains, h.duration.symm ▸ hpart.within, ?_⟩)
  · exact fun g hg hlive => hpart'.free g (h.mem hg) hlive
  · intro g hg hlive hov
    rcases h.mem_or_new hg with hold | hnew
    · exact hpart.free g hold hlive hov
    · -- the part would lie inside the new group, which then owns `t`
      obtain ⟨u, hu, hrange⟩ := hnew.made
      rw [hrange] at hov
      have hwithin := within_newRange_of_overlaps htiled hd hu hpart hov
      rw [← hrange] at hwithin
      refine find?_eq_none.mp ho.none_owns g hg ?_
      exact (htiled'.sound g hg hlive).owns_iff_contains.mpr ⟨hlive, hwithin.contains hpart.contains⟩

end Grown

/-! ## Creating through the client -/

section Client

variable {database policy : String} {data : Data} {rpi rpi' : RetentionPolicyInfo} {t : Time} {g : ShardGroupInfo}

section

variable (h : Well database policy data rpi)
include h

theorem createShardGroup_found (hg : rpi.shardGroupByTimestamp t = some g) :
    createShardGroup database policy data t = .ok (data, some g) := by
  simp [createShardGroup, h.find, hg, Except.map]

theorem newShardGroup_owns (ho : Open rpi t) : (data.newShardGroup rpi t []).owns t = true := by
  have hsound := newShardGroup_sound h.tiled ho.inRange ho.none_owns data [] h.duration
  obtain ⟨hpart, -⟩ := newShardGroup_spec h.tiled ho.inRange ho.none_owns data [] h.duration.1
  exact hsound.owns_iff_contains.mpr ⟨rfl, hpart.contains⟩

/-- **A group that is missing** is made, found again and returned. -/
theorem createShardGroup_made (ho : Open rpi t) :
    ∃ data' rpi', createShardGroup database policy data t = .ok (data', some (data.newShardGroup rpi t [])) ∧
      Well database policy data' rpi' ∧ data'.maxShardID = Data.inc data.maxShardID ∧
      rpi'.shardGroupDuration = rpi.shardGroupDuration ∧
      rpi'.shardGroups.Perm (rpi.shardGroups ++ [data.newShardGroup rpi t []]) := by
  obtain ⟨data', rpi', hdata, hfind, hmakes⟩ := dataCreateShardGroup_makes h.find ho.inRange ho.none_owns
  have hwell : Well database policy data' rpi' := h.makes hfind hmakes
  obtain rfl := hmakes.policy
  have hmem : data.newShardGroup rpi t [] ∈
      insertionSort ShardGroupInfo.less (rpi.shardGroups ++ [data.newShardGroup rpi t []]) :=
    mem_insertionSort.mpr (mem_append_right _ mem_cons_self)
  have hfound := hwell.tiled.find_owner hmem (newShardGroup_owns h ho)
  refine ⟨{ data' with index := Data.inc data'.index }, _, ?_, ⟨hfind, hwell.tiled, hwell.duration⟩,
    hmakes.shardID, rfl, insertionSort_perm _⟩
  simp [createShardGroup, h.find, ho.none_owns, hdata, hfind, hfound, Except.map]

/-- The group that the client answers for a timestamp. -/
def groupFor (database policy : String) (data : Data) (t : Time) : Option ShardGroupInfo :=
  match createShardGroup database policy data t with
  | .ok (_, sg) => sg
  | .error _ => none

theorem groupFor_found (hg : rpi.shardGroupByTimestamp t = some g) : groupFor database policy data t = some g := by
  rw [groupFor, createShardGroup_found h hg]

theorem groupFor_made (ho : Open rpi t) : groupFor database policy data t = some (data.newShardGroup rpi t []) := by
  obtain ⟨data', rpi', hcreate, -⟩ := createShardGroup_made h ho
  rw [groupFor, hcreate]

end

theorem Grown.made {rpi₀ : RetentionPolicyInfo} (hgrown : Grown rpi₀ rpi) (htiled : Tiled rpi₀.shardGroups)
    (h : Well database policy data rpi) (ho : Open rpi t) (hdur : rpi'.shardGroupDuration = rpi.shardGroupDuration)
    (hperm : rpi'.shardGroups.Perm (rpi.shardGroups ++ [data.newShardGroup rpi t []])) : Grown rpi₀ rpi' := by
  have hd : 0 < rpi₀.shardGroupDuration := hgrown.duration ▸ h.duration.1
  have hnew : IsNew rpi₀ (data.newShardGroup rpi t []) := by
    refine ⟨rfl, rfl, t, hgrown.open ho, ?_⟩
    rw [range_newShardGroup]
    exact hgrown.newRange_eq htiled h.tiled hd ho
  obtain ⟨news, hnews, hall⟩ := hgrown.groups
  refine ⟨hdur.trans hgrown.duration, news ++ [data.newShardGroup rpi t []], ?_, ?_⟩
  · rw [← append_assoc]
    exact hperm.trans (hnews.append_right _)
  · exact forall_mem_append.mpr ⟨hall, forall_mem_singleton.mpr hnew⟩

/-- **The owner of a time** in a policy that has grown has the instants of the group that the client would have answered
at the start. -/
theorem Grown.owner (h : Well database policy data rpi) (hgrown : Grown rpi rpi') (htiled' : Tiled rpi'.shardGroups)
    (ht : InRange t) (hg : g ∈ rpi'.shardGroups) (hown : g.owns t = true) :
    ∃ g₀, groupFor database policy data t = some g₀ ∧ g₀.deleted = g.deleted ∧ g₀.startTime = g.startTime ∧
      g₀.endTime = g.endTime ∧ g₀.truncatedAt = g.truncatedAt := by
  cases hf : rpi.shardGroupByTimestamp t with
  | some a =>
    have hat := find?_some (p := fun g : ShardGroupInfo => g.owns t) hf
    obtain rfl := htiled'.owner_unique (hgrown.mem (mem_of_find?_eq_some hf)) hg hat hown
    exact ⟨a, groupFor_found h hf, rfl, rfl, rfl, rfl⟩
  | none =>
    have hnew : IsNew rpi g := by
      rcases hgrown.mem_or_new hg with hold | hnew
      · exact absurd hown (find?_eq_none.mp hf g hold)
      · exact hnew
    have ho : Open rpi t := ⟨ht, hf⟩
    obtain ⟨u, hu, hrange⟩ := hnew.made
    have hcon := ((htiled'.sound g hg hnew.live).owns_iff_contains.mp hown).2
    have heq : newRange rpi t = newRange rpi u :=
      newRange_eq_of_contains h.tiled h.duration.1 hu ho (hrange ▸ hcon)
    have hr : (data.newShardGroup rpi t []).range = g.range := by
      rw [range_newShardGroup, hrange]
      exact heq
    have htr : g.truncated = false := by
      rw [ShardGroupInfo.truncated, hnew.truncatedAt]
      rfl
    refine ⟨_, groupFor_made h ho, hnew.live.symm, congrArg Range.lo hr, ?_, hnew.truncatedAt.symm⟩
    have hhi : (data.newShardGroup rpi t []).effectiveEnd = g.effectiveEnd := congrArg Range.hi hr
    rw [ShardGroupInfo.effectiveEnd_of_not_truncated htr] at hhi
    exact hhi

end Client

end Influxdb.Coordinator
