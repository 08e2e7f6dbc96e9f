import Influxdb.Meta.Tiling

/-!
# ShardGroupRun — runs of the shard group operations

A run starts at a policy without shard groups and applies the operations of `services/meta/data.go` on shard groups in any
order.  One lemma says what an operation can do to the policy (`apply_cases`); the tiling, the shard group duration and the
id counters are then followed through the run.
-/

namespace Influxdb.Meta

open List Data Models Option
open ShardGroupInfo (less dropShard)

open Models (Time)

variable {gs gs' : List ShardGroupInfo} {g : ShardGroupInfo} {t : Time} {rpi' : RetentionPolicyInfo}

def InRange (t : Time) : Prop := Time.ofUnixNano Models.minNanoTime ≤ t ∧ t ≤ Time.ofUnixNano Models.maxNanoTime

instance (t : Time) : Decidable (InRange t) := inferInstanceAs (Decidable (_ ∧ _))

/-- A positive `time.Duration`. -/
def IsDuration (d : Int) : Prop := 0 < d ∧ d < 2 ^ 63

instance (d : Int) : Decidable (IsDuration d) := inferInstanceAs (Decidable (_ ∧ _))

/-! ## A new group -/

section New

variable {rpi : RetentionPolicyInfo} {t : Time} {d : Int}

theorem contains_window (ht : InRange t) (hd : 0 < d) : (window t d).Contains t := by
  have hmod := Int.emod_nonneg t.nanos hd.ne'
  have hlt := Int.emod_lt_of_pos t.nanos hd
  refine ⟨?_, ?_⟩
  · show t.nanos - t.nanos % d ≤ t.nanos
    omega
  · show t < if Time.ofUnixNano maxNanoTime < add (t.truncate d) d then _ else _
    split_ifs with hmax
    · have hle : t.nanos ≤ maxNanoTime + unixEpoch := ht.2
      show t.nanos < maxNanoTime + 1 + unixEpoch
      omega
    · show t.nanos < t.nanos - t.nanos % d + d
      omega

theorem window_lo_pos (ht : InRange t) (hd : IsDuration d) : 0 < (window t d).lo.nanos := by
  have hlt := Int.emod_lt_of_pos t.nanos hd.1
  have hlo : minNanoTime + unixEpoch ≤ t.nanos := ht.1
  have hd2 := hd.2
  show 0 < t.nanos - t.nanos % d
  rw [minNanoTime, unixEpoch] at hlo
  omega

def liveRanges (gs : List ShardGroupInfo) : List (Range Time) := (gs.filter (!·.deleted)).map ShardGroupInfo.range

theorem mem_liveRanges {r : Range Time} : r ∈ liveRanges gs ↔ ∃ g ∈ gs, g.deleted = false ∧ g.range = r := by
  simp [liveRanges, and_assoc]

theorem foldl_narrow (t : Time) (w : Range Time) (gs : List ShardGroupInfo) :
    gs.foldl (narrow t) w = Range.narrowAll t w (liveRanges gs) := by
  induction gs generalizing w with
  | nil => rfl
  | cons g gs ih =>
    rw [foldl_cons, ih]
    cases hdel : g.deleted with
    | true => simp [narrow, liveRanges, hdel]
    | false =>
      simp [narrow, liveRanges, hdel, Range.narrowAll, Range.narrow, ShardGroupInfo.range]

/-- A part of the window around `t` that overlaps no live group. -/
structure FreePart (gs : List ShardGroupInfo) (t : Time) (d : Int) (v : Range Time) : Prop where
  contains : v.Contains t
  within : v.Within (Data.window t d)
  free : ∀ g ∈ gs, g.deleted = false → ¬v.Overlaps g.range

variable (htiled : Tiled rpi.shardGroups) (ht : InRange t) (hnone : rpi.shardGroupByTimestamp t = none)
  (data : Data) (shards : List ShardInfo)

theorem range_newShardGroup : (data.newShardGroup rpi t shards).range =
      Range.narrowAll t (window t rpi.shardGroupDuration) (liveRanges rpi.shardGroups) :=
  foldl_narrow t _ _

theorem newShards_ne_nil : data.newShards shards ≠ [] := by
  rw [newShards]
  split_ifs with h
  · exact ne_nil_of_length_pos h
  · exact cons_ne_nil _ _

include htiled ht hnone

/-- **The range of a new group** is the largest free part of the window. -/
theorem newShardGroup_spec (hd : 0 < rpi.shardGroupDuration) :
    FreePart rpi.shardGroups t rpi.shardGroupDuration (data.newShardGroup rpi t shards).range ∧
      ∀ v, FreePart rpi.shardGroups t rpi.shardGroupDuration v → v.Within (data.newShardGroup rpi t shards).range := by
  have hranges : ∀ r ∈ liveRanges rpi.shardGroups, r.lo ≤ r.hi ∧ ¬r.Contains t := by
    intro r hr
    obtain ⟨g, hg, hlive, rfl⟩ := mem_liveRanges.mp hr
    have hsound := htiled.sound g hg hlive
    refine ⟨hsound.start_le, fun hcon => ?_⟩
    have hno := find?_eq_none.mp hnone g hg
    exact hno (hsound.owns_iff_contains.mpr ⟨hlive, hcon⟩)
  obtain ⟨hcon, hwithin, hfree, hlargest⟩ := Range.narrowAll_spec (contains_window ht hd) hranges
  rw [range_newShardGroup]
  refine ⟨⟨hcon, hwithin, fun g hg hlive => hfree _ (mem_liveRanges.mpr ⟨g, hg, hlive, rfl⟩)⟩, ?_⟩
  intro v hv
  refine hlargest v hv.contains hv.within fun r hr => ?_
  obtain ⟨g, hg, hlive, rfl⟩ := mem_liveRanges.mp hr
  exact hv.free g hg hlive

theorem newShardGroup_sound (hd : IsDuration rpi.shardGroupDuration) : (data.newShardGroup rpi t shards).Sound := by
  obtain ⟨hpart, -⟩ := newShardGroup_spec htiled ht hnone data shards hd.1
  refine ⟨?_, ?_, le_rfl, newShards_ne_nil data shards⟩
  · exact (window_lo_pos ht hd).trans_le (time_le_iff.mp hpart.within.1)
  · exact hpart.contains.1.trans hpart.contains.2.le

/-- **Creating a group** keeps the tiling. -/
theorem Tiled.create (hd : IsDuration rpi.shardGroupDuration) :
    Tiled (insertionSort less (rpi.shardGroups ++ [data.newShardGroup rpi t shards])) := by
  obtain ⟨hpart, -⟩ := newShardGroup_spec htiled ht hnone data shards hd.1
  refine Apart.tiled_sorted ⟨?_, pairwise_append.mpr ⟨htiled.apart, pairwise_singleton _ _, ?_⟩⟩
  · refine forall_mem_append.mpr ⟨htiled.sound, forall_mem_singleton.mpr fun _ => ?_⟩
    exact newShardGroup_sound htiled ht hnone data shards hd
  · intro a ha b hb hla _ hov
    rw [mem_singleton.mp hb] at hov
    exact hpart.free a ha hla hov.symm

end New

/-- **At most one group owns a timestamp.** -/
theorem Tiled.filter_owns_length_le (h : Tiled gs) (t : Time) : (gs.filter (·.owns t)).length ≤ 1 := by
  have hnone : (gs.filter (·.owns t)).Pairwise fun _ _ => False := by
    refine (h.apart.filter _).imp_of_mem fun {a b} ha hb hno => ?_
    have hcon : ∀ {g}, g ∈ gs.filter (·.owns t) → g.deleted = false ∧ g.range.Contains t := fun hg => by
      obtain ⟨hmem, howns⟩ := mem_filter.mp hg
      exact (h.sound _ hmem (ShardGroupInfo.owns_iff.mp howns).1).owns_iff_contains.mp howns
    exact hno (hcon ha).1 (hcon hb).1 (Range.overlaps_of_contains (hcon ha).2 (hcon hb).2)
  generalize gs.filter (·.owns t) = l at hnone ⊢
  match l, hnone with
  | [], _ => exact Nat.zero_le 1
  | [_], _ => exact le_rfl
  | _ :: b :: _, hnone => exact ((pairwise_cons.mp hnone).1 b mem_cons_self).elim

theorem Tiled.owner_unique (h : Tiled gs) {a b : ShardGroupInfo} (ha : a ∈ gs)
    (hb : b ∈ gs) (hat : a.owns t = true) (hbt : b.owns t = true) : a = b := by
  have hle := h.filter_owns_length_le t
  have hma : a ∈ gs.filter (·.owns t) := mem_filter.mpr ⟨ha, hat⟩
  have hmb : b ∈ gs.filter (·.owns t) := mem_filter.mpr ⟨hb, hbt⟩
  generalize gs.filter (·.owns t) = l at hle hma hmb
  match l, hle with
  | [c], _ => rw [mem_singleton.mp hma, mem_singleton.mp hmb]

theorem Tiled.find_owner {rpi : RetentionPolicyInfo} (h : Tiled rpi.shardGroups)
    (hg : g ∈ rpi.shardGroups) (ht : g.owns t = true) : rpi.shardGroupByTimestamp t = some g := by
  cases hf : rpi.shardGroupByTimestamp t with
  | none => exact absurd ht (find?_eq_none.mp hf g hg)
  | some a =>
    have hat := find?_some (p := fun g : ShardGroupInfo => g.owns t) hf
    rw [h.owner_unique (mem_of_find?_eq_some hf) hg hat ht]

/-! ## The policy after an operation -/

section Policy

variable {data : Data} {database policy : String} {rpi : RetentionPolicyInfo}

theorem find?_map_of_eq {α : Type} {p : α → Bool} {f : α → α} (hf : ∀ a, p (f a) = p a) (l : List α) :
    (l.map f).find? p = (l.find? p).map f := by
  rw [find?_map, show p ∘ f = p from funext hf]

variable (h : data.findPolicy database policy = .ok rpi)
include h

theorem name_of_findPolicy : rpi.name = policy := by
  obtain ⟨di, -, hrp⟩ := findPolicy_eq_ok.mp h
  have hfound := find?_some (p := fun rp : RetentionPolicyInfo => rp.name = policy) hrp
  exact of_decide_eq_true hfound

theorem findPolicy_setPolicy
    (hname : rpi'.name = policy) : (data.setPolicy database policy rpi').findPolicy database policy = .ok rpi' := by
  obtain ⟨di, hdb, hrp⟩ := findPolicy_eq_ok.mp h
  have hdn := find?_some (p := fun di : DatabaseInfo => di.name = database) hdb
  refine findPolicy_eq_ok.mpr ⟨{ di with
    retentionPolicies := replaceFirst (fun rp => rp.name = policy) rpi' di.retentionPolicies }, ?_, ?_⟩
  · rw [setPolicy, hdb]
    exact find?_replaceFirst hdn hdb
  · exact find?_replaceFirst (decide_eq_true hname) hrp

theorem findPolicy_mapGroups (f : List ShardGroupInfo → List ShardGroupInfo) :
    (data.mapGroups f).findPolicy database policy = .ok { rpi with shardGroups := f rpi.shardGroups } := by
  obtain ⟨di, hdb, hrp⟩ := findPolicy_eq_ok.mp h
  rw [Data.database] at hdb
  rw [DatabaseInfo.policyNamed] at hrp
  refine findPolicy_eq_ok.mpr ⟨{ di with
    retentionPolicies := di.retentionPolicies.map fun rp => { rp with shardGroups := f rp.shardGroups } }, ?_, ?_⟩
  · rw [Data.database, Data.mapGroups, find?_map_of_eq (by exact fun _ => rfl), hdb]
    rfl
  · rw [DatabaseInfo.policyNamed, find?_map_of_eq (by exact fun _ => rfl), hrp]
    rfl

theorem findPolicy_dropShard (id : ℕ) (clock : Clock) :
    ∃ gs, (data.dropShard id clock).findPolicy database policy = .ok { rpi with shardGroups := gs } ∧
      (gs = rpi.shardGroups ∨ updateFirst (dropShard id clock) rpi.shardGroups = some gs) := by
  obtain ⟨di, hdb, hrp⟩ := findPolicy_eq_ok.mp h
  rw [Data.dropShard]
  cases hup : updateFirst (fun di : DatabaseInfo =>
      (updateFirst (fun rp : RetentionPolicyInfo =>
        (updateFirst (dropShard id clock) rp.shardGroups).map fun gs => { rp with shardGroups := gs })
        di.retentionPolicies).map fun rps => { di with retentionPolicies := rps }) data.databases with
  | none => exact ⟨rpi.shardGroups, h, .inl rfl⟩
  | some dbs =>
    have hdbs := find?_updateFirst (p := fun di => di.name = database) (fun a b hab => by
      obtain ⟨rps, -, rfl⟩ := map_eq_some_iff.mp hab
      rfl) hup
    rcases hdbs with hsame | ⟨a, b, ha, hab, hb⟩
    · exact ⟨rpi.shardGroups, findPolicy_eq_ok.mpr ⟨di, hsame.trans hdb, hrp⟩, .inl rfl⟩
    · obtain rfl := some.inj (ha.symm.trans hdb)
      obtain ⟨rps, hrps, rfl⟩ := map_eq_some_iff.mp hab
      have hpol := find?_updateFirst (p := fun rp => rp.name = policy) (fun a b hab => by
        obtain ⟨gs, -, rfl⟩ := map_eq_some_iff.mp hab
        rfl) hrps
      rcases hpol with hsame | ⟨c, e, hc, hce, he⟩
      · exact ⟨rpi.shardGroups, findPolicy_eq_ok.mpr ⟨_, hb, hsame.trans hrp⟩, .inl rfl⟩
      · obtain rfl := some.inj (hc.symm.trans hrp)
        obtain ⟨gs, hgs, rfl⟩ := map_eq_some_iff.mp hce
        exact ⟨gs, findPolicy_eq_ok.mpr ⟨_, hb, he⟩, .inr hgs⟩

end Policy

/-! ## Runs -/

/-- An operation on the shard groups of a policy. -/
inductive GroupOp where
  | createShardGroup (t : { t : Time // InRange t })
  | deleteShardGroup (id : ℕ) (clock : Clock)
  | truncateShardGroups (t : Time)
  | dropShard (id : ℕ) (clock : Clock)
  | pruneShardGroups (expiration : Time)
  | setShardGroupDuration (d : { d : Int // IsDuration d })

section Run

variable (database policy : String)

/-- One operation; one that fails leaves the data as they were. -/
def applyGroupOp (data : Data) : GroupOp → Data
  | .createShardGroup t => (data.createShardGroup database policy t []).toOption.getD data
  | .deleteShardGroup id clock => (data.deleteShardGroup database policy id clock).toOption.getD data
  | .truncateShardGroups t => data.truncateShardGroups t
  | .dropShard id clock => data.dropShard id clock
  | .pruneShardGroups expiration => data.pruneShardGroups expiration
  | .setShardGroupDuration d => (data.setShardGroupDuration database policy d).toOption.getD data

def runGroupOps (data : Data) (ops : List GroupOp) : Data := ops.foldl (applyGroupOp database policy) data

/-- The group that an operation makes. -/
def createdBy (data : Data) : GroupOp → Option ShardGroupInfo
  | .createShardGroup t =>
    match data.findPolicy database policy with
    | .ok rpi => if (rpi.shardGroupByTimestamp t).isSome then none else some (data.newShardGroup rpi t [])
    | .error _ => none
  | _ => none

/-- The groups that a run makes, in order. -/
def createdIn : Data → List GroupOp → List ShardGroupInfo
  | _, [] => []
  | data, op :: ops => (createdBy database policy data op).toList ++ createdIn (applyGroupOp database policy data op) ops

variable {database policy} {data : Data} {rpi : RetentionPolicyInfo}

/-- What an operation leaves of the groups when it makes none. -/
def Rest (gs gs' : List ShardGroupInfo) : Prop := Forall₂ ShardGroupInfo.Shrinks gs gs' ∨ gs'.Sublist gs

theorem Rest.refl (gs : List ShardGroupInfo) : Rest gs gs := .inr (Sublist.refl gs)

theorem rest_delete {id : ℕ} {clock : Clock}
    (h : updateFirst (fun g => if g.id = id then some { g with deletedAt := clock.now } else none) gs = some gs') :
    Rest gs gs' := by
  refine .inl (forall₂_updateFirst ShardGroupInfo.Shrinks.refl ?_ h)
  intro a b hab
  obtain ⟨-, hb⟩ := ite_none_right_eq_some.mp hab
  cases hb
  exact ShardGroupInfo.shrinks_of_deleted (ShardGroupInfo.deleted_of_clock rfl) rfl fun _ h => h

/-- `data'` has the id counters of `data`. -/
def SameCounters (data data' : Data) : Prop :=
  data'.maxShardGroupID = data.maxShardGroupID ∧ data'.maxShardID = data.maxShardID

theorem sameCounters_setPolicy (data : Data) (database policy : String) (rpi : RetentionPolicyInfo) :
    SameCounters data (data.setPolicy database policy rpi) := by
  rw [setPolicy]
  cases data.database database <;> exact ⟨rfl, rfl⟩

theorem sameCounters_dropShard (data : Data) (id : ℕ) (clock : Clock) : SameCounters data (data.dropShard id clock) := by
  rw [Data.dropShard]
  split <;> exact ⟨rfl, rfl⟩

/-- The outcome of an operation that makes no group. -/
structure Quiet (data data' : Data) (rpi rpi' : RetentionPolicyInfo) : Prop where
  rest : Rest rpi.shardGroups rpi'.shardGroups
  duration : rpi'.shardGroupDuration = rpi.shardGroupDuration ∨ IsDuration rpi'.shardGroupDuration
  counters : SameCounters data data'

theorem Quiet.refl (data : Data) (rpi : RetentionPolicyInfo) : Quiet data data rpi rpi :=
  ⟨.refl _, .inl rfl, rfl, rfl⟩

/-- The outcome of an operation that makes the group `g`. -/
structure Makes (data data' : Data) (rpi rpi' : RetentionPolicyInfo) (t : Time) (g : ShardGroupInfo) : Prop where
  inRange : InRange t
  none_owns : rpi.shardGroupByTimestamp t = none
  eq : g = data.newShardGroup rpi t []
  policy : rpi' = { rpi with shardGroups := insertionSort ShardGroupInfo.less (rpi.shardGroups ++ [g]) }
  groupID : data'.maxShardGroupID = inc data.maxShardGroupID
  shardID : data'.maxShardID = inc data.maxShardID

section

variable (h : data.findPolicy database policy = .ok rpi)
include h

theorem createShardGroup_quiet {t : { t : Time // InRange t }}
    (howner : rpi.shardGroupByTimestamp t = some g) : applyGroupOp database policy data (.createShardGroup t) = data ∧
      createdBy database policy data (.createShardGroup t) = none := by
  simp [applyGroupOp, createdBy, createShardGroup, h, howner, Except.toOption]

/-- **`CreateShardGroup` where no group owns the timestamp** makes one. -/
theorem dataCreateShardGroup_makes (ht : InRange t) (hnone : rpi.shardGroupByTimestamp t = none) :
    ∃ data' rpi', data.createShardGroup database policy t [] = .ok data' ∧
      data'.findPolicy database policy = .ok rpi' ∧ Makes data data' rpi rpi' t (data.newShardGroup rpi t []) := by
  have hname := name_of_findPolicy h
  refine ⟨{ data.setPolicy database policy
          { rpi with
            shardGroups := insertionSort less (rpi.shardGroups ++ [data.newShardGroup rpi t []]) } with
        maxShardGroupID := inc data.maxShardGroupID
        maxShardID := inc data.maxShardID }, _, ?_, ?_, ht, hnone, rfl, rfl, rfl, rfl⟩
  · simp [createShardGroup, h, hnone]
  · exact findPolicy_setPolicy h hname

theorem createShardGroup_makes {t : { t : Time // InRange t }} (hnone : rpi.shardGroupByTimestamp t = none) :
    createdBy database policy data (.createShardGroup t) = some (data.newShardGroup rpi t []) ∧
      ∃ rpi', (applyGroupOp database policy data (.createShardGroup t)).findPolicy database policy = .ok rpi' ∧
        Makes data (applyGroupOp database policy data (.createShardGroup t)) rpi rpi' t (data.newShardGroup rpi t []) := by
  obtain ⟨data', rpi', hdata, hfind, hmakes⟩ := dataCreateShardGroup_makes h t.2 hnone
  have happly : applyGroupOp database policy data (.createShardGroup t) = data' := by
    simp [applyGroupOp, hdata, Except.toOption]
  rw [happly]
  exact ⟨by simp [createdBy, h, hnone], rpi', hfind, hmakes⟩

/-- **What an operation does** to the policy: it makes a group or it makes none. -/
theorem apply_cases (op : GroupOp) :
    ∃ rpi', (applyGroupOp database policy data op).findPolicy database policy = .ok rpi' ∧
      ((∃ t g, createdBy database policy data op = some g ∧ Makes data (applyGroupOp database policy data op) rpi rpi' t g) ∨
        (createdBy database policy data op = none ∧ Quiet data (applyGroupOp database policy data op) rpi rpi')) := by
  have hname := name_of_findPolicy h
  cases op with
  | createShardGroup t =>
    cases howner : rpi.shardGroupByTimestamp t with
    | some g =>
      obtain ⟨happly, hcreated⟩ := createShardGroup_quiet h howner
      rw [happly]
      exact ⟨rpi, h, .inr ⟨hcreated, .refl _ _⟩⟩
    | none =>
      obtain ⟨hcreated, rpi', hrpi', hmakes⟩ := createShardGroup_makes h howner
      exact ⟨rpi', hrpi', .inl ⟨t, _, hcreated, hmakes⟩⟩
  | deleteShardGroup id clock =>
    rw [applyGroupOp, deleteShardGroup, h]
    simp only
    cases hup : updateFirst (fun g => if g.id = id then some { g with deletedAt := clock.now } else none)
        rpi.shardGroups with
    | none => exact ⟨rpi, h, .inr ⟨rfl, .refl _ _⟩⟩
    | some gs =>
      exact ⟨_, findPolicy_setPolicy h hname, .inr ⟨rfl, rest_delete hup, .inl rfl, sameCounters_setPolicy ..⟩⟩
  | truncateShardGroups t =>
    refine ⟨_, findPolicy_mapGroups h _, .inr ⟨rfl, .inl ?_, .inl rfl, rfl, rfl⟩⟩
    exact forall₂_map_right_iff.mpr (forall₂_same.mpr fun g _ => ShardGroupInfo.shrinks_truncate t g)
  | dropShard id clock =>
    obtain ⟨gs, hgs, hcase⟩ := findPolicy_dropShard h id clock
    refine ⟨_, hgs, .inr ⟨rfl, ?_, .inl rfl, sameCounters_dropShard data id clock⟩⟩
    rcases hcase with rfl | hcase
    · exact Rest.refl _
    · exact .inl (forall₂_updateFirst ShardGroupInfo.Shrinks.refl (fun _ _ => ShardGroupInfo.shrinks_dropShard) hcase)
  | pruneShardGroups expiration =>
    exact ⟨_, findPolicy_mapGroups h _, .inr ⟨rfl, .inr filter_sublist, .inl rfl, rfl, rfl⟩⟩
  | setShardGroupDuration d =>
    rw [applyGroupOp, setShardGroupDuration, h]
    exact ⟨_, findPolicy_setPolicy h hname, .inr ⟨rfl, Rest.refl _, .inr d.2, sameCounters_setPolicy ..⟩⟩

end

/-! ## What a run keeps -/

/-- No two groups have a shard with the same id, and the ids do not exceed the counter. -/
structure Numbered (max : ℕ) (gs : List ShardGroupInfo) : Prop where
  le : ∀ g ∈ gs, ∀ s ∈ g.shards, s.id ≤ max
  distinct : gs.Pairwise fun a b => ∀ s ∈ a.shards, ∀ s' ∈ b.shards, s.id ≠ s'.id

theorem numbered_nil (max : ℕ) : Numbered max [] := ⟨forall_mem_nil _, .nil⟩

theorem Numbered.perm {max : ℕ} (h : Numbered max gs) (hp : gs'.Perm gs) : Numbered max gs' := by
  refine ⟨fun g hg => h.le g (hp.subset hg), (hp.pairwise_iff ?_).mpr h.distinct⟩
  intro a b hab s hs s' hs' heq
  exact hab s' hs' s hs heq.symm

theorem Numbered.rest {max : ℕ} (h : Numbered max gs) (hrest : Rest gs gs') : Numbered max gs' := by
  rcases hrest with hsh | hsub
  · refine ⟨fun a' ha' s hs => ?_, pairwise_of_forall₂ hsh h.distinct ?_⟩
    · obtain ⟨a, ha, haa⟩ := exists_left_of_forall₂ hsh a' ha'
      exact h.le a ha s (haa.shards s hs)
    · intro a _ b _ a' b' haa hbb hne s hs s' hs'
      exact hne s (haa.shards s hs) s' (hbb.shards s' hs')
  · exact ⟨fun g hg => h.le g (hsub.subset hg), h.distinct.sublist hsub⟩

theorem Numbered.create (h : Numbered data.maxShardID gs) (hroom : data.maxShardID + 1 < 2 ^ 64)
    (rpi : RetentionPolicyInfo) (t : Time) :
    Numbered (inc data.maxShardID) (insertionSort less (gs ++ [data.newShardGroup rpi t []])) := by
  have hnext : inc data.maxShardID = data.maxShardID + 1 := Nat.mod_eq_of_lt hroom
  have hnew : ∀ s ∈ (data.newShardGroup rpi t []).shards, s.id = data.maxShardID + 1 := by
    intro s hs
    rw [mem_singleton.mp hs, hnext]
  rw [hnext]
  refine Numbered.perm ⟨?_, pairwise_append.mpr ⟨h.distinct, pairwise_singleton _ _, ?_⟩⟩ (insertionSort_perm _)
  · refine forall_mem_append.mpr ⟨fun g hg s hs => ?_, forall_mem_singleton.mpr fun s hs => (hnew s hs).le⟩
    exact (h.le g hg s hs).trans (Nat.le_succ _)
  · intro a ha b hb s hs s' hs'
    rw [mem_singleton.mp hb] at hs'
    have := h.le a ha s hs
    have := hnew s' hs'
    omega

/-- **A well-kept policy**: its groups tile time and its shard group duration is positive. -/
structure Well (database policy : String) (data : Data) (rpi : RetentionPolicyInfo) : Prop where
  find : data.findPolicy database policy = .ok rpi
  tiled : Tiled rpi.shardGroups
  duration : IsDuration rpi.shardGroupDuration

theorem Tiled.rest (h : Tiled gs) (hrest : Rest gs gs') : Tiled gs' := by
  rcases hrest with hsh | hsub
  · exact h.shrinks hsh
  · exact h.sublist hsub

theorem Well.makes {data' : Data}
    (h : Well database policy data rpi) (hfind : data'.findPolicy database policy = .ok rpi')
    (hmakes : Makes data data' rpi rpi' t g) : Well database policy data' rpi' := by
  obtain rfl := hmakes.policy
  obtain rfl := hmakes.eq
  exact ⟨hfind, h.tiled.create hmakes.inRange hmakes.none_owns data [] h.duration, h.duration⟩

theorem Well.apply (h : Well database policy data rpi) (op : GroupOp) :
    ∃ rpi', Well database policy (applyGroupOp database policy data op) rpi' := by
  obtain ⟨rpi', hfind', hcase⟩ := apply_cases h.find op
  rcases hcase with ⟨t, g, -, hmakes⟩ | ⟨-, hquiet⟩
  · exact ⟨rpi', h.makes hfind' hmakes⟩
  · refine ⟨rpi', hfind', h.tiled.rest hquiet.rest, ?_⟩
    rcases hquiet.duration with heq | hd'
    · rw [heq]
      exact h.duration
    · exact hd'

/-- **Every run** keeps the policy well. -/
theorem Well.run (h : Well database policy data rpi) (ops : List GroupOp) :
    ∃ rpi', Well database policy (runGroupOps database policy data ops) rpi' := by
  induction ops generalizing data rpi with
  | nil => exact ⟨rpi, h⟩
  | cons op ops ih =>
    obtain ⟨rpi', h'⟩ := h.apply op
    exact ih h'

/-- **A run tells the shards apart** as long as their counter has room. -/
theorem Numbered.run (hfind : data.findPolicy database policy = .ok rpi) (h : Numbered data.maxShardID rpi.shardGroups)
    (ops : List GroupOp) (hroom : data.maxShardID + (createdIn database policy data ops).length < 2 ^ 64) :
    ∃ rpi', (runGroupOps database policy data ops).findPolicy database policy = .ok rpi' ∧
      Numbered (runGroupOps database policy data ops).maxShardID rpi'.shardGroups := by
  induction ops generalizing data rpi with
  | nil => exact ⟨rpi, hfind, h⟩
  | cons op ops ih =>
    obtain ⟨rpi', hfind', hcase⟩ := apply_cases hfind op
    rw [createdIn, length_append] at hroom
    rcases hcase with ⟨t, g, hcreated, hmakes⟩ | ⟨hcreated, hquiet⟩
    · rw [hcreated, toList_some, length_singleton] at hroom
      have hnext : inc data.maxShardID = data.maxShardID + 1 := Nat.mod_eq_of_lt (by omega)
      obtain rfl := hmakes.policy
      obtain rfl := hmakes.eq
      refine ih hfind' ?_ ?_
      · rw [hmakes.shardID]
        exact h.create (by omega) rpi t
      · rw [hmakes.shardID, hnext]
        omega
    · rw [hcreated, toList_none, length_nil, zero_add] at hroom
      refine ih hfind' ?_ ?_ <;> rw [hquiet.counters.2]
      · exact h.rest hquiet.rest
      · exact hroom

/-- The `n` ids that a counter gives out from `start` on. -/
def idsFrom (start n : ℕ) : List ℕ := (range n).map fun i => (start + 1 + i) % 2 ^ 64

theorem idsFrom_succ (start n : ℕ) : idsFrom start (n + 1) = inc start :: idsFrom (inc start) n := by
  rw [idsFrom, range_succ_eq_map, map_cons, List.map_map]
  refine congrArg (inc start :: ·) (map_congr_left fun i _ => ?_)
  rw [inc, Function.comp_apply, add_assoc _ 1 i, Nat.mod_add_mod]
  congr 1
  omega

theorem nodup_idsFrom {n : ℕ} (start : ℕ) (hn : n ≤ 2 ^ 64) : (idsFrom start n).Nodup := by
  refine nodup_range.map_on fun i hi j hj hij => ?_
  rw [mem_range] at hi hj
  omega

/-- **The ids a run assigns** are the next ones of the two counters. -/
theorem createdIn_ids (h : data.findPolicy database policy = .ok rpi) (ops : List GroupOp) :
    (createdIn database policy data ops).map (·.id) =
        idsFrom data.maxShardGroupID (createdIn database policy data ops).length ∧
      ((createdIn database policy data ops).flatMap fun g => g.shards.map (·.id)) =
        idsFrom data.maxShardID (createdIn database policy data ops).length := by
  induction ops generalizing data rpi with
  | nil => exact ⟨rfl, rfl⟩
  | cons op ops ih =>
    obtain ⟨rpi', hfind', hcase⟩ := apply_cases h op
    obtain ⟨hg, hs⟩ := ih hfind'
    rw [createdIn]
    rcases hcase with ⟨t, g, hcreated, hmakes⟩ | ⟨hcreated, hquiet⟩
    · obtain rfl := hmakes.eq
      rw [hmakes.groupID] at hg
      rw [hmakes.shardID] at hs
      rw [hcreated, toList_some, singleton_append, length_cons, idsFrom_succ, idsFrom_succ, map_cons, flatMap_cons, hg, hs]
      exact ⟨rfl, rfl⟩
    · rw [hcreated]
      rw [hquiet.counters.1] at hg
      rw [hquiet.counters.2] at hs
      exact ⟨hg, hs⟩

theorem owned_after_create (hfind : data.findPolicy database policy = .ok rpi) (htiled : Tiled rpi.shardGroups)
    (hd : IsDuration rpi.shardGroupDuration) (t : { t : Time // InRange t }) :
    ∃ rpi', (applyGroupOp database policy data (.createShardGroup t)).findPolicy database policy = .ok rpi' ∧
      (rpi'.shardGroups.filter (·.owns t)).length = 1 ∧
      (rpi.shardGroupByTimestamp t = none → ∃ g ∈ rpi'.shardGroups, g.owns t = true ∧
        createdBy database policy data (.createShardGroup t) = some g ∧
        FreePart rpi.shardGroups t rpi.shardGroupDuration g.range ∧
        ∀ v, FreePart rpi.shardGroups t rpi.shardGroupDuration v → v.Within g.range) := by
  have hone : ∀ {gs : List ShardGroupInfo} {g : ShardGroupInfo}, Tiled gs → g ∈ gs → g.owns t = true →
      (gs.filter (·.owns t)).length = 1 := by
    intro gs g hgs hg hown
    have hmem : g ∈ gs.filter (·.owns t) := mem_filter.mpr ⟨hg, hown⟩
    have hpos := length_pos_of_mem hmem
    have hle := hgs.filter_owns_length_le t
    omega
  cases howner : rpi.shardGroupByTimestamp t with
  | some g =>
    rw [(createShardGroup_quiet hfind howner).1]
    refine ⟨rpi, hfind, hone htiled (mem_of_find?_eq_some howner) ?_, fun h => by cases h⟩
    exact find?_some (p := fun g : ShardGroupInfo => g.owns t) howner
  | none =>
    obtain ⟨hcreated, rpi', hfind', hmakes⟩ := createShardGroup_makes hfind howner
    obtain ⟨hpart, hlargest⟩ := newShardGroup_spec htiled t.2 howner data [] hd.1
    have hsound := newShardGroup_sound htiled t.2 howner data [] hd
    have howns : (data.newShardGroup rpi t []).owns t = true := hsound.owns_iff_contains.mpr ⟨rfl, hpart.contains⟩
    obtain rfl := hmakes.policy
    have hmem : data.newShardGroup rpi t [] ∈
        insertionSort less (rpi.shardGroups ++ [data.newShardGroup rpi t []]) :=
      mem_insertionSort.mpr (mem_append_right _ mem_cons_self)
    exact ⟨_, hfind', hone (htiled.create t.2 howner data [] hd) hmem howns,
      fun _ => ⟨_, hmem, howns, hcreated, hpart, hlargest⟩⟩

/-- **Shard groups tile time.**  After every run of the operations on a policy that begins without groups, the effective
ranges of the live groups are disjoint and listed by their starts, each live group has a shard, no id has been assigned
twice (unless the counters have gone round), and `CreateShardGroup(t)` leaves one owner of `t`, which takes the largest
free part of the window if it is new. -/
theorem shard_groups_tile_time (hfind : data.findPolicy database policy = .ok rpi) (hempty : rpi.shardGroups = [])
    (hd : IsDuration rpi.shardGroupDuration) (ops : List GroupOp) :
    ∃ rpi', (runGroupOps database policy data ops).findPolicy database policy = .ok rpi' ∧
      rpi'.shardGroups.Pairwise (fun a b => a.deleted = false → b.deleted = false →
        ∀ t, ¬(a.range.Contains t ∧ b.range.Contains t)) ∧
      rpi'.shardGroups.Pairwise (fun a b => a.deleted = false → b.deleted = false → a.startTime ≤ b.startTime) ∧
      (∀ g ∈ rpi'.shardGroups, g.deleted = false → g.shards ≠ []) ∧
      ((createdIn database policy data ops).length ≤ 2 ^ 64 →
        ((createdIn database policy data ops).map (·.id)).Nodup ∧
          ((createdIn database policy data ops).flatMap fun g => g.shards.map (·.id)).Nodup) ∧
      ∀ t : { t : Time // InRange t },
        ∃ rpi'', (applyGroupOp database policy (runGroupOps database policy data ops) (.createShardGroup t)).findPolicy
            database policy = .ok rpi'' ∧ (rpi''.shardGroups.filter (·.owns t)).length = 1 ∧
          (rpi'.shardGroupByTimestamp t = none → ∃ g ∈ rpi''.shardGroups, g.owns t = true ∧
            createdBy database policy (runGroupOps database policy data ops) (.createShardGroup t) = some g ∧
            FreePart rpi'.shardGroups t rpi'.shardGroupDuration g.range ∧
            ∀ v, FreePart rpi'.shardGroups t rpi'.shardGroupDuration v → v.Within g.range) := by
  have hwell : Well database policy data rpi := ⟨hfind, hempty ▸ tiled_nil, hd⟩
  obtain ⟨rpi', hfind', htiled, hd'⟩ := hwell.run ops
  obtain ⟨hgroups, hshards⟩ := createdIn_ids hfind ops
  refine ⟨rpi', hfind', ?_, htiled.ascending, fun g hg hlive => (htiled.sound g hg hlive).shards, fun hlen => ?_,
    fun t => owned_after_create hfind' htiled hd' t⟩
  rotate_left
  · rw [hgroups, hshards]
    exact ⟨nodup_idsFrom _ hlen, nodup_idsFrom _ hlen⟩
  refine htiled.apart.imp fun hno hla hlb t ht => ?_
  exact hno hla hlb (Range.overlaps_of_contains ht.1 ht.2)

/-- A database with one policy of hourly groups. -/
def hourly : Data :=
  ⟨1, 1, 1, [⟨"db", "rp", [⟨"rp", 1, 0, 3600 * 1000000000, [], []⟩], []⟩], [], false, 0, 0⟩

/-- A group is made and cut short, and another one is made behind the cut. -/
def hourlyOps : List GroupOp :=
  [.createShardGroup ⟨Time.ofUnixNano 5, by decide⟩, .truncateShardGroups (Time.ofUnixNano 7),
    .createShardGroup ⟨Time.ofUnixNano 9, by decide⟩]

theorem hourly_tiles_time : ∃ rpi', (runGroupOps "db" "rp" hourly hourlyOps).findPolicy "db" "rp" = .ok rpi' ∧
    rpi'.shardGroups.map (fun g => (g.id, g.startTime.unixNano, g.effectiveEnd.unixNano)) =
      [(1, 0, 7), (2, 7, 3600 * 1000000000)] ∧
    rpi'.shardGroups.Pairwise (fun a b => a.deleted = false → b.deleted = false →
      ∀ t, ¬(a.range.Contains t ∧ b.range.Contains t)) ∧
    ∀ g ∈ rpi'.shardGroups, g.deleted = false → g.shards ≠ [] := by
  have hfind : hourly.findPolicy "db" "rp" = .ok ⟨"rp", 1, 0, 3600 * 1000000000, [], []⟩ := rfl
  obtain ⟨rpi', hfind', hapart, -, hshards, -⟩ := shard_groups_tile_time hfind rfl (by decide) hourlyOps
  refine ⟨rpi', hfind', ?_, hapart, hshards⟩
  cases hfind'
  decide +kernel

end Run

end Influxdb.Meta
