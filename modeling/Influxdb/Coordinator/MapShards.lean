import Influxdb.Lib.Search
import Influxdb.Meta.ShardGroupRun

/-!
# MapShards — points are mapped to shards

`PointsWriter.MapShards` walks over a batch twice: the first walk collects the shard groups the batch needs in a list of its
own, creating those that are missing, and the second looks every point up in that list.  The list is sorted by effective
ends and searched by nominal ends, with a linear search as a fallback; whatever the search runs into, it finds a group that
contains the time whenever the list has one (`shardGroupAt_spec`).
-/

namespace Influxdb.Coordinator

open List

open Models (Time Point)
open Meta

/-! ## The metadata client -/

/-- `Client.RetentionPolicy`, where the empty name stands for the default policy. -/
def retentionPolicy (data : Data) (database name : String) : Except String (Option RetentionPolicyInfo) :=
  match data.database database with
  | none => .error (errDatabaseNotFound database)
  | some di => .ok (di.retentionPolicy name)

theorem retentionPolicy_of_findPolicy {data : Data} {database name : String} {rpi : RetentionPolicyInfo}
    (h : data.findPolicy database name = .ok rpi) (hname : name ≠ "") :
    retentionPolicy data database name = .ok (some rpi) := by
  obtain ⟨di, hdi, hrp⟩ := Data.findPolicy_eq_ok.mp h
  rw [retentionPolicy, hdi, ← hrp, ← DatabaseInfo.retentionPolicy_of_ne hname]

/-- `Client.CreateShardGroup` on the metadata it serves; the store takes the update. -/
def createShardGroup (database policy : String) (data : Data) (t : Time) :
    Except String (Data × Option ShardGroupInfo) :=
  match (data.findPolicy database policy).map (·.shardGroupByTimestamp t) with
  | .ok (some sg) => .ok (data, some sg)
  | _ =>
    match data.createShardGroup database policy t [] with
    | .error e => .error e
    | .ok data' =>
      match data'.findPolicy database policy with
      | .error e => .error e
      | .ok rpi => .ok ({ data' with index := Data.inc data'.index }, rpi.shardGroupByTimestamp t)

/-! ## Shards and mappings -/

/-- `InlineFNV64a` over a key. -/
def fnv64a (key : List Byte) : ℕ :=
  key.foldl (fun h c => ((h ^^^ c.toNat) * 1099511628211) % 2 ^ 64) 14695981039346656037

def hashID (p : Point) : ℕ := fnv64a p.key

def shardFor (sg : ShardGroupInfo) (h : sg.shards ≠ []) (p : Point) : ShardInfo :=
  if sg.shards.length = 1 then sg.shards.head h
  else sg.shards.get ⟨hashID p % sg.shards.length, Nat.mod_lt _ (length_pos_of_ne_nil h)⟩

theorem shardFor_mem (sg : ShardGroupInfo) (h : sg.shards ≠ []) (p : Point) : shardFor sg h p ∈ sg.shards := by
  rw [shardFor]
  split_ifs
  · exact head_mem h
  · exact get_mem ..

structure ShardMapping where
  points : List (ℕ × List Point)
  shards : List (ℕ × ShardInfo)
  dropped : List Point

def newShardMapping : ShardMapping := ⟨[], [], []⟩

def ShardMapping.mapPoint (m : ShardMapping) (shard : ShardInfo) (p : Point) : ShardMapping :=
  { m with
    points := Assoc.put shard.id ((Assoc.get shard.id m.points).getD [] ++ [p]) m.points
    shards := Assoc.put shard.id shard m.shards }

/-! ## The list of shard groups -/

structure SgList where
  items : List ShardGroupInfo
  needsSort : Bool
  earliest : Time
  latest : Time

namespace SgList

/-- The list at the start of `MapShards`. -/
def empty : SgList := ⟨[], false, zeroTime, zeroTime⟩

variable (l : SgList)

/-- What a search does to the list: the items are sorted in place, but `needsSort` is cleared in a copy only. -/
def sort : SgList :=
  if l.needsSort then { l with items := insertionSort ShardGroupInfo.less l.items } else l

/-- The search when the binary search has missed. -/
def scan (t : Time) : Option ShardGroupInfo :=
  if t < l.earliest ∨ l.latest < t then none else l.sort.items.find? (·.contains t)

def shardGroupAt (t : Time) : Option ShardGroupInfo :=
  if l.items.length = 0 then none
  else
    match (l.sort.items)[sortSearch l.sort.items.length fun i =>
        ((l.sort.items)[i]?.map fun g => decide (t < g.endTime)).getD false]? with
    | none => l.scan t
    | some g => if t < g.startTime then l.scan t else some g

def covers (t : Time) : Bool := if l.items.length = 0 then false else (l.shardGroupAt t).isSome

def add (sg : ShardGroupInfo) : SgList where
  items := l.items ++ [sg]
  needsSort := true
  earliest := if l.earliest.isZero ∨ sg.startTime < l.earliest then sg.startTime else l.earliest
  latest := if l.latest.isZero ∨ l.latest < sg.endTime then sg.endTime else l.latest

end SgList

/-! ## `MapShards` -/

section MapShards

variable (database policy : String)

/-- The oldest time a write may have. -/
def minTime (rp : RetentionPolicyInfo) (now : Time) : Time :=
  if 0 < rp.duration then Meta.add now (-rp.duration) else Time.ofUnixNano Models.minNanoTime

inductive MapError where
  /-- An error of the metadata client. -/
  | client (e : String)
  /-- `nil shard group` -/
  | nilShardGroup
  /-- `shard group %d covering %s to %s has no shards` -/
  | noShards (id : ℕ) (startTime endTime : Time)

/-- The first walk: collect the groups. -/
def collect (min : Time) : Data → SgList → List Point → Except MapError (Data × SgList)
  | data, l, [] => .ok (data, l)
  | data, l, p :: ps =>
    if p.time < min then collect min data l ps
    else if l.covers p.time then collect min data l.sort ps
    else
      match createShardGroup database policy data p.time with
      | .error e => .error (.client e)
      | .ok (_, none) => .error .nilShardGroup
      | .ok (data', some sg) => collect min data' (l.sort.add sg) ps

/-- The second walk: look the points up. -/
def assign (l : SgList) : ShardMapping → List Point → Except MapError ShardMapping
  | m, [] => .ok m
  | m, p :: ps =>
    match l.shardGroupAt p.time with
    | none => assign l { m with dropped := m.dropped ++ [p] } ps
    | some sg =>
      if h : sg.shards = [] then .error (.noShards sg.id sg.startTime sg.endTime)
      else assign l (m.mapPoint (shardFor sg h p) p) ps

def mapShards (now : Time) (data : Data) (points : List Point) : Except MapError (Data × ShardMapping) :=
  match retentionPolicy data database policy with
  | .error e => .error (.client e)
  | .ok none => .error (.client (errRetentionPolicyNotFound policy))
  | .ok (some rp) =>
    match collect database policy (minTime rp now) data SgList.empty points with
    | .error e => .error e
    | .ok (data', l) =>
      match assign l newShardMapping points with
      | .error e => .error e
      | .ok m => .ok (data', m)

end MapShards

/-! ## What the list finds -/

namespace SgList

variable {l : SgList} {t : Time} {g : ShardGroupInfo}

structure Bounded (l : SgList) : Prop where
  earliest_le : ∀ g ∈ l.items, l.earliest ≤ g.startTime
  le_latest : ∀ g ∈ l.items, g.endTime ≤ l.latest
  /-- Unset bounds are those of the empty list. -/
  set : l.items = [] ∧ l.earliest = zeroTime ∧ l.latest = zeroTime ∨ 0 < l.earliest.nanos ∧ 0 < l.latest.nanos

theorem bounded_empty : Bounded empty :=
  ⟨forall_mem_nil _, forall_mem_nil _, .inl ⟨rfl, rfl, rfl⟩⟩

@[simp] theorem mem_sort : g ∈ l.sort.items ↔ g ∈ l.items := by
  rw [sort]
  split_ifs
  · exact mem_insertionSort
  · rfl

theorem Bounded.sort (h : Bounded l) : Bounded l.sort := by
  have hbounds : l.sort.earliest = l.earliest ∧ l.sort.latest = l.latest := by
    rw [SgList.sort]
    split_ifs <;> exact ⟨rfl, rfl⟩
  refine ⟨fun g hg => ?_, fun g hg => ?_, ?_⟩
  · rw [hbounds.1]
    exact h.earliest_le g (mem_sort.mp hg)
  · rw [hbounds.2]
    exact h.le_latest g (mem_sort.mp hg)
  · rw [hbounds.1, hbounds.2]
    refine h.set.imp_left fun ⟨hnil, hunset⟩ => ⟨?_, hunset⟩
    exact eq_nil_iff_forall_not_mem.mpr fun g hg => by simp [hnil] at hg

theorem Bounded.add (h : Bounded l) (hstart : 0 < g.startTime.nanos) (hle : g.startTime ≤ g.endTime) :
    Bounded (l.add g) := by
  have hend : 0 < g.endTime.nanos := hstart.trans_le hle
  rcases h.set with ⟨hnil, he, hl⟩ | ⟨he, hl⟩
  · have hadd : l.add g = ⟨[g], true, g.startTime, g.endTime⟩ := by
      rw [SgList.add, hnil, he, hl]
      rfl
    rw [hadd]
    exact ⟨by simp, by simp, .inr ⟨hstart, hend⟩⟩
  · have hearliest : (l.add g).earliest = min g.startTime l.earliest := by
      simp [SgList.add, Time.isZero, he.ne', min_def_lt]
    have hlatest : (l.add g).latest = max l.latest g.endTime := by
      simp [SgList.add, Time.isZero, hl.ne', max_def_lt]
    refine ⟨?_, ?_, .inr ⟨?_, ?_⟩⟩
    · rw [hearliest]
      refine forall_mem_append.mpr ⟨fun a ha => (min_le_right _ _).trans (h.earliest_le a ha), ?_⟩
      exact forall_mem_singleton.mpr (min_le_left _ _)
    · rw [hlatest]
      refine forall_mem_append.mpr ⟨fun a ha => (h.le_latest a ha).trans (le_max_left _ _), ?_⟩
      exact forall_mem_singleton.mpr (le_max_right _ _)
    · rcases min_choice g.startTime l.earliest with hmin | hmin <;> rw [hearliest, hmin] <;> assumption
    · rcases max_choice l.latest g.endTime with hmax | hmax <;> rw [hlatest, hmax] <;> assumption

theorem scan_mem (h : l.scan t = some g) : g ∈ l.items ∧ g.contains t = true := by
  rw [scan] at h
  split_ifs at h
  exact ⟨mem_sort.mp (mem_of_find?_eq_some h), find?_some (p := fun g => ShardGroupInfo.contains g t) h⟩

theorem contains_iff : g.contains t = true ↔ g.startTime ≤ t ∧ t < g.endTime := by
  simp [ShardGroupInfo.contains]

theorem scan_isSome (hb : Bounded l) (hg : g ∈ l.items) (ht : g.contains t = true) : (l.scan t).isSome = true := by
  have hcon := contains_iff.mp ht
  have hin : ¬(t < l.earliest ∨ l.latest < t) := by
    rintro (hlt | hlt)
    · exact absurd hcon.1 (not_le.mpr (hlt.trans_le (hb.earliest_le g hg)))
    · exact absurd hcon.2 (not_lt.mpr ((hb.le_latest g hg).trans hlt.le))
  rw [scan, if_neg hin, find?_isSome]
  exact ⟨g, mem_sort.mpr hg, ht⟩

/-- **The search** finds an item that contains the time, and it finds one if there is one. -/
theorem shardGroupAt_spec (hb : Bounded l) (t : Time) :
    (∀ g, l.shardGroupAt t = some g → g ∈ l.items ∧ g.contains t = true) ∧
      ((∃ g ∈ l.items, g.contains t = true) → (l.shardGroupAt t).isSome = true) := by
  rw [shardGroupAt]
  split_ifs with hlen
  · rw [length_eq_zero_iff.mp hlen]
    exact ⟨fun g h => absurd h (by simp), fun ⟨g, hg, _⟩ => absurd hg not_mem_nil⟩
  · have hstop := sortSearch_stops l.sort.items.length fun i =>
      ((l.sort.items)[i]?.map fun g => decide (t < g.endTime)).getD false
    generalize sortSearch l.sort.items.length (fun i =>
      ((l.sort.items)[i]?.map fun g => decide (t < g.endTime)).getD false) = idx at hstop ⊢
    cases hidx : (l.sort.items)[idx]? with
    | none => exact ⟨fun g h => scan_mem h, fun ⟨g, hg, ht⟩ => scan_isSome hb hg ht⟩
    | some g =>
      simp only
      split_ifs with hstart
      · exact ⟨fun g h => scan_mem h, fun ⟨g, hg, ht⟩ => scan_isSome hb hg ht⟩
      · obtain ⟨hlt, -⟩ := List.getElem?_eq_some_iff.mp hidx
        have hend : t < g.endTime := by
          have h := hstop hlt
          rw [hidx] at h
          simpa using h
        refine ⟨fun g' h => ?_, fun _ => rfl⟩
        cases h
        exact ⟨mem_sort.mp (mem_of_getElem? hidx), contains_iff.mpr ⟨not_lt.mp hstart, hend⟩⟩

theorem covers_iff (hb : Bounded l) : l.covers t = true ↔ ∃ g ∈ l.items, g.contains t = true := by
  obtain ⟨hsome, hex⟩ := shardGroupAt_spec hb t
  rw [covers]
  split_ifs with hlen
  · rw [length_eq_zero_iff.mp hlen]
    simp
  · refine ⟨fun h => ?_, hex⟩
    obtain ⟨g, hg⟩ := Option.isSome_iff_exists.mp h
    exact ⟨g, hsome g hg⟩

end SgList

end Influxdb.Coordinator
