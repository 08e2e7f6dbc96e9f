import Influxdb.Lib.Ranges
import Influxdb.Lib.UpdateFirst
import Influxdb.Models.Points

/-!
# Data — the metadata and what the shard group operations do to it

`services/meta/data.go` keeps all metadata in one value: databases with their retention policies, the policies' shard
groups and subscriptions, and users.  This module has the types and the operations on shard groups.  A search that changes
what it finds through a pointer is `updateFirst` or `replaceFirst`; `time.Now()` is an argument.
-/

namespace Influxdb.Meta

open Models (Time)

/-! ## Times -/

/-- Earlier instants come first: `Time.Before`, `Time.After` and `Time.Equal`. -/
instance : LinearOrder Time :=
  LinearOrder.lift' Time.nanos fun a b h => by
    cases a
    cases b
    exact congrArg Time.mk h

theorem time_le_iff {a b : Time} : a ≤ b ↔ a.nanos ≤ b.nanos := Iff.rfl

def add (t : Time) (d : Int) : Time := ⟨t.nanos + d⟩

/-- The zero `time.Time`, which stands for an instant that is not set. -/
def zeroTime : Time := ⟨0⟩

/-- What `time.Now` answers: the wall clock never shows the zero time. -/
structure Clock where
  now : Time
  set : now.isZero = false

/-! ## The types -/

structure ShardOwner where
  nodeID : ℕ
deriving DecidableEq

structure ShardInfo where
  id : ℕ
  owners : List ShardOwner
deriving DecidableEq

structure ShardGroupInfo where
  id : ℕ
  startTime : Time
  endTime : Time
  deletedAt : Time
  shards : List ShardInfo
  truncatedAt : Time
deriving DecidableEq

structure SubscriptionInfo where
  name : String
  mode : String
  destinations : List String
deriving DecidableEq

/-- A retention policy; `S` is what it holds for its subscriptions, their list or a reference to it. -/
structure RetentionPolicyInfo (S : Type := List SubscriptionInfo) where
  name : String
  replicaN : Int
  duration : Int
  shardGroupDuration : Int
  shardGroups : List ShardGroupInfo
  subscriptions : S
deriving DecidableEq

structure ContinuousQueryInfo where
  name : String
  query : String
deriving DecidableEq

structure DatabaseInfo (S : Type := List SubscriptionInfo) where
  name : String
  defaultRetentionPolicy : String
  retentionPolicies : List (RetentionPolicyInfo S)
  continuousQueries : List ContinuousQueryInfo
deriving DecidableEq

/-- The privileges of a user: a map from database names. -/
structure Privileges where
  entries : List (String × Int)
  nodup : (entries.map Prod.fst).Nodup
deriving DecidableEq

structure UserInfo where
  name : String
  hash : String
  admin : Bool
  privileges : Privileges
deriving DecidableEq

structure Data (S : Type := List SubscriptionInfo) where
  term : ℕ
  index : ℕ
  clusterID : ℕ
  databases : List (DatabaseInfo S)
  users : List UserInfo
  adminUserExists : Bool
  maxShardGroupID : ℕ
  maxShardID : ℕ
deriving DecidableEq

/-! ## Shard groups -/

namespace ShardGroupInfo

variable (g : ShardGroupInfo)

def contains (t : Time) : Bool := !decide (t < g.startTime) && decide (t < g.endTime)

def deleted : Bool := !g.deletedAt.isZero

def truncated : Bool := !g.truncatedAt.isZero

/-- Where the group ends for new writes: `endI` of `CreateShardGroup`, `iEnd` of `Less`. -/
def effectiveEnd : Time := if g.truncated then g.truncatedAt else g.endTime

def range : Range Time := ⟨g.startTime, g.effectiveEnd⟩

def less (a b : ShardGroupInfo) : Bool :=
  if a.effectiveEnd = b.effectiveEnd then decide (a.startTime < b.startTime)
  else decide (a.effectiveEnd < b.effectiveEnd)

/-- The condition of `ShardGroupByTimestamp`. -/
def owns (t : Time) : Bool :=
  g.contains t && !g.deleted && (!g.truncated || decide (t < g.truncatedAt))

/-- One round of the loop of `TruncateShardGroups`. -/
def truncate (t : Time) (g : ShardGroupInfo) : ShardGroupInfo :=
  if ¬t < g.endTime ∨ g.deleted ∨ (g.truncated ∧ g.truncatedAt < t) then g
  else if ¬g.startTime < t then { g with truncatedAt := g.startTime }
  else { g with truncatedAt := t }

/-- What `DropShard` does to a group that has the shard. -/
def dropShard (id : ℕ) (clock : Clock) (g : ShardGroupInfo) : Option ShardGroupInfo :=
  (g.shards.findIdx? fun s => s.id = id).map fun i =>
    { g with
      shards := g.shards.eraseIdx i
      deletedAt := if g.shards.length = 1 ∧ g.deleted = false then clock.now else g.deletedAt }

end ShardGroupInfo

variable {S : Type}

def RetentionPolicyInfo.shardGroupByTimestamp (rpi : RetentionPolicyInfo S) (t : Time) : Option ShardGroupInfo :=
  rpi.shardGroups.find? (·.owns t)

/-! ## Databases and policies -/

def errDatabaseNotFound (name : String) : String := "database not found: " ++ name

def errRetentionPolicyNotFound (name : String) : String := "retention policy not found: " ++ name

def errShardGroupNotFound : String := "shard group not found"

namespace DatabaseInfo

variable (di : DatabaseInfo S) (name : String)

/-- The first policy of a name: the loop of both `RetentionPolicy` functions. -/
def policyNamed : Option (RetentionPolicyInfo S) := di.retentionPolicies.find? fun rp => rp.name = name

/-- The name that `DatabaseInfo.RetentionPolicy` looks for: the empty one stands for the default policy. -/
def policyName : String := if name = "" then di.defaultRetentionPolicy else name

def retentionPolicy : Option (RetentionPolicyInfo S) :=
  if di.policyName name = "" then none else di.policyNamed (di.policyName name)

variable {di name}

theorem retentionPolicy_eq_some {rpi : RetentionPolicyInfo S} (h : di.retentionPolicy name = some rpi) :
    di.policyNamed (di.policyName name) = some rpi := by
  rw [retentionPolicy] at h
  split_ifs at h
  exact h

theorem retentionPolicy_of_ne (h : name ≠ "") : di.retentionPolicy name = di.policyNamed name := by
  rw [retentionPolicy, policyName, if_neg h, if_neg h]

end DatabaseInfo

namespace Data

variable (data : Data S)

def database (name : String) : Option (DatabaseInfo S) := data.databases.find? fun di => di.name = name

def retentionPolicy (database name : String) : Except String (Option (RetentionPolicyInfo S)) :=
  match data.database database with
  | none => .error (errDatabaseNotFound database)
  | some di => .ok (di.policyNamed name)

/-- `RetentionPolicy`, where the caller takes a missing policy for an error. -/
def findPolicy (database name : String) : Except String (RetentionPolicyInfo S) :=
  match data.retentionPolicy database name with
  | .error e => .error e
  | .ok none => .error (errRetentionPolicyNotFound name)
  | .ok (some rpi) => .ok rpi

theorem findPolicy_eq_ok {data : Data S} {database rp : String} {rpi : RetentionPolicyInfo S} :
    data.findPolicy database rp = .ok rpi ↔ ∃ di, data.database database = some di ∧ di.policyNamed rp = some rpi := by
  rw [findPolicy, retentionPolicy]
  cases data.database database with
  | none => simp
  | some di => cases hrp : di.policyNamed rp <;> simp [hrp]

/-- Write to the policy that `RetentionPolicy` points at. -/
def setPolicy (database name : String) (rpi : RetentionPolicyInfo S) : Data S :=
  match data.database database with
  | none => data
  | some di =>
    { data with
      databases := replaceFirst (fun di => di.name = database)
        { di with retentionPolicies := replaceFirst (fun rp => rp.name = name) rpi di.retentionPolicies }
        data.databases }

/-! ## The operations on shard groups -/

/-- The window of `CreateShardGroup` around a timestamp, before the other groups cut it. -/
def window (t : Time) (d : Int) : Range Time :=
  ⟨t.truncate d,
    if Time.ofUnixNano Models.maxNanoTime < add (t.truncate d) d then Time.ofUnixNano (Models.maxNanoTime + 1)
    else add (t.truncate d) d⟩

/-- One round of the loop of `CreateShardGroup`. -/
def narrow (t : Time) (w : Range Time) (g : ShardGroupInfo) : Range Time :=
  if g.deleted then w
  else
    ⟨if ¬t < g.effectiveEnd ∧ w.lo < g.effectiveEnd then g.effectiveEnd else w.lo,
      if t < g.startTime ∧ g.startTime < w.hi then g.startTime else w.hi⟩

/-- The counters are 64-bit words. -/
def inc (n : ℕ) : ℕ := (n + 1) % 2 ^ 64

/-- The shards of a new group: the given ones, or one with the next id. -/
def newShards (shards : List ShardInfo) : List ShardInfo :=
  if 0 < shards.length then shards else [⟨inc data.maxShardID, []⟩]

/-- The group that `CreateShardGroup` makes. -/
def newShardGroup (rpi : RetentionPolicyInfo S) (t : Time) (shards : List ShardInfo) : ShardGroupInfo where
  id := inc data.maxShardGroupID
  startTime := (rpi.shardGroups.foldl (narrow t) (window t rpi.shardGroupDuration)).lo
  endTime := (rpi.shardGroups.foldl (narrow t) (window t rpi.shardGroupDuration)).hi
  deletedAt := zeroTime
  shards := data.newShards shards
  truncatedAt := zeroTime

variable (database policy : String)

def createShardGroup (t : Time) (shards : List ShardInfo) : Except String (Data S) :=
  match data.findPolicy database policy with
  | .error e => .error e
  | .ok rpi =>
    if (rpi.shardGroupByTimestamp t).isSome then .ok data
    else
      .ok { data.setPolicy database policy
              { rpi with
                shardGroups :=
                  insertionSort ShardGroupInfo.less (rpi.shardGroups ++ [data.newShardGroup rpi t shards]) } with
            maxShardGroupID := inc data.maxShardGroupID
            maxShardID :=
              if 0 < shards.length then shards.foldl (fun m s => max m s.id) data.maxShardID else inc data.maxShardID }

def deleteShardGroup (id : ℕ) (clock : Clock) : Except String (Data S) :=
  match data.findPolicy database policy with
  | .error e => .error e
  | .ok rpi =>
    match updateFirst (fun g => if g.id = id then some { g with deletedAt := clock.now } else none) rpi.shardGroups with
    | none => .error errShardGroupNotFound
    | some groups => .ok (data.setPolicy database policy { rpi with shardGroups := groups })

/-- Do the same to the groups of every policy of every database. -/
def mapGroups (f : List ShardGroupInfo → List ShardGroupInfo) (data : Data S) : Data S :=
  { data with
    databases := data.databases.map fun di =>
      { di with
        retentionPolicies := di.retentionPolicies.map fun rp => { rp with shardGroups := f rp.shardGroups } } }

def truncateShardGroups (t : Time) : Data S := data.mapGroups fun gs => gs.map (·.truncate t)

def keptByPrune (expiration : Time) (g : ShardGroupInfo) : Bool :=
  g.deletedAt.isZero || !decide (g.deletedAt < expiration) || decide (0 < g.shards.length)

def pruneShardGroups (expiration : Time) : Data S := data.mapGroups (·.filter (keptByPrune expiration))

def dropShard (id : ℕ) (clock : Clock) : Data S :=
  match updateFirst (fun di =>
      (updateFirst (fun rp =>
        (updateFirst (ShardGroupInfo.dropShard id clock) rp.shardGroups).map fun gs => { rp with shardGroups := gs })
        di.retentionPolicies).map fun rps => { di with retentionPolicies := rps }) data.databases with
  | none => data
  | some dbs => { data with databases := dbs }

/-- A change of a policy's shard group duration. -/
def setShardGroupDuration (d : Int) : Except String (Data S) :=
  match data.findPolicy database policy with
  | .error e => .error e
  | .ok rpi => .ok (data.setPolicy database policy { rpi with shardGroupDuration := d })

end Data

end Influxdb.Meta
