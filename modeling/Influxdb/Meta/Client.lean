import Influxdb.Lib.Slices
import Influxdb.Meta.Operations

/-!
# Client — the operations of the client on shared metadata

An operation of `Client` clones the metadata it serves, edits the clone and puts it in the place of the old metadata once
the store has it.  `Clone` copies every slice and every map but one: `RetentionPolicyInfo.clone` takes over the slice of the
subscriptions, so the clone's subscriptions live in the arrays of the metadata that is served.  Here everything that `Clone`
copies is a value, and the subscriptions are slice headers into a memory of arrays.
-/

namespace Influxdb.Meta

open Models (Time)

abbrev Metadata := Data SliceHeader

/-- What the operations take from the libraries. -/
structure Env where
  toLower : String → String
  /-- `url.Parse`: the scheme and the host. -/
  urlParse : String → Option (String × String)
  /-- `net.SplitHostPort` -/
  splitHostPort : String → Option (String × String)
  /-- `bcrypt.GenerateFromPassword` -/
  generate : String → Except String String
  /-- `bcrypt.CompareHashAndPassword` -/
  compare : String → String → Bool

def errInvalidSubscriptionURL (url : String) : String := "invalid subscription URL: " ++ url

def errSubscriptionExists : String := "subscription already exists"

def errSubscriptionNotFound : String := "subscription not found"

def errShardGroupExists : String := "shard group already exists"

def validateURL (env : Env) (input : String) : Except String Unit :=
  match env.urlParse input with
  | none => .error (errInvalidSubscriptionURL input)
  | some (scheme, host) =>
    if scheme ≠ "udp" ∧ scheme ≠ "http" ∧ scheme ≠ "https" then .error (errInvalidSubscriptionURL input)
    else
      match env.splitHostPort host with
      | none => .error (errInvalidSubscriptionURL input)
      | some (_, port) => if port = "" then .error (errInvalidSubscriptionURL input) else .ok ()

namespace Data

def createSubscription (env : Env) (data : Metadata) (mem : Memory SubscriptionInfo) (database rp name mode : String)
    (destinations : List String) : Except String (Metadata × Memory SubscriptionInfo) :=
  match destinations.forM (validateURL env) with
  | .error e => .error e
  | .ok _ =>
    match data.findPolicy database rp with
    | .error e => .error e
    | .ok rpi =>
      if (mem.items rpi.subscriptions).any fun s => s.name = name then .error errSubscriptionExists
      else
        .ok (data.setPolicy database rp
            { rpi with subscriptions := (mem.append rpi.subscriptions ⟨name, mode, destinations⟩).1 },
          (mem.append rpi.subscriptions ⟨name, mode, destinations⟩).2)

variable (data : Metadata)

def dropSubscription (mem : Memory SubscriptionInfo) (database rp name : String) :
    Except String (Metadata × Memory SubscriptionInfo) :=
  match data.findPolicy database rp with
  | .error e => .error e
  | .ok rpi =>
    match (mem.items rpi.subscriptions).findIdx? fun s => s.name = name with
    | none => .error errSubscriptionNotFound
    | some i =>
      .ok (data.setPolicy database rp { rpi with subscriptions := (mem.removeAt rpi.subscriptions i).1 },
        (mem.removeAt rpi.subscriptions i).2)

/-- `Data.ShardGroupByTimestamp`, for the callers that ignore its error. -/
def shardGroupByTimestamp (data : Metadata) (database policy : String) (t : Time) : Option ShardGroupInfo :=
  match data.findPolicy database policy with
  | .error _ => none
  | .ok rpi => rpi.shardGroupByTimestamp t

def createNewShardGroup (database policy : String) (t : Time) (shards : List ShardInfo) :
    Except String (Metadata × Option ShardGroupInfo) :=
  if (data.shardGroupByTimestamp database policy t).isSome then .error errShardGroupExists
  else
    match data.createShardGroup database policy t shards with
    | .error e => .error e
    | .ok data =>
      match data.retentionPolicy database policy with
      | .error e => .error e
      | .ok none => .error "retention policy deleted after shard group created"
      | .ok (some rpi) => .ok (data, rpi.shardGroupByTimestamp t)

variable (fromTime toTime : Time)

/-- One round of `PrecreateShardGroups`: policy `j` of database `i`.  The flag says that something has changed; there is no
result if the round reads the id of a group that is not there. -/
def precreateRound (i : ℕ) (acc : Metadata × Bool) (j : ℕ) : Option (Metadata × Bool) :=
  match acc.1.databases[i]? with
  | none => some acc
  | some di =>
    match di.retentionPolicies[j]? with
    | none => some acc
    | some rp =>
      match rp.shardGroups.getLast? with
      | none => some acc
      | some g =>
        if g.deleted = false ∧ g.endTime < toTime ∧ fromTime < g.endTime then
          if (acc.1.shardGroupByTimestamp di.name rp.name (add g.endTime 1)).isSome then some acc
          else
            match acc.1.createNewShardGroup di.name rp.name (add g.endTime 1) [] with
            | .error _ => some acc
            | .ok (_, none) => none
            | .ok (data, some _) => some (data, true)
        else some acc

/-- The rounds for the policies of database `i`. -/
def precreateDatabase (acc : Metadata × Bool) (i : ℕ) : Option (Metadata × Bool) :=
  match acc.1.databases[i]? with
  | none => some acc
  | some di => (List.range di.retentionPolicies.length).foldlM (precreateRound fromTime toTime i) acc

/-- The loop of `PrecreateShardGroups`. -/
def precreate : Option (Metadata × Bool) :=
  (List.range data.databases.length).foldlM (precreateDatabase fromTime toTime) (data, false)

/-- `CreateDatabaseWithRetentionPolicy`, from where the database is there: `di` is the database before the policy. -/
def withRetentionPolicy (di : DatabaseInfo SliceHeader) (name : String) (spec : RetentionPolicySpec) :
    Except String Metadata :=
  let rpi := spec.newRetentionPolicyInfo
  let created :=
    if di.retentionPolicies.isEmpty then data.createRetentionPolicy name rpi true
    else if spec.matches (di.retentionPolicy rpi.name) then .ok data
    else .error errRetentionPolicyConflict
  match created with
  | .error e => .error e
  | .ok data =>
    if (data.database name).map (·.defaultRetentionPolicy) = some rpi.name then .ok data
    else .error errRetentionPolicyConflict

/-- `CreateDatabaseWithRetentionPolicy`, up to the commit. -/
def createDatabaseWithRetentionPolicy (name : String) (spec : RetentionPolicySpec) : Except String Metadata :=
  if durationTooLow spec.duration then .error errRetentionPolicyDurationTooLow
  else
    match data.database name with
    | some di => data.withRetentionPolicy di name spec
    | none =>
      match data.createDatabase name with
      | .error e => .error e
      | .ok data => data.withRetentionPolicy ⟨name, "", [], []⟩ name spec

/-- `CreateDatabase` of the client, for a database that is not there, up to the commit. -/
def createNewDatabase (name : String) (autoCreate : Bool) : Except String Metadata :=
  match data.createDatabase name with
  | .error e => .error e
  | .ok data => if autoCreate then data.createRetentionPolicy name defaultRetentionPolicyInfo true else .ok data

/-- `CreateRetentionPolicy` of the client, up to the commit. -/
def createPolicyFromSpec (database : String) (spec : RetentionPolicySpec) (makeDefault : Bool) :
    Except String Metadata :=
  if durationTooLow spec.duration then .error errRetentionPolicyDurationTooLow
  else data.createRetentionPolicy database spec.newRetentionPolicyInfo makeDefault

end Data

/-! ## The client -/

/-- An operation that changes the metadata, with the times it reads from the clock. -/
inductive Operation where
  | createDatabase (name : String)
  | createDatabaseWithRetentionPolicy (name : String) (spec : RetentionPolicySpec)
  | dropDatabase (name : String)
  | createRetentionPolicy (database : String) (spec : RetentionPolicySpec) (makeDefault : Bool)
  | dropRetentionPolicy (database name : String)
  | updateRetentionPolicy (database name : String) (rpu : RetentionPolicyUpdate) (makeDefault : Bool)
  | createUser (name password : String) (admin : Bool)
  | updateUser (name password : String)
  | dropUser (name : String)
  | setPrivilege (username database : String) (p : Int)
  | setAdminPrivilege (username : String) (admin : Bool)
  | dropShard (id : ℕ) (clock : Clock)
  | truncateShardGroups (t : Time)
  | pruneShardGroups (now : Time)
  | createShardGroupWithShards (database policy : String) (t : Time) (shards : List ShardInfo)
  | deleteShardGroup (database policy : String) (id : ℕ) (clock : Clock)
  | precreateShardGroups (fromTime toTime : Time)
  | createContinuousQuery (database name query : String)
  | dropContinuousQuery (database name : String)
  | createSubscription (database rp name mode : String) (destinations : List String)
  | dropSubscription (database rp name : String)
  | setData (data : Metadata)

/-- What an operation returns beside its error. -/
inductive Reply where
  | done
  | database (di : Option (DatabaseInfo SliceHeader))
  | policy (rpi : RetentionPolicyInfo SliceHeader)
  | user (u : Option UserInfo)
  | group (g : Option ShardGroupInfo)

/-- How an operation ends: with an answer of its own, in a panic, or by committing the clone it has edited. -/
inductive Edit where
  | answers (reply : Except String Reply)
  | panics
  | commits (data : Metadata) (mem : Memory SubscriptionInfo) (reply : Reply)

/-- Commit an edited clone that has left the subscriptions alone. -/
def Edit.commit (mem : Memory SubscriptionInfo) (edited : Except String Metadata) (reply : Metadata → Reply) : Edit :=
  match edited with
  | .error e => .answers (.error e)
  | .ok data => .commits data mem (reply data)

/-- Commit an edited clone whose subscriptions may have changed. -/
def Edit.commitShared (edited : Except String (Metadata × Memory SubscriptionInfo)) : Edit :=
  match edited with
  | .error e => .answers (.error e)
  | .ok d => .commits d.1 d.2 .done

/-- The client, as far as the metadata goes: what it serves, the arrays of the subscriptions, and whether its lock is held. -/
structure SharedClient where
  cacheData : Metadata
  memory : Memory SubscriptionInfo
  retentionAutoCreate : Bool
  locked : Bool

inductive Answer where
  | returned (reply : Except String Reply)
  | panicked
  /-- The call waits for the lock. -/
  | blocked

namespace SharedClient

def shardGroupDeletedExpiration : Int := -2 * 7 * 24 * hour

/-- `PruneShardGroups` removes something. -/
def prunes (data : Metadata) (expiration : Time) : Bool :=
  data.databases.any fun di => di.retentionPolicies.any fun rp =>
    rp.shardGroups.any fun g => !Data.keptByPrune expiration g

/-- What an operation does to its clone of the metadata. -/
def edit (env : Env) (c : SharedClient) : Operation → Edit
  | .createDatabase name =>
    match c.cacheData.database name with
    | some di => .answers (.ok (.database (some di)))
    | none =>
      .commit c.memory (c.cacheData.createNewDatabase name c.retentionAutoCreate) fun d => .database (d.database name)
  | .createDatabaseWithRetentionPolicy name spec =>
    .commit c.memory (c.cacheData.createDatabaseWithRetentionPolicy name spec) fun d => .database (d.database name)
  | .dropDatabase name => .commits (c.cacheData.dropDatabase name) c.memory .done
  | .createRetentionPolicy database spec makeDefault =>
    .commit c.memory (c.cacheData.createPolicyFromSpec database spec makeDefault) fun _ =>
      .policy spec.newRetentionPolicyInfo
  | .dropRetentionPolicy database name => .commits (c.cacheData.dropRetentionPolicy database name) c.memory .done
  | .updateRetentionPolicy database name rpu makeDefault =>
    .commit c.memory (c.cacheData.updateRetentionPolicy database name rpu makeDefault) fun _ => .done
  | .createUser name password admin =>
    match c.cacheData.user name with
    | some u =>
      if !env.compare u.hash password || u.admin != admin then .answers (.error errUserExists)
      else .answers (.ok (.user (some u)))
    | none =>
      match env.generate password with
      | .error e => .answers (.error e)
      | .ok hash => .commit c.memory (c.cacheData.createUser name hash admin) fun d => .user (d.user name)
  | .updateUser name password =>
    match env.generate password with
    | .error e => .answers (.error e)
    | .ok hash => .commit c.memory (c.cacheData.updateUser name hash) fun _ => .done
  | .dropUser name => .commit c.memory (c.cacheData.dropUser name) fun _ => .done
  | .setPrivilege username database p => .commit c.memory (c.cacheData.setPrivilege username database p) fun _ => .done
  | .setAdminPrivilege username admin => .commit c.memory (c.cacheData.setAdminPrivilege username admin) fun _ => .done
  | .dropShard id clock => .commits (c.cacheData.dropShard id clock) c.memory .done
  | .truncateShardGroups t => .commits (c.cacheData.truncateShardGroups t) c.memory .done
  | .pruneShardGroups now =>
    if prunes c.cacheData (add now shardGroupDeletedExpiration) then
      .commits (c.cacheData.pruneShardGroups (add now shardGroupDeletedExpiration)) c.memory .done
    else .answers (.ok .done)
  | .createShardGroupWithShards database policy t shards =>
    match c.cacheData.shardGroupByTimestamp database policy t with
    | some g => .answers (.ok (.group (some g)))
    | none =>
      match c.cacheData.createNewShardGroup database policy t shards with
      | .error e => .answers (.error e)
      | .ok d => .commits d.1 c.memory (.group d.2)
  | .deleteShardGroup database policy id clock =>
    .commit c.memory (c.cacheData.deleteShardGroup database policy id clock) fun _ => .done
  | .precreateShardGroups fromTime toTime =>
    match c.cacheData.precreate fromTime toTime with
    | none => .panics
    | some acc => if acc.2 then .commits acc.1 c.memory .done else .answers (.ok .done)
  | .createContinuousQuery database name query =>
    .commit c.memory (c.cacheData.createContinuousQuery env.toLower database name query) fun _ => .done
  | .dropContinuousQuery database name => .commits (c.cacheData.dropContinuousQuery database name) c.memory .done
  | .createSubscription database rp name mode destinations =>
    .commitShared (c.cacheData.createSubscription env c.memory database rp name mode destinations)
  | .dropSubscription database rp name => .commitShared (c.cacheData.dropSubscription c.memory database rp name)
  | .setData data => .commits data c.memory .done

/-- `SetData` unlocks by hand, behind the return of a failed commit; the other operations defer it. -/
def unlocks : Operation → Bool
  | .setData _ => false
  | _ => true

/-- **A call of an operation**: `stored` is what the store answers if it is asked to keep the new metadata. -/
def call (env : Env) (c : SharedClient) (op : Operation) (stored : Except String Unit) : SharedClient × Answer :=
  if c.locked then (c, .blocked)
  else
    match c.edit env op with
    | .answers reply => (c, .returned reply)
    | .panics => (c, .panicked)
    | .commits data mem reply =>
      match stored with
      | .error e => ({ c with memory := mem, locked := !unlocks op }, .returned (.error e))
      | .ok _ =>
        ({ c with cacheData := { data with index := Data.inc data.index }, memory := mem }, .returned (.ok reply))

end SharedClient

end Influxdb.Meta
