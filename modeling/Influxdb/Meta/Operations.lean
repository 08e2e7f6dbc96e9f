import Influxdb.Meta.Data

/-!
# Operations — databases, policies, continuous queries and users

The operations of `Data` that are not about shard groups.  Each answers an error or the changed metadata.  What a policy
holds for its subscriptions is left open; a new policy starts with the default of that type.
-/

namespace Influxdb.Meta

/-! ## Errors -/

def errDatabaseNameRequired : String := "database name required"

def errNameTooLong : String := "name too long"

def errRetentionPolicyNameRequired : String := "retention policy name required"

def errReplicationFactorTooLow : String := "replication factor must be greater than 0"

def errIncompatibleDurations : String := "retention policy duration must be greater than the shard duration"

def errRetentionPolicyExists : String := "retention policy already exists"

def errRetentionPolicyConflict : String := "retention policy conflicts with an existing policy"

def errRetentionPolicyNameExists : String := "retention policy name already exists"

def errRetentionPolicyDurationTooLow : String := "retention policy duration must be at least 1h0m0s"

def errContinuousQueryExists : String := "continuous query already exists"

def errUsernameRequired : String := "username required"

def errUserExists : String := "user already exists"

def errUserNotFound : String := "user not found"

def errAuthenticate : String := "authentication failed"

/-! ## Durations and specifications of policies -/

def hour : Int := 3600 * 10 ^ 9

def minRetentionPolicyDuration : Int := hour

def maxNameLen : ℕ := 255

def shardGroupDuration (d : Int) : Int :=
  if 180 * 24 * hour ≤ d ∨ d = 0 then 7 * 24 * hour else if 2 * 24 * hour ≤ d then 1 * 24 * hour else 1 * hour

def normalisedShardDuration (sgd d : Int) : Int :=
  if sgd = 0 then shardGroupDuration d
  else if sgd < minRetentionPolicyDuration then shardGroupDuration minRetentionPolicyDuration
  else sgd

structure RetentionPolicySpec where
  name : String
  replicaN : Option Int
  duration : Option Int
  shardGroupDuration : Int
deriving DecidableEq

structure RetentionPolicyUpdate where
  name : Option String
  duration : Option Int
  replicaN : Option Int
  shardGroupDuration : Option Int
deriving DecidableEq

section Policies

variable {S : Type} [Inhabited S]

def defaultRetentionPolicyInfo : RetentionPolicyInfo S := ⟨"autogen", 1, 0, 0, [], default⟩

def RetentionPolicyInfo.apply (rpi : RetentionPolicyInfo S) (spec : RetentionPolicySpec) : RetentionPolicyInfo S where
  name := if spec.name ≠ "" then spec.name else rpi.name
  replicaN := spec.replicaN.getD rpi.replicaN
  duration := spec.duration.getD rpi.duration
  shardGroupDuration := normalisedShardDuration spec.shardGroupDuration (spec.duration.getD rpi.duration)
  shardGroups := []
  subscriptions := default

def RetentionPolicySpec.newRetentionPolicyInfo (spec : RetentionPolicySpec) : RetentionPolicyInfo S :=
  defaultRetentionPolicyInfo.apply spec

def RetentionPolicySpec.matches (spec : RetentionPolicySpec) : Option (RetentionPolicyInfo S) → Bool
  | none => false
  | some rpi =>
    if spec.name ≠ "" ∧ spec.name ≠ rpi.name then false
    else if spec.duration.any (· ≠ rpi.duration) then false
    else if spec.replicaN.any (· ≠ rpi.replicaN) then false
    else normalisedShardDuration spec.shardGroupDuration rpi.duration = rpi.shardGroupDuration

end Policies

/-- The check of `Client` on the duration of a specification or an update. -/
def durationTooLow (duration : Option Int) : Bool :=
  duration.any fun d => d < minRetentionPolicyDuration ∧ d ≠ 0

namespace Data

variable {S : Type}

/-! ## Databases -/

variable (data : Data S)

variable (name : String)

/-- Write to the database that `Database` points at. -/
def setDatabase (di : DatabaseInfo S) : Data S :=
  { data with databases := replaceFirst (fun di => di.name = name) di data.databases }

def createDatabase : Except String (Data S) :=
  if name = "" then .error errDatabaseNameRequired
  else if maxNameLen < name.utf8ByteSize then .error errNameTooLong
  else if (data.database name).isSome then .ok data
  else .ok { data with databases := data.databases ++ [⟨name, "", [], []⟩] }

/-- A user without the privileges on a database. -/
def dropPrivilege (u : UserInfo) : UserInfo :=
  { u with
    privileges :=
      ⟨Assoc.erase name u.privileges.entries, u.privileges.nodup.sublist (List.filter_sublist.map Prod.fst)⟩ }

def dropDatabase : Data S :=
  if (data.database name).isSome then
    { data with
      databases := data.databases.eraseP fun di => di.name = name
      users := data.users.map (dropPrivilege name) }
  else data

/-! ## Retention policies -/

def createRetentionPolicy (database : String) (rpi : RetentionPolicyInfo S) (makeDefault : Bool) :
    Except String (Data S) :=
  if rpi.name = "" then .error errRetentionPolicyNameRequired
  else if maxNameLen < rpi.name.utf8ByteSize then .error errNameTooLong
  else if rpi.replicaN < 1 then .error errReplicationFactorTooLow
  else
    let rpi := { rpi with shardGroupDuration := normalisedShardDuration rpi.shardGroupDuration rpi.duration }
    if 0 < rpi.duration ∧ rpi.duration < rpi.shardGroupDuration then .error errIncompatibleDurations
    else
      match data.database database with
      | none => .error (errDatabaseNotFound database)
      | some di =>
        match di.retentionPolicy rpi.name with
        | some rp =>
          if rp.replicaN ≠ rpi.replicaN ∨ rp.duration ≠ rpi.duration ∨
              rp.shardGroupDuration ≠ rpi.shardGroupDuration then .error errRetentionPolicyExists
          else if makeDefault ∧ di.defaultRetentionPolicy ≠ rpi.name then .error errRetentionPolicyConflict
          else .ok data
        | none =>
          .ok (data.setDatabase database { di with
              retentionPolicies := di.retentionPolicies ++ [rpi]
              defaultRetentionPolicy := if makeDefault then rpi.name else di.defaultRetentionPolicy })

def dropRetentionPolicy (database name : String) : Data S :=
  match data.database database with
  | none => data
  | some di =>
    data.setDatabase database { di with retentionPolicies := di.retentionPolicies.eraseP fun rp => rp.name = name }

/-- The check of `UpdateRetentionPolicy` that a policy is kept for as long as its shards last. -/
def incompatible (rpi : RetentionPolicyInfo S) (rpu : RetentionPolicyUpdate) : Bool :=
  match rpu.duration, rpu.shardGroupDuration with
  | some d, some sgd => 0 < d ∧ d < sgd
  | some d, none => 0 < d ∧ d < rpi.shardGroupDuration
  | none, some sgd => 0 < rpi.duration ∧ rpi.duration < sgd
  | none, none => false

/-- The new fields of `UpdateRetentionPolicy`. -/
def updated (rpi : RetentionPolicyInfo S) (rpu : RetentionPolicyUpdate) : RetentionPolicyInfo S :=
  { rpi with
    name := rpu.name.getD rpi.name
    duration := rpu.duration.getD rpi.duration
    replicaN := rpu.replicaN.getD rpi.replicaN
    shardGroupDuration :=
      match rpu.shardGroupDuration with
      | some sgd => normalisedShardDuration sgd (rpu.duration.getD rpi.duration)
      | none => rpi.shardGroupDuration }

def updateRetentionPolicy (database name : String) (rpu : RetentionPolicyUpdate) (makeDefault : Bool) :
    Except String (Data S) :=
  match data.database database with
  | none => .error (errDatabaseNotFound database)
  | some di =>
    match di.retentionPolicy name with
    | none => .error (errRetentionPolicyNotFound name)
    | some rpi =>
      if rpu.name.any fun n => n ≠ name ∧ (di.retentionPolicy n).isSome then .error errRetentionPolicyNameExists
      else if durationTooLow rpu.duration then .error errRetentionPolicyDurationTooLow
      else if incompatible rpi rpu then .error errIncompatibleDurations
      else
        .ok (data.setDatabase database { di with
            retentionPolicies :=
              replaceFirst (fun rp => rp.name = di.policyName name) (updated rpi rpu) di.retentionPolicies
            defaultRetentionPolicy :=
              if makeDefault then (updated rpi rpu).name else di.defaultRetentionPolicy })

/-! ## Continuous queries -/

/-- `CreateContinuousQuery`, where `toLower` is `strings.ToLower`. -/
def createContinuousQuery (toLower : String → String) (data : Data S) (database name query : String) :
    Except String (Data S) :=
  match data.database database with
  | none => .error (errDatabaseNotFound database)
  | some di =>
    match di.continuousQueries.find? fun cq => cq.name = name with
    | some cq => if toLower cq.query = toLower query then .ok data else .error errContinuousQueryExists
    | none =>
      .ok (data.setDatabase database { di with continuousQueries := di.continuousQueries ++ [⟨name, query⟩] })

def dropContinuousQuery (database name : String) : Data S :=
  match data.database database with
  | none => data
  | some di =>
    data.setDatabase database { di with continuousQueries := di.continuousQueries.eraseP fun cq => cq.name = name }

/-! ## Users -/

def user : Option UserInfo := data.users.find? fun u => u.name = name

def createUser (name hash : String) (admin : Bool) : Except String (Data S) :=
  if name = "" then .error errUsernameRequired
  else if (data.user name).isSome then .error errUserExists
  else
    .ok { data with
      users := data.users ++ [⟨name, hash, admin, ⟨[], List.nodup_nil⟩⟩]
      adminUserExists := admin || data.adminUserExists }

def updateUser (name hash : String) : Except String (Data S) :=
  match updateFirst (fun u => if u.name = name then some { u with hash := hash } else none) data.users with
  | none => .error errUserNotFound
  | some users => .ok { data with users := users }

/-- The users without the first one of a name. -/
def removeUser (users : List UserInfo) : List UserInfo := users.eraseP fun u => u.name = name

def dropUser : Except String (Data S) :=
  match data.user name with
  | none => .error errUserNotFound
  | some u =>
    .ok { data with
      users := removeUser name data.users
      adminUserExists :=
        if u.admin then (removeUser name data.users).any (·.admin) else data.adminUserExists }

def putPrivilege (database : String) (p : Int) (ps : Privileges) : Privileges :=
  ⟨Assoc.put database p ps.entries, Assoc.nodup_put ps.nodup database p⟩

def setPrivilege (name database : String) (p : Int) : Except String (Data S) :=
  match data.user name with
  | none => .error errUserNotFound
  | some u =>
    if (data.database database).isNone then .error (errDatabaseNotFound database)
    else
      .ok { data with
        users := replaceFirst (fun u => u.name = name) { u with privileges := putPrivilege database p u.privileges }
          data.users }

def setAdminPrivilege (admin : Bool) : Except String (Data S) :=
  match data.user name with
  | none => .error errUserNotFound
  | some u =>
    let users := replaceFirst (fun u => u.name = name) { u with admin := admin } data.users
    .ok { data with users := users, adminUserExists := users.any (·.admin) }

end Data

end Influxdb.Meta
