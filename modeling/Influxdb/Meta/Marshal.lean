import Influxdb.Meta.ShardGroupRun

/-!
# Marshal — the metadata in protobuf

`Data.marshal` and `Data.unmarshal` of `services/meta/data.go`, message by message.  Instants go through 64-bit nanoseconds
in which zero also stands for an instant that is not set; what survives is characterised for every value
(`unmarshal_marshal_iff`).  Protobuf is an exact codec of the messages, and a map is walked in any order.
-/

namespace Influxdb.Meta

open List Assoc ShardGroupInfo Models

open Models (Time)

variable {t : Time}

/-! ## Instants and numbers -/

def marshalTime (t : Time) : Int := if t.isZero then 0 else t.unixNano

def unmarshalTime (v : Int) : Time := if v = 0 then zeroTime else Time.ofUnixNano v

/-- How the start and the end of a group are read. -/
def unmarshalBound (v : Int) : Time := if v = 0 then Time.ofUnixNano 0 else unmarshalTime v

def uint32 (n : Int) : ℕ := (n % 2 ^ 32).toNat

def int32 (n : Int) : Int := (BitVec.ofInt 32 n).toInt

/-- The instant is within 64-bit nanoseconds of the epoch. -/
def InInt64 (t : Time) : Prop := -2 ^ 63 ≤ t.nanos - Models.unixEpoch ∧ t.nanos - Models.unixEpoch < 2 ^ 63

theorem unixNano_bounds (t : Time) : -2 ^ 63 ≤ t.unixNano ∧ t.unixNano < 2 ^ 63 :=
  ⟨BitVec.le_toInt _, BitVec.toInt_lt⟩

theorem unixNano_of_inInt64 (h : InInt64 t) : t.unixNano = t.nanos - unixEpoch := by
  obtain ⟨hlo, hhi⟩ := h
  rw [Time.unixNano, BitVec.toInt_ofInt, Int.bmod_eq_of_le] <;> omega

theorem inInt64_ofUnixNano {v : Int} (hlo : -2 ^ 63 ≤ v) (hhi : v < 2 ^ 63) : InInt64 (Time.ofUnixNano v) := by
  show -2 ^ 63 ≤ v + unixEpoch - unixEpoch ∧ v + unixEpoch - unixEpoch < 2 ^ 63
  omega

theorem not_isZero_of_inInt64 (h : InInt64 t) : t.isZero = false := by
  obtain ⟨hlo, -⟩ := h
  rw [unixEpoch] at hlo
  refine beq_false_of_ne fun h0 => ?_
  omega

theorem ofUnixNano_unixNano_iff : Time.ofUnixNano t.unixNano = t ↔ InInt64 t := by
  constructor
  · intro h
    rw [← h]
    exact inInt64_ofUnixNano (unixNano_bounds t).1 (unixNano_bounds t).2
  · intro h
    rw [unixNano_of_inInt64 h, Time.ofUnixNano, Int.sub_add_cancel]

/-- **A bound of a group** survives if it is within 64 bits. -/
theorem unmarshalBound_marshalTime_iff : unmarshalBound (marshalTime t) = t ↔ InInt64 t := by
  rw [marshalTime]
  split_ifs with hz
  · have hout : ¬InInt64 t := fun h => by simp [not_isZero_of_inInt64 h] at hz
    refine iff_of_false (fun h => hout ?_) hout
    rw [← h]
    exact inInt64_ofUnixNano (by decide) (by decide)
  · rw [← ofUnixNano_unixNano_iff, unmarshalBound, unmarshalTime]
    split_ifs with hv
    · rw [hv]
    · rfl

/-- An instant that may be left unset survives if it is unset, or within 64 bits and not the epoch. -/
def Kept (t : Time) : Prop := t.isZero = true ∨ InInt64 t ∧ t ≠ Time.ofUnixNano 0

theorem unmarshalTime_marshalTime_iff : unmarshalTime (marshalTime t) = t ↔ Kept t := by
  rw [marshalTime, Kept]
  split_ifs with hz
  · refine iff_of_true ?_ (.inl hz)
    cases t
    exact congrArg Time.mk (eq_of_beq hz).symm
  · rw [unmarshalTime, ← ofUnixNano_unixNano_iff]
    split_ifs with hv
    · rw [hv]
      refine iff_of_false (fun h => hz ?_) ?_
      · rw [← h]
        rfl
      · rintro (h | ⟨h, hne⟩)
        · exact hz h
        · exact hne h.symm
    · constructor
      · intro h
        refine .inr ⟨h, fun h0 => hv ?_⟩
        rw [h0]
        rfl
      · rintro (h | ⟨h, -⟩)
        · exact absurd h hz
        · exact h

theorem uint32_eq_iff {n : Int} : (uint32 n : Int) = n ↔ 0 ≤ n ∧ n < 2 ^ 32 := by
  rw [uint32]
  omega

theorem int32_eq_iff {n : Int} : int32 n = n ↔ -2 ^ 31 ≤ n ∧ n < 2 ^ 31 := by
  constructor
  · intro h
    rw [← h]
    exact ⟨BitVec.le_toInt _, BitVec.toInt_lt⟩
  · rintro ⟨hlo, hhi⟩
    rw [int32, BitVec.toInt_ofInt, Int.bmod_eq_of_le] <;> omega

/-! ## The messages -/

namespace Pb

structure ShardOwner where
  nodeID : ℕ

structure ShardInfo where
  id : ℕ
  ownerIDs : List ℕ
  owners : List ShardOwner

structure ShardGroupInfo where
  id : ℕ
  startTime : Int
  endTime : Int
  deletedAt : Int
  shards : List ShardInfo
  truncatedAt : Option Int

structure SubscriptionInfo where
  name : String
  mode : String
  destinations : List String

structure RetentionPolicyInfo where
  name : String
  duration : Int
  shardGroupDuration : Int
  replicaN : ℕ
  shardGroups : List ShardGroupInfo
  subscriptions : List SubscriptionInfo

structure ContinuousQueryInfo where
  name : String
  query : String

structure DatabaseInfo where
  name : String
  defaultRetentionPolicy : String
  retentionPolicies : List RetentionPolicyInfo
  continuousQueries : List ContinuousQueryInfo

structure UserPrivilege where
  database : String
  privilege : Int

structure UserInfo where
  name : String
  hash : String
  admin : Bool
  privileges : List UserPrivilege

structure Data where
  term : ℕ
  index : ℕ
  clusterID : ℕ
  databases : List DatabaseInfo
  users : List UserInfo
  maxNodeID : ℕ
  maxShardGroupID : ℕ
  maxShardID : ℕ

end Pb

/-! ## `marshal` and `unmarshal` -/

/-- An order in which `range` walks over a map. -/
structure MapOrder where
  walk : List (String × Int) → List (String × Int)
  perm : ∀ l, (walk l).Perm l

def ShardOwner.marshal (so : ShardOwner) : Pb.ShardOwner := ⟨so.nodeID⟩

def ShardOwner.unmarshal (pb : Pb.ShardOwner) : ShardOwner := ⟨pb.nodeID⟩

def ShardInfo.marshal (si : ShardInfo) : Pb.ShardInfo := ⟨si.id, [], si.owners.map ShardOwner.marshal⟩

def ShardInfo.unmarshal (pb : Pb.ShardInfo) : ShardInfo where
  id := pb.id
  owners :=
    if 0 < pb.ownerIDs.length then pb.ownerIDs.map fun x => ShardOwner.unmarshal ⟨x⟩
    else pb.owners.map ShardOwner.unmarshal

def ShardGroupInfo.marshal (sgi : ShardGroupInfo) : Pb.ShardGroupInfo where
  id := sgi.id
  startTime := marshalTime sgi.startTime
  endTime := marshalTime sgi.endTime
  deletedAt := marshalTime sgi.deletedAt
  shards := sgi.shards.map ShardInfo.marshal
  truncatedAt := if sgi.truncatedAt.isZero then none else some (marshalTime sgi.truncatedAt)

def ShardGroupInfo.unmarshal (pb : Pb.ShardGroupInfo) : ShardGroupInfo where
  id := pb.id
  startTime := unmarshalBound pb.startTime
  endTime := unmarshalBound pb.endTime
  deletedAt := unmarshalTime pb.deletedAt
  shards := pb.shards.map ShardInfo.unmarshal
  truncatedAt := (pb.truncatedAt.map unmarshalTime).getD zeroTime

def SubscriptionInfo.marshal (si : SubscriptionInfo) : Pb.SubscriptionInfo := ⟨si.name, si.mode, si.destinations⟩

def SubscriptionInfo.unmarshal (pb : Pb.SubscriptionInfo) : SubscriptionInfo := ⟨pb.name, pb.mode, pb.destinations⟩

def RetentionPolicyInfo.marshal (rpi : RetentionPolicyInfo) : Pb.RetentionPolicyInfo where
  name := rpi.name
  duration := rpi.duration
  shardGroupDuration := rpi.shardGroupDuration
  replicaN := uint32 rpi.replicaN
  shardGroups := rpi.shardGroups.map ShardGroupInfo.marshal
  subscriptions := rpi.subscriptions.map SubscriptionInfo.marshal

def RetentionPolicyInfo.unmarshal (pb : Pb.RetentionPolicyInfo) : RetentionPolicyInfo where
  name := pb.name
  replicaN := pb.replicaN
  duration := pb.duration
  shardGroupDuration := pb.shardGroupDuration
  shardGroups := pb.shardGroups.map ShardGroupInfo.unmarshal
  subscriptions := pb.subscriptions.map SubscriptionInfo.unmarshal

def ContinuousQueryInfo.marshal (cqi : ContinuousQueryInfo) : Pb.ContinuousQueryInfo := ⟨cqi.name, cqi.query⟩

def ContinuousQueryInfo.unmarshal (pb : Pb.ContinuousQueryInfo) : ContinuousQueryInfo := ⟨pb.name, pb.query⟩

def DatabaseInfo.marshal (di : DatabaseInfo) : Pb.DatabaseInfo where
  name := di.name
  defaultRetentionPolicy := di.defaultRetentionPolicy
  retentionPolicies := di.retentionPolicies.map RetentionPolicyInfo.marshal
  continuousQueries := di.continuousQueries.map ContinuousQueryInfo.marshal

def DatabaseInfo.unmarshal (pb : Pb.DatabaseInfo) : DatabaseInfo where
  name := pb.name
  defaultRetentionPolicy := pb.defaultRetentionPolicy
  retentionPolicies := pb.retentionPolicies.map RetentionPolicyInfo.unmarshal
  continuousQueries := pb.continuousQueries.map ContinuousQueryInfo.unmarshal

def Privileges.put (m : Privileges) (database : String) (p : Int) : Privileges :=
  ⟨Assoc.put database p m.entries, Assoc.nodup_put m.nodup database p⟩

variable (order : MapOrder)

def UserInfo.marshal (ui : UserInfo) : Pb.UserInfo where
  name := ui.name
  hash := ui.hash
  admin := ui.admin
  privileges := (order.walk ui.privileges.entries).map fun e => ⟨e.1, int32 e.2⟩

def UserInfo.unmarshal (pb : Pb.UserInfo) : UserInfo where
  name := pb.name
  hash := pb.hash
  admin := pb.admin
  privileges := pb.privileges.foldl (fun m p => m.put p.database p.privilege) ⟨[], nodup_nil⟩

def hasAdminUser (users : List UserInfo) : Bool := users.any (·.admin)

namespace Data

def marshal (order : MapOrder) (data : Data) : Pb.Data where
  term := data.term
  index := data.index
  clusterID := data.clusterID
  databases := data.databases.map DatabaseInfo.marshal
  users := data.users.map (UserInfo.marshal order)
  maxNodeID := 0
  maxShardGroupID := data.maxShardGroupID
  maxShardID := data.maxShardID

def unmarshal (pb : Pb.Data) : Data where
  term := pb.term
  index := pb.index
  clusterID := pb.clusterID
  databases := pb.databases.map DatabaseInfo.unmarshal
  users := pb.users.map UserInfo.unmarshal
  adminUserExists := hasAdminUser (pb.users.map UserInfo.unmarshal)
  maxShardGroupID := pb.maxShardGroupID
  maxShardID := pb.maxShardID

end Data

/-- Protobuf: what is written can be read, and nothing is lost. -/
structure Codec (W : Type) where
  encode : Pb.Data → W
  decode : W → Option Pb.Data
  exact : ∀ pb, decode (encode pb) = some pb

def marshalBinary {W : Type} (codec : Codec W) (order : MapOrder) (data : Data) : W := codec.encode (data.marshal order)

def unmarshalBinary {W : Type} (codec : Codec W) (buf : W) : Option Data := (codec.decode buf).map Data.unmarshal

/-! ## What survives -/

/-- The same user; the privileges agree as maps. -/
structure SameUser (u u' : UserInfo) : Prop where
  name : u'.name = u.name
  hash : u'.hash = u.hash
  admin : u'.admin = u.admin
  privileges : ∀ database, get database u'.privileges.entries = get database u.privileges.entries

/-- **The same metadata**: the same databases with all that is in them, the same users, and the same counters. -/
structure SameData (data data' : Data) : Prop where
  term : data'.term = data.term
  index : data'.index = data.index
  clusterID : data'.clusterID = data.clusterID
  databases : data'.databases = data.databases
  users : Forall₂ SameUser data.users data'.users
  maxShardGroupID : data'.maxShardGroupID = data.maxShardGroupID
  maxShardID : data'.maxShardID = data.maxShardID

/-- The instants of a group that the format can hold. -/
structure ShardGroupInfo.Storable (g : ShardGroupInfo) : Prop where
  startTime : InInt64 g.startTime
  endTime : InInt64 g.endTime
  deletedAt : Kept g.deletedAt
  truncatedAt : Kept g.truncatedAt

structure RetentionPolicyInfo.Storable (rpi : RetentionPolicyInfo) : Prop where
  replicaN : 0 ≤ rpi.replicaN ∧ rpi.replicaN < 2 ^ 32
  shardGroups : ∀ g ∈ rpi.shardGroups, g.Storable

/-- **What the format can hold.** -/
structure Data.Storable (data : Data) : Prop where
  policies : ∀ di ∈ data.databases, ∀ rpi ∈ di.retentionPolicies, rpi.Storable
  privileges : ∀ u ∈ data.users, ∀ e ∈ u.privileges.entries, -2 ^ 31 ≤ e.2 ∧ e.2 < 2 ^ 31

theorem map_map_eq_self_iff {α β : Type} {f : α → β} {g : β → α} {P : α → Prop} (h : ∀ a, g (f a) = a ↔ P a) (l : List α) :
    (l.map f).map g = l ↔ ∀ a ∈ l, P a := by
  induction l with
  | nil => simp
  | cons a l ih => rw [map_cons, map_cons, cons.injEq, ih, forall_mem_cons, h]

theorem shardInfo_unmarshal_marshal (si : ShardInfo) : ShardInfo.unmarshal si.marshal = si := by
  cases si
  exact congrArg (ShardInfo.mk _) (Function.LeftInverse.list_map (fun _ => rfl) _)

theorem truncatedAt_unmarshal_marshal (t : Time) :
    (((if t.isZero then none else some (marshalTime t) : Option Int)).map unmarshalTime).getD zeroTime =
      unmarshalTime (marshalTime t) := by
  cases hz : t.isZero with
  | true => simp [marshalTime, hz, unmarshalTime]
  | false => simp

theorem shardGroup_unmarshal_marshal_iff (g : ShardGroupInfo) : unmarshal g.marshal = g ↔ g.Storable := by
  have hshards : (g.shards.map ShardInfo.marshal).map ShardInfo.unmarshal = g.shards :=
    Function.LeftInverse.list_map shardInfo_unmarshal_marshal _
  cases g
  simp only [unmarshal, marshal, ShardGroupInfo.mk.injEq, hshards, truncatedAt_unmarshal_marshal,
    unmarshalBound_marshalTime_iff, unmarshalTime_marshalTime_iff, true_and]
  exact ⟨fun h => ⟨h.1, h.2.1, h.2.2.1, h.2.2.2⟩, fun h => ⟨h.startTime, h.endTime, h.deletedAt, h.truncatedAt⟩⟩

theorem policy_unmarshal_marshal_iff (rpi : RetentionPolicyInfo) :
    RetentionPolicyInfo.unmarshal rpi.marshal = rpi ↔ rpi.Storable := by
  have hsubs : (rpi.subscriptions.map SubscriptionInfo.marshal).map SubscriptionInfo.unmarshal = rpi.subscriptions :=
    Function.LeftInverse.list_map (fun _ => rfl) _
  cases rpi
  simp only [RetentionPolicyInfo.unmarshal, RetentionPolicyInfo.marshal, RetentionPolicyInfo.mk.injEq, hsubs,
    uint32_eq_iff, map_map_eq_self_iff shardGroup_unmarshal_marshal_iff, true_and, and_true]
  exact ⟨fun h => ⟨h.1, h.2⟩, fun h => ⟨h.replicaN, h.shardGroups⟩⟩

theorem database_unmarshal_marshal_iff (di : DatabaseInfo) :
    DatabaseInfo.unmarshal di.marshal = di ↔ ∀ rpi ∈ di.retentionPolicies, rpi.Storable := by
  have hqueries : (di.continuousQueries.map ContinuousQueryInfo.marshal).map ContinuousQueryInfo.unmarshal =
      di.continuousQueries := Function.LeftInverse.list_map (fun _ => rfl) _
  cases di
  simp only [DatabaseInfo.unmarshal, DatabaseInfo.marshal, DatabaseInfo.mk.injEq, hqueries,
    map_map_eq_self_iff policy_unmarshal_marshal_iff, true_and, and_true]

theorem get_mapValues_walk (f : Int → Int) (m : Privileges) (database : String) :
    get database (((order.walk m.entries).map fun e => (e.1, f e.2)).foldl
      (fun m p => put p.1 p.2 m) []) = (get database m.entries).map f := by
  have hperm := order.perm m.entries
  have hkeys : (((order.walk m.entries).map fun e => (e.1, f e.2)).map Prod.fst).Nodup := by
    rw [map_map]
    exact (hperm.map Prod.fst).nodup_iff.mpr m.nodup
  have hwalk : get database ((order.walk m.entries).map fun e => (e.1, f e.2)) =
      (get database (order.walk m.entries)).map f := get_mapValues f _ database
  rw [get_foldl_put hkeys, hwalk, get_eq_of_perm m.nodup hperm]
  simp

theorem entries_foldl_put (ps : List Pb.UserPrivilege) (m : Privileges) :
    (ps.foldl (fun m p => m.put p.database p.privilege) m).entries =
      (ps.map fun p => (p.database, p.privilege)).foldl (fun m p => Assoc.put p.1 p.2 m) m.entries := by
  induction ps generalizing m with
  | nil => rfl
  | cons p ps ih => exact ih (m.put p.database p.privilege)

theorem user_unmarshal_marshal_iff (u : UserInfo) :
    SameUser u (UserInfo.unmarshal (u.marshal order)) ↔ ∀ e ∈ u.privileges.entries, -2 ^ 31 ≤ e.2 ∧ e.2 < 2 ^ 31 := by
  have hget : ∀ database, get database (UserInfo.unmarshal (u.marshal order)).privileges.entries =
      (get database u.privileges.entries).map int32 := by
    intro database
    rw [← get_mapValues_walk order int32 u.privileges database]
    rw [UserInfo.unmarshal, UserInfo.marshal]
    simp only [entries_foldl_put, map_map, Function.comp_def]
  constructor
  · intro h e he
    have hsome : get e.1 u.privileges.entries = some e.2 := (get_eq_some_iff u.privileges.nodup).mpr he
    have hsame := h.privileges e.1
    rw [hget, hsome] at hsame
    exact int32_eq_iff.mp (Option.some.inj hsame)
  · intro h
    refine ⟨rfl, rfl, rfl, fun database => ?_⟩
    rw [hget]
    cases hd : get database u.privileges.entries with
    | none => rfl
    | some p =>
      have hrange := h (database, p) (mem_of_get hd)
      exact congrArg some (int32_eq_iff.mpr hrange)

/-- **Metadata survives a restart** exactly if the format can hold them: whatever order the maps are walked in and however
protobuf writes the messages. -/
theorem unmarshal_marshal_iff {W : Type} (codec : Codec W) (order : MapOrder) (data : Data) :
    (∃ data', unmarshalBinary codec (marshalBinary codec order data) = some data' ∧ SameData data data') ↔
      data.Storable := by
  have hback : unmarshalBinary codec (marshalBinary codec order data) = some (Data.unmarshal (data.marshal order)) := by
    rw [unmarshalBinary, marshalBinary, codec.exact]
    rfl
  have hdbs := map_map_eq_self_iff database_unmarshal_marshal_iff data.databases
  have husers : Forall₂ SameUser data.users
      ((data.users.map (UserInfo.marshal order)).map UserInfo.unmarshal) ↔
      ∀ u ∈ data.users, ∀ e ∈ u.privileges.entries, -2 ^ 31 ≤ e.2 ∧ e.2 < 2 ^ 31 := by
    rw [map_map, forall₂_map_right_iff, forall₂_same]
    exact forall₂_congr fun u _ => user_unmarshal_marshal_iff order u
  constructor
  · rintro ⟨data', hdata', hsame⟩
    obtain rfl := Option.some.inj (hback.symm.trans hdata')
    exact ⟨hdbs.mp hsame.databases, husers.mp hsame.users⟩
  · intro h
    exact ⟨_, hback, rfl, rfl, rfl, hdbs.mpr h.policies, husers.mpr h.privileges, rfl, rfl⟩

theorem inRange_five : InRange (Time.ofUnixNano 5) := by decide

/-- A group is made around the epoch and truncated there. -/
def truncatedAtEpoch : Data :=
  runGroupOps "db" "rp" hourly
    [.createShardGroup ⟨Time.ofUnixNano 5, inRange_five⟩, .truncateShardGroups (Time.ofUnixNano 0)]

/-- The messages themselves, walked in the order they are listed. -/
def plainCodec : Codec Pb.Data := ⟨id, some, fun _ => rfl⟩

def listed : MapOrder := ⟨id, fun _ => Perm.refl _⟩

/-- The truncation of a group at the epoch is lost: the group comes back as one that takes writes. -/
theorem truncation_at_epoch_is_lost :
    ∃ data' rpi rpi', unmarshalBinary plainCodec (marshalBinary plainCodec listed truncatedAtEpoch) = some data' ∧
      truncatedAtEpoch.findPolicy "db" "rp" = .ok rpi ∧ data'.findPolicy "db" "rp" = .ok rpi' ∧
      rpi.shardGroups.map ShardGroupInfo.truncated = [true] ∧ rpi'.shardGroups.map ShardGroupInfo.truncated = [false] :=
  ⟨_, _, _, rfl, rfl, rfl, by decide +kernel, by decide +kernel⟩

end Influxdb.Meta
