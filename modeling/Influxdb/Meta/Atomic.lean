import Influxdb.Lib.Except
import Influxdb.Meta.Client

/-!
# Atomic — what a failed update leaves behind

Every operation edits a clone, so a failed update can show only through what the clone shares with the served metadata: the
arrays of the subscriptions.  An append writes behind every slice that is served; a removal moves served elements.  The
invariant is that different policies never share an array (`Sound`), and every call keeps it (`Sound.call`).
-/

namespace Influxdb.Meta

open List Data Except Memory
open Option (some)
open Sublist (refl)

open Models (Time)

variable {mem : Memory SubscriptionInfo} {rpi : RetentionPolicyInfo SliceHeader}
variable {edited : Except String Metadata} {shards : List ShardInfo} {i : ℕ} {acc : Metadata × Bool}
  {spec : RetentionPolicySpec} {m : Memory SubscriptionInfo}

/-! ## The arrays that metadata uses -/

/-- The slice headers of a database that are not nil. -/
def DatabaseInfo.used (di : DatabaseInfo SliceHeader) : List SliceHeader :=
  (di.retentionPolicies.map (·.subscriptions)).filter (· ≠ default)

namespace Data

variable {data data' : Metadata} {di di' : DatabaseInfo SliceHeader} {rpi rpi' : RetentionPolicyInfo SliceHeader}
  {database name rp : String}

/-- The slice headers of the metadata that are not nil. -/
def used (data : Metadata) : List SliceHeader := data.databases.flatMap (·.used)

theorem used_setDatabase (h : data.database name = some di) (di' : DatabaseInfo SliceHeader) :
    ∃ l r, data.used = l ++ (di.used ++ r) ∧ (data.setDatabase name di').used = l ++ (di'.used ++ r) := by
  obtain ⟨l₁, l₂, hl, hr⟩ := replaceFirst_split h di'
  refine ⟨l₁.flatMap (·.used), l₂.flatMap (·.used), ?_, ?_⟩
  · rw [used, hl, flatMap_append, flatMap_cons]
  · rw [used, setDatabase, hr, flatMap_append, flatMap_cons]

theorem used_setDatabase_sublist (h : data.database name = some di) (hs : di'.used.Sublist di.used) :
    (data.setDatabase name di').used.Sublist data.used := by
  obtain ⟨l, r, h₁, h₂⟩ := used_setDatabase h di'
  rw [h₁, h₂]
  exact (hs.append_right r).append_left l

/-- The slice header of a policy, if it is not nil. -/
def usedBy (rpi : RetentionPolicyInfo SliceHeader) : List SliceHeader := [rpi.subscriptions].filter (· ≠ default)

theorem used_replaceFirst (h : di.policyNamed rp = some rpi) (rpi' : RetentionPolicyInfo SliceHeader) (policy : String) :
    ∃ l r, di.used = l ++ (usedBy rpi ++ r) ∧ DatabaseInfo.used { di with
        retentionPolicies := replaceFirst (fun rp' => rp'.name = rp) rpi' di.retentionPolicies
        defaultRetentionPolicy := policy } = l ++ (usedBy rpi' ++ r) := by
  obtain ⟨l₁, l₂, hl, hr⟩ := replaceFirst_split h rpi'
  refine ⟨(l₁.map (·.subscriptions)).filter (· ≠ default), (l₂.map (·.subscriptions)).filter (· ≠ default), ?_, ?_⟩
  · rw [DatabaseInfo.used, hl, map_append, map_cons, filter_append, ← singleton_append, filter_append]
    rfl
  · rw [DatabaseInfo.used, hr, map_append, map_cons, filter_append, ← singleton_append, filter_append]
    rfl

/-- **A write to a policy** replaces its slice header and leaves the others. -/
theorem used_setPolicy (h : data.findPolicy database rp = .ok rpi) (rpi' : RetentionPolicyInfo SliceHeader) :
    ∃ l r, data.used = l ++ (usedBy rpi ++ r) ∧ (data.setPolicy database rp rpi').used = l ++ (usedBy rpi' ++ r) := by
  obtain ⟨di, hd, hp⟩ := findPolicy_eq_ok.mp h
  obtain ⟨l₁, r₁, h₁, h₁'⟩ := used_replaceFirst hp rpi' di.defaultRetentionPolicy
  obtain ⟨l, r, h₂, h₂'⟩ := used_setDatabase hd
    { di with retentionPolicies := replaceFirst (fun rp' => rp'.name = rp) rpi' di.retentionPolicies }
  refine ⟨l ++ l₁, r₁ ++ r, ?_, ?_⟩
  · rw [h₂, h₁]
    simp only [append_assoc]
  · rw [setPolicy, hd]
    exact h₂'.trans (by simp only [h₁', append_assoc])

theorem used_setPolicy_same (h : data.findPolicy database rp = .ok rpi)
    (hs : rpi'.subscriptions = rpi.subscriptions) : (data.setPolicy database rp rpi').used = data.used := by
  obtain ⟨l, r, h₁, h₂⟩ := used_setPolicy h rpi'
  rw [h₁, h₂, usedBy, usedBy, hs]

/-! ## The operations that leave the subscriptions alone -/

/-- The slices of what an edit leaves, if it succeeds, are among those of the list. -/
def UsesOnly (l : List SliceHeader) : Except String Metadata → Prop
  | .error _ => True
  | .ok data => data.used.Sublist l

theorem UsesOnly.guard {p : Prop} [Decidable p] {err : String} {l : List SliceHeader}
    (h : UsesOnly l edited) : UsesOnly l (if p then .error err else edited) := by
  split
  · trivial
  · exact h

theorem sublist_of_used_eq (h : data'.used = data.used) : data'.used.Sublist data.used := h ▸ refl _

theorem used_createDatabase (h : data.createDatabase name = .ok data') : data'.used = data.used := by
  rw [createDatabase] at h
  split_ifs at h with h₁ h₂ h₃
  · exact congrArg used (ok.inj h).symm
  · rw [← ok.inj h, used, used, flatMap_append]
    exact append_nil _

theorem used_dropDatabase (data : Metadata) (name : String) : (data.dropDatabase name).used.Sublist data.used := by
  rw [dropDatabase]
  split_ifs
  · exact eraseP_sublist.flatMap _
  · exact refl _

theorem used_createRetentionPolicy {makeDefault : Bool} (hrpi : rpi.subscriptions = default) :
    UsesOnly data.used (data.createRetentionPolicy database rpi makeDefault) := by
  rw [createRetentionPolicy]
  refine .guard (.guard (.guard (.guard ?_)))
  split
  · trivial
  next di hd =>
    split
    · exact .guard (.guard (refl _))
    · refine used_setDatabase_sublist hd ?_
      rw [DatabaseInfo.used, DatabaseInfo.used, map_append, filter_append, map_singleton, hrpi]
      exact (append_nil _).symm ▸ refl _

theorem used_dropRetentionPolicy (data : Metadata) (database name : String) :
    (data.dropRetentionPolicy database name).used.Sublist data.used := by
  rw [dropRetentionPolicy]
  cases hd : data.database database with
  | none => exact refl _
  | some di => exact used_setDatabase_sublist hd ((eraseP_sublist.map _).filter _)

theorem used_updateRetentionPolicy {rpu : RetentionPolicyUpdate} {makeDefault : Bool} :
    UsesOnly data.used (data.updateRetentionPolicy database name rpu makeDefault) := by
  rw [updateRetentionPolicy]
  split
  · trivial
  next di hd =>
    split
    · trivial
    next rpi hp =>
      refine .guard (.guard (.guard (used_setDatabase_sublist hd ?_)))
      obtain ⟨l, r, h₁, h₂⟩ := used_replaceFirst (DatabaseInfo.retentionPolicy_eq_some hp) (updated rpi rpu)
        (if makeDefault then (updated rpi rpu).name else di.defaultRetentionPolicy)
      rw [h₁, h₂]
      exact refl _

theorem used_createContinuousQuery {toLower : String → String} {query : String} :
    UsesOnly data.used (data.createContinuousQuery toLower database name query) := by
  rw [createContinuousQuery]
  split
  · trivial
  next di hd =>
    split
    · split_ifs
      · exact refl _
      · trivial
    · exact used_setDatabase_sublist hd (refl _)

theorem used_dropContinuousQuery (data : Metadata) (database name : String) :
    (data.dropContinuousQuery database name).used.Sublist data.used := by
  rw [dropContinuousQuery]
  cases hd : data.database database with
  | none => exact refl _
  | some di => exact used_setDatabase_sublist hd (refl _)

theorem used_createUser {hash : String} {admin : Bool} : UsesOnly data.used (data.createUser name hash admin) :=
  .guard (.guard (refl _))

theorem used_updateUser {hash : String} : UsesOnly data.used (data.updateUser name hash) := by
  rw [updateUser]
  split
  · trivial
  · exact refl _

theorem used_dropUser : UsesOnly data.used (data.dropUser name) := by
  rw [dropUser]
  split
  · trivial
  · exact refl _

theorem used_setPrivilege {p : Int} : UsesOnly data.used (data.setPrivilege name database p) := by
  rw [setPrivilege]
  split
  · trivial
  · exact .guard (refl _)

theorem used_setAdminPrivilege {admin : Bool} : UsesOnly data.used (data.setAdminPrivilege name admin) := by
  rw [setAdminPrivilege]
  split
  · trivial
  · exact refl _

theorem used_mapGroups (f : List ShardGroupInfo → List ShardGroupInfo) (data : Metadata) :
    (data.mapGroups f).used = data.used := by
  rw [used, mapGroups, flatMap_map, used]
  congr 1
  funext di
  rw [DatabaseInfo.used, map_map, DatabaseInfo.used]
  rfl

theorem used_dropShard (data : Metadata) (id : ℕ) (clock : Clock) : (data.dropShard id clock).used = data.used := by
  rw [dropShard]
  split
  · rfl
  · next dbs h =>
    refine flatMap_updateFirst (fun a b hab => ?_) h
    obtain ⟨rps, hrps, rfl⟩ := Option.map_eq_some_iff.mp hab
    have hsubs : Forall₂ (fun p q : RetentionPolicyInfo SliceHeader => q.subscriptions = p.subscriptions)
        a.retentionPolicies rps := by
      refine forall₂_updateFirst (fun _ => rfl) ?_ hrps
      intro p q hpq
      obtain ⟨gs, -, rfl⟩ := Option.map_eq_some_iff.mp hpq
      rfl
    rw [DatabaseInfo.used, DatabaseInfo.used, map_eq_of_forall₂ hsubs]

theorem used_createShardGroup {t : Time}
    (h : data.createShardGroup database rp t shards = .ok data') : data'.used = data.used := by
  rw [createShardGroup] at h
  split at h
  · cases h
  next rpi hp =>
    split at h
    · rw [← ok.inj h]
    · rw [← ok.inj h]
      exact used_setPolicy_same hp rfl

theorem used_deleteShardGroup {id : ℕ} {clock : Clock} :
    UsesOnly data.used (data.deleteShardGroup database rp id clock) := by
  rw [deleteShardGroup]
  split
  · trivial
  next rpi hp =>
    split
    · trivial
    · exact sublist_of_used_eq (used_setPolicy_same hp rfl)

theorem used_createNewShardGroup {t : Time} {g : Option ShardGroupInfo}
    (h : data.createNewShardGroup database rp t shards = .ok (data', g)) : data'.used = data.used := by
  rw [createNewShardGroup] at h
  have h := ok_of_ite h
  split at h
  · cases h
  next d hc =>
    split at h
    · cases h
    · cases h
    · obtain ⟨rfl, -⟩ := Prod.mk.inj (ok.inj h)
      exact used_createShardGroup hc

theorem used_precreateRound {fromTime toTime : Time} {j : ℕ} {acc' : Metadata × Bool}
    (h : precreateRound fromTime toTime i acc j = some acc') : acc'.1.used = acc.1.used := by
  rw [precreateRound] at h
  split at h
  · rw [some.inj h]
  · split at h
    · rw [some.inj h]
    · split at h
      · rw [some.inj h]
      · split_ifs at h
        · rw [some.inj h]
        · split at h
          · rw [some.inj h]
          · cases h
          · next hc =>
            rw [← some.inj h]
            exact used_createNewShardGroup hc
        · rw [some.inj h]

theorem used_precreate {fromTime toTime : Time}
    (h : data.precreate fromTime toTime = some acc) : acc.1.used = data.used := by
  refine foldlM_some_induction (P := fun acc : Metadata × Bool => acc.1.used = data.used) ?_ rfl h
  intro acc i acc' hacc hstep
  rw [precreateDatabase] at hstep
  split at hstep
  · rw [← some.inj hstep, hacc]
  · refine foldlM_some_induction (P := fun acc : Metadata × Bool => acc.1.used = data.used) ?_ hacc hstep
    intro acc j acc' hacc hround
    rw [used_precreateRound hround, hacc]

theorem used_createNewDatabase {autoCreate : Bool} : UsesOnly data.used (data.createNewDatabase name autoCreate) := by
  rw [createNewDatabase]
  split
  · trivial
  next d hc =>
    rw [← used_createDatabase hc]
    split_ifs
    · exact used_createRetentionPolicy rfl
    · exact refl _

theorem used_withRetentionPolicy : UsesOnly data.used (data.withRetentionPolicy di name spec) := by
  rw [withRetentionPolicy]
  split
  · trivial
  · next d hd =>
    split
    · split_ifs at hd
      · exact hd ▸ used_createRetentionPolicy rfl
      · cases hd
        exact refl _
    · trivial

theorem used_createDatabaseWithRetentionPolicy :
    UsesOnly data.used (data.createDatabaseWithRetentionPolicy name spec) := by
  rw [createDatabaseWithRetentionPolicy]
  refine .guard ?_
  split
  · exact used_withRetentionPolicy
  · split
    · trivial
    · next hc =>
      rw [← used_createDatabase hc]
      exact used_withRetentionPolicy

/-! ## The operations on subscriptions -/

end Data

/-! ## Separate arrays -/

/-- Different policies have different arrays, each slice fits its array, and the nil slice has no room. -/
structure Sound (data : Metadata) (mem : Memory SubscriptionInfo) : Prop where
  fits : ∀ s ∈ data.used, mem.Fits s ∧ s.array ≠ 0
  separate : (data.used.map (·.array)).Nodup
  nil : mem.arrays 0 = []
  next : 0 < mem.next

section Sound

variable {data data' : Metadata} {mem mem' : Memory SubscriptionInfo} {database rp : String}
  {rpi : RetentionPolicyInfo SliceHeader} {s t : SliceHeader}

theorem usedBy_of_ne (h : rpi.subscriptions ≠ default) : usedBy rpi = [rpi.subscriptions] := by
  rw [usedBy, filter_cons_of_pos (by simpa using h), filter_nil]

theorem mem_used_of_findPolicy (hp : data.findPolicy database rp = .ok rpi) (h : rpi.subscriptions ≠ default) :
    rpi.subscriptions ∈ data.used := by
  obtain ⟨l, r, hu, -⟩ := used_setPolicy hp rpi
  rw [hu, usedBy_of_ne h]
  simp

theorem Sound.fits_policy (h : Sound data mem) (hp : data.findPolicy database rp = .ok rpi) :
    mem.Fits rpi.subscriptions := by
  by_cases hd : rpi.subscriptions = default
  · rw [hd]
    exact ⟨Nat.zero_le _, h.next⟩
  · exact (h.fits _ (mem_used_of_findPolicy hp hd)).1

/-- **A policy may get a slice in a written array**, its own or a new one. -/
theorem Sound.write {a k n : ℕ} {l : List SubscriptionInfo} (h : Sound data mem)
    (hp : data.findPolicy database rp = .ok rpi) (ha : a ≠ 0) (han : a < n) (hn : mem.next ≤ n) (hk : k ≤ l.length)
    (harray : a = rpi.subscriptions.array ∧ rpi.subscriptions ≠ default ∧ (mem.arrays a).length ≤ l.length ∨
      ∀ t ∈ data.used, t.array ≠ a) :
    Sound (data.setPolicy database rp { rpi with subscriptions := ⟨a, k⟩ }) { mem.write a l with next := n } ∧
      Sound data { mem.write a l with next := n } := by
  have hold : Sound data { mem.write a l with next := n } := by
    refine ⟨fun t ht => ?_, h.separate, (arrays_write_of_ne ha.symm mem l).trans h.nil, h.next.trans_le hn⟩
    have hfits := (h.fits t ht).1.write fun heq => harray.elim (·.2.2) fun hnew => absurd heq (hnew t ht)
    exact ⟨⟨hfits.1, hfits.2.trans_le hn⟩, (h.fits t ht).2⟩
  obtain ⟨left, right, hu, hu'⟩ := used_setPolicy hp { rpi with subscriptions := ⟨a, k⟩ }
  have hne : (⟨a, k⟩ : SliceHeader) ≠ default := fun hd => ha (congrArg SliceHeader.array hd)
  rw [usedBy_of_ne hne, singleton_append] at hu'
  -- the slices of the other policies
  have hothers : (left ++ right).Sublist data.used :=
    hu ▸ (sublist_append_right _ _).append_left _
  refine ⟨⟨fun t ht => ?_, ?_, hold.nil, hold.next⟩, hold⟩
  · rw [hu', perm_middle.mem_iff, mem_cons] at ht
    rcases ht with rfl | ht
    · refine ⟨⟨?_, han⟩, ha⟩
      show k ≤ ((Memory.write ..).arrays a).length
      rwa [arrays_write_self]
    · exact hold.fits t (hothers.subset ht)
  · rw [hu', map_append, map_cons]
    rcases harray with ⟨rfl, hd, -⟩ | hnew
    · simpa [hu, usedBy_of_ne hd] using h.separate
    · refine nodup_middle.mpr (nodup_cons.mpr ⟨?_, ?_⟩) <;> rw [← map_append]
      · rw [mem_map]
        rintro ⟨t, ht, heq⟩
        exact hnew t (hothers.subset ht) heq
      · exact h.separate.sublist (hothers.map _)

end Sound

namespace SharedClient

/-! ## What is served -/

variable (f : SliceHeader → List SubscriptionInfo)

/-- The subscriptions of a policy looked up. -/
def resolve (rpi : RetentionPolicyInfo SliceHeader) : RetentionPolicyInfo :=
  ⟨rpi.name, rpi.replicaN, rpi.duration, rpi.shardGroupDuration, rpi.shardGroups, f rpi.subscriptions⟩

/-- The policies of a database with their subscriptions. -/
def resolveDatabase (di : DatabaseInfo SliceHeader) : DatabaseInfo :=
  ⟨di.name, di.defaultRetentionPolicy, di.retentionPolicies.map (resolve f), di.continuousQueries⟩

/-- **What the client serves**: its metadata, with the subscriptions as they stand in their arrays.  `Data`, `Database`,
`Databases`, `Users` and the lookups of shard groups all read it. -/
def served (c : SharedClient) : Data :=
  ⟨c.cacheData.term, c.cacheData.index, c.cacheData.clusterID,
    c.cacheData.databases.map (resolveDatabase c.memory.items), c.cacheData.users, c.cacheData.adminUserExists,
    c.cacheData.maxShardGroupID, c.cacheData.maxShardID⟩

variable {f g : SliceHeader → List SubscriptionInfo}

theorem resolve_eq_iff : resolve f rpi = resolve g rpi ↔ f rpi.subscriptions = g rpi.subscriptions := by
  simp [resolve]

theorem served_eq_iff (c : SharedClient) (mem : Memory SubscriptionInfo) (locked : Bool) :
    served { c with memory := mem, locked := locked } = c.served ↔
      ∀ s ∈ c.cacheData.used, mem.items s = c.memory.items s := by
  have hnil : ∀ m : Memory SubscriptionInfo, m.items default = [] := fun m => take_zero
  simp only [served, resolveDatabase, Data.mk.injEq, DatabaseInfo.mk.injEq, true_and, and_true, map_inj_left, resolve_eq_iff]
  constructor
  · intro h s hs
    obtain ⟨di, hdi, hs⟩ := mem_flatMap.mp hs
    obtain ⟨rp, hrp, rfl⟩ := mem_map.mp (mem_of_mem_filter hs)
    exact h di hdi rp hrp
  · intro h di hdi rp hrp
    by_cases hd : rp.subscriptions = default
    · rw [hd, hnil, hnil]
    · refine h _ (mem_flatMap.mpr ⟨di, hdi, ?_⟩)
      exact mem_filter.mpr ⟨mem_map.mpr ⟨rp, hrp, rfl⟩, by simpa using hd⟩

/-! ## What an operation commits -/

/-- The ways to commit an edited clone.  Most operations drop or keep the slices there are; two write to an array. -/
inductive Commits (c : SharedClient) : Operation → Metadata → Memory SubscriptionInfo → Prop
  | plain {op : Operation} {data : Metadata} (hu : unlocks op = true) (hd : ∀ d r n, op ≠ .dropSubscription d r n)
      (hs : data.used.Sublist c.cacheData.used) : Commits c op data c.memory
  | append {database rp name mode : String} {destinations : List String} {rpi : RetentionPolicyInfo SliceHeader}
      (hp : c.cacheData.findPolicy database rp = .ok rpi) (v : SubscriptionInfo) :
      Commits c (.createSubscription database rp name mode destinations)
        (c.cacheData.setPolicy database rp { rpi with subscriptions := (c.memory.append rpi.subscriptions v).1 })
        (c.memory.append rpi.subscriptions v).2
  | remove {database rp name : String} {rpi : RetentionPolicyInfo SliceHeader} {i : ℕ}
      (hp : c.cacheData.findPolicy database rp = .ok rpi)
      (hi : (c.memory.items rpi.subscriptions).findIdx? (fun s => s.name = name) = some i) :
      Commits c (.dropSubscription database rp name)
        (c.cacheData.setPolicy database rp { rpi with subscriptions := (c.memory.removeAt rpi.subscriptions i).1 })
        (c.memory.removeAt rpi.subscriptions i).2
  | setData (data : Metadata) : Commits c (.setData data) data c.memory

theorem ok_of_commitShared {edited : Except String (Metadata × Memory SubscriptionInfo)}
    {data : Metadata} {reply : Reply}
    (h : Edit.commitShared edited = .commits data mem reply) : edited = .ok (data, mem) := by
  cases edited with
  | error e => cases h
  | ok d =>
    obtain ⟨rfl, rfl, -⟩ := Edit.commits.inj h
    rfl

variable {env : Env} {c : SharedClient} {op : Operation} {data : Metadata} {mem : Memory SubscriptionInfo}
  {reply : Reply}

theorem Commits.of_commit {f : Metadata → Reply} (hu : unlocks op = true)
    (hd : ∀ d r n, op ≠ .dropSubscription d r n) (hs : UsesOnly c.cacheData.used edited)
    (h : Edit.commit c.memory edited f = .commits data mem reply) : Commits c op data mem := by
  cases edited with
  | error e => cases h
  | ok d =>
    obtain ⟨rfl, rfl, -⟩ := Edit.commits.inj h
    exact .plain hu hd hs

theorem Commits.of_commits {data' : Metadata} {r : Reply} (hu : unlocks op = true)
    (hd : ∀ d r n, op ≠ .dropSubscription d r n) (hs : data'.used.Sublist c.cacheData.used)
    (h : Edit.commits data' c.memory r = .commits data mem reply) : Commits c op data mem := by
  obtain ⟨rfl, rfl, -⟩ := Edit.commits.inj h
  exact .plain hu hd hs

/-- **Inversion of `edit`.** -/
theorem commits_of_edit (h : c.edit env op = .commits data mem reply) : Commits c op data mem := by
  cases op with
  | createDatabase name =>
    simp only [edit] at h
    split at h
    · cases h
    · exact .of_commit rfl nofun used_createNewDatabase h
  | createDatabaseWithRetentionPolicy name spec =>
    exact .of_commit rfl nofun used_createDatabaseWithRetentionPolicy h
  | dropDatabase name => exact .of_commits rfl nofun (used_dropDatabase _ _) h
  | createRetentionPolicy database spec makeDefault =>
    exact .of_commit rfl nofun (.guard (used_createRetentionPolicy rfl)) h
  | dropRetentionPolicy database name => exact .of_commits rfl nofun (used_dropRetentionPolicy _ _ _) h
  | updateRetentionPolicy database name rpu makeDefault =>
    exact .of_commit rfl nofun used_updateRetentionPolicy h
  | createUser name password admin =>
    simp only [edit] at h
    split at h
    · split_ifs at h
    · split at h
      · cases h
      · exact .of_commit rfl nofun used_createUser h
  | updateUser name password =>
    simp only [edit] at h
    split at h
    · cases h
    · exact .of_commit rfl nofun used_updateUser h
  | dropUser name => exact .of_commit rfl nofun used_dropUser h
  | setPrivilege username database p => exact .of_commit rfl nofun used_setPrivilege h
  | setAdminPrivilege username admin => exact .of_commit rfl nofun used_setAdminPrivilege h
  | dropShard id clock => exact .of_commits rfl nofun (sublist_of_used_eq (used_dropShard _ _ _)) h
  | truncateShardGroups t => exact .of_commits rfl nofun (sublist_of_used_eq (used_mapGroups _ _)) h
  | pruneShardGroups now =>
    simp only [edit] at h
    split_ifs at h
    exact .of_commits rfl nofun (sublist_of_used_eq (used_mapGroups _ _)) h
  | createShardGroupWithShards database policy t shards =>
    simp only [edit] at h
    split at h
    · cases h
    · split at h
      · cases h
      · next hc => exact .of_commits rfl nofun (sublist_of_used_eq (used_createNewShardGroup hc)) h
  | deleteShardGroup database policy id clock =>
    exact .of_commit rfl nofun used_deleteShardGroup h
  | precreateShardGroups fromTime toTime =>
    simp only [edit] at h
    split at h
    · cases h
    · next hc =>
      split_ifs at h
      exact .of_commits rfl nofun (sublist_of_used_eq (used_precreate hc)) h
  | createContinuousQuery database name query =>
    exact .of_commit rfl nofun used_createContinuousQuery h
  | dropContinuousQuery database name => exact .of_commits rfl nofun (used_dropContinuousQuery _ _ _) h
  | createSubscription database rp name mode destinations =>
    have hok := ok_of_commitShared h
    rw [createSubscription] at hok
    split at hok
    · cases hok
    · split at hok
      · cases hok
      · next rpi hp =>
        obtain ⟨rfl, rfl⟩ := Prod.mk.inj (ok.inj (ok_of_ite hok))
        exact .append hp _
  | dropSubscription database rp name =>
    have hok := ok_of_commitShared h
    rw [dropSubscription] at hok
    split at hok
    · cases hok
    · next rpi hp =>
      split at hok
      · cases hok
      · next i hi =>
        obtain ⟨rfl, rfl⟩ := Prod.mk.inj (ok.inj hok)
        exact .remove hp hi
  | setData d =>
    obtain ⟨rfl, rfl, -⟩ := Edit.commits.inj h
    exact .setData d

/-! ## Every call keeps the arrays separate -/

theorem lt_len_of_findIdx? {p : SubscriptionInfo → Bool}
    (hf : c.memory.Fits rpi.subscriptions) (h : (c.memory.items rpi.subscriptions).findIdx? p = some i) :
    i < rpi.subscriptions.len := by
  rw [← length_items hf]
  exact (findIdx?_eq_some_iff_getElem.mp h).1

theorem ne_default_of_lt {s : SliceHeader} (h : i < s.len) : s ≠ default := by
  rintro rfl
  exact Nat.not_lt_zero _ h

/-- The metadata an operation brings with it has its own arrays. -/
def Brings (c : SharedClient) : Operation → Prop
  | .setData data => Sound data c.memory
  | _ => True

theorem Commits.sound (hc : Sound c.cacheData c.memory) (hb : Brings c op) (h : Commits c op data mem) :
    Sound data mem ∧ Sound c.cacheData mem := by
  cases h with
  | plain hu hd hs =>
    exact ⟨⟨fun s hmem => hc.fits s (hs.subset hmem), hc.separate.sublist (hs.map _), hc.nil, hc.next⟩, hc⟩
  | setData d => exact ⟨hb, hc⟩
  | @append _ _ _ _ _ rpi hp v =>
    have hf := hc.fits_policy hp
    rw [Memory.append]
    split_ifs with hroom
    · have ha : rpi.subscriptions.array ≠ 0 := by
        intro h0
        rw [h0, hc.nil] at hroom
        exact Nat.not_lt_zero _ hroom
      refine hc.write hp ha hf.2 le_rfl ?_ (.inl ⟨rfl, fun hd => ha (by rw [hd]; rfl), length_set.ge⟩)
      rwa [length_set]
    · refine hc.write hp hc.next.ne' (Nat.lt_succ_self _) (Nat.le_succ _) ?_ (.inr fun t ht => (hc.fits t ht).1.2.ne)
      rw [length_append, length_items hf, length_singleton]
  | @remove _ _ _ rpi i hp hi =>
    have hf := hc.fits_policy hp
    have hlt := lt_len_of_findIdx? hf hi
    have hne := ne_default_of_lt hlt
    have hlen := length_shiftDown hlt hf.1
    refine hc.write hp (hc.fits _ (mem_used_of_findPolicy hp hne)).2 hf.2 le_rfl ?_ (.inl ⟨rfl, hne, hlen.ge⟩)
    rw [hlen]
    exact (Nat.sub_le _ _).trans hf.1

/-- **Every call keeps the arrays separate**, whatever the store answers. -/
theorem sound_call (hc : Sound c.cacheData c.memory) (hb : Brings c op) (stored : Except String Unit) :
    Sound (c.call env op stored).1.cacheData (c.call env op stored).1.memory := by
  rw [call]
  split_ifs
  · exact hc
  · cases h : c.edit env op with
    | answers reply | panics => exact hc
    | commits data mem reply =>
      have hs := (commits_of_edit h).sound hc hb
      cases stored with
      | error e => exact hs.2
      | ok u => exact { hs.1 with }

/-- What the calls of a history bring has its own arrays. -/
def AllBring (env : Env) (c : SharedClient) : List (Operation × Except String Unit) → Prop
  | [] => True
  | x :: xs => Brings c x.1 ∧ AllBring env (c.call env x.1 x.2).1 xs

def calls (env : Env) (c : SharedClient) (xs : List (Operation × Except String Unit)) : SharedClient :=
  xs.foldl (fun c x => (c.call env x.1 x.2).1) c

theorem sound_calls {xs : List (Operation × Except String Unit)} (hc : Sound c.cacheData c.memory)
    (hb : AllBring env c xs) : Sound (c.calls env xs).cacheData (c.calls env xs).memory := by
  induction xs generalizing c with
  | nil => exact hc
  | cons x xs ih => exact ih (sound_call hc hb.1 x.2) hb.2

/-! ## A failed update -/

/-- The operations whose failed update shows nowhere: all but `SetData`, and `DropSubscription` only where the
subscriptions from the dropped one on are all the same. -/
def Harmless (c : SharedClient) : Operation → Prop
  | .setData _ => False
  | .dropSubscription database rp name =>
    ∀ rpi i, c.cacheData.findPolicy database rp = .ok rpi →
      (c.memory.items rpi.subscriptions).findIdx? (fun s => s.name = name) = some i →
      Memory.Constant (c.memory.items rpi.subscriptions) i
  | _ => True

theorem harmless_of_plain (hu : unlocks op = true) (hd : ∀ d r n, op ≠ .dropSubscription d r n) : Harmless c op := by
  cases op with
  | setData d => cases hu
  | dropSubscription d r n => exact absurd rfl (hd d r n)
  | _ => trivial

theorem Commits.harmless_iff (hc : Sound c.cacheData c.memory) (h : Commits c op data mem) :
    ((∀ s ∈ c.cacheData.used, mem.items s = c.memory.items s) ∧ unlocks op = true) ↔ Harmless c op := by
  cases h with
  | plain hu hd hs => exact iff_of_true ⟨fun _ _ => rfl, hu⟩ (harmless_of_plain hu hd)
  | setData d => exact iff_of_false (fun h => absurd h.2 (by simp [unlocks])) (fun h => h)
  | @append _ _ _ _ _ rpi hp v =>
    refine iff_of_true ⟨?_, rfl⟩ trivial
    intro t ht
    refine items_append (hc.fits t ht).1 ?_ v
    -- The array of a served slice is not the nil one, so the policy's slice is served too.
    intro ha
    have hne : rpi.subscriptions ≠ default := by
      intro hd
      rw [hd] at ha
      exact (hc.fits t ht).2 ha
    exact Nat.le_of_eq (congrArg SliceHeader.len (inj_on_of_nodup_map hc.separate ht (mem_used_of_findPolicy hp hne) ha))
  | @remove _ _ _ rpi i hp hi =>
    have hf := hc.fits_policy hp
    have hlt := lt_len_of_findIdx? hf hi
    constructor
    · rintro ⟨h, -⟩ rpi' i' hp' hi'
      obtain rfl := ok.inj (hp.symm.trans hp')
      obtain rfl := some.inj (hi.symm.trans hi')
      exact (items_removeAt_self_iff hf hlt).mp (h _ (mem_used_of_findPolicy hp (ne_default_of_lt hlt)))
    · exact fun h => ⟨fun t _ => items_removeAt_of_constant hf hlt (h rpi i hp hi) t, rfl⟩

/-- **A failed update changes nothing exactly for the harmless operations**: in a client whose policies have their own
arrays, an operation that commits and whose update fails returns an error, leaves what is served as it was and releases the
lock exactly if it is harmless. -/
theorem failed_update_changes_nothing_iff (env : Env) (c : SharedClient) (hc : Sound c.cacheData c.memory)
    (hl : c.locked = false) (op : Operation) (data : Metadata) (mem : Memory SubscriptionInfo) (reply : Reply)
    (h : c.edit env op = .commits data mem reply) (e : String) :
    ((∃ e', (c.call env op (.error e)).2 = .returned (.error e')) ∧ (c.call env op (.error e)).1.served = c.served ∧
      (c.call env op (.error e)).1.locked = false) ↔ Harmless c op := by
  rw [← (commits_of_edit h).harmless_iff hc]
  simp only [call, hl, h, Bool.false_eq_true, if_false]
  rw [served_eq_iff]
  simp

/-- A client with one policy, which has the subscriptions `a` and `b`. -/
def subscribed : SharedClient where
  cacheData := ⟨1, 1, 1, [⟨"db", "rp", [⟨"rp", 1, 0, hour, [], ⟨1, 2⟩⟩], []⟩], [], false, 0, 0⟩
  memory := ⟨fun a => if a = 1 then [⟨"a", "ANY", []⟩, ⟨"b", "ANY", []⟩] else [], 2⟩
  retentionAutoCreate := false
  locked := false

theorem sound_subscribed : Sound subscribed.cacheData subscribed.memory := by
  refine ⟨?_, by decide, rfl, by decide⟩
  intro s hs
  obtain ⟨rfl, -⟩ : s = ⟨1, 2⟩ ∧ ¬s = default := by simpa [subscribed, used, DatabaseInfo.used] using hs
  exact ⟨⟨by decide, by decide⟩, by decide⟩

/-- Libraries that accept everything. -/
def anyEnv : Env := ⟨fun s => s, fun _ => some ("http", "h:1"), fun _ => some ("h", "1"), fun p => .ok p, fun h p => h = p⟩

theorem sound_calls_drop : ∃ c, c = subscribed.calls anyEnv [(.dropSubscription "db" "rp" "a", .error "disk full")] ∧
    Sound c.cacheData c.memory :=
  ⟨_, rfl, sound_calls sound_subscribed (And.intro trivial trivial)⟩

theorem failed_drop_database_changes_nothing :
    (subscribed.call anyEnv (.dropDatabase "db") (.error "disk full")).1.served = subscribed.served :=
  ((failed_update_changes_nothing_iff anyEnv subscribed sound_subscribed rfl (.dropDatabase "db") _ _ _ rfl
    "disk full").mpr trivial).2.1

/-- A failed `DropSubscription` of `a` leaves `b` twice, and a failed `SetData` leaves the client locked for every later
call. -/
theorem failed_drop_subscription_shows :
    (((subscribed.call anyEnv (.dropSubscription "db" "rp" "a") (.error "disk full")).1.served.databases.flatMap
      (·.retentionPolicies)).flatMap (·.subscriptions)).map (·.name) = ["b", "b"] ∧
    ((subscribed.served.databases.flatMap (·.retentionPolicies)).flatMap (·.subscriptions)).map (·.name) = ["a", "b"] ∧
    (subscribed.call anyEnv (.setData subscribed.cacheData) (.error "disk full")).1.locked = true := by
  decide +kernel

end SharedClient

end Influxdb.Meta
