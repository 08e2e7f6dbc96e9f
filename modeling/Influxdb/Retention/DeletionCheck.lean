import Influxdb.Lib.Histories
import Influxdb.Meta.Client

/-!
# DeletionCheck — the retention check

`Service.DeletionCheck` deletes the shards of expired shard groups from the store and drops the metadata references of
shards that are gone.  Each of its calls can fail: the world answers a call as it likes, with a view of all calls before it.
A check is the list of its calls and their answers; what it did to the metadata and to the readers of a shard is read off
that list.
-/

namespace Influxdb.Retention

open List Meta Assoc
open Models (Time)

variable {S : Type}

/-- A call of the clock, the metadata client or the store. -/
inductive Call where
  | now
  | deleteShardGroup (database policy : String) (id : ℕ)
  | setShardNewReadersBlocked (id : ℕ) (blocked : Bool)
  | shardInUse (id : ℕ)
  | deleteShard (id : ℕ)
  | dropShardMetaRef (id : ℕ) (owners : List ℕ)
  | pruneShardGroups
deriving DecidableEq

/-- The answer; `notFound` is an error that wraps `ErrShardNotFound`, and `inUse` is what `ShardInUse` may find. -/
inductive Outcome where
  | ok
  | notFound
  | inUse
  | failed
deriving DecidableEq

/-- A call, its answer, and the time of the answer. -/
structure Event where
  call : Call
  outcome : Outcome
  clock : Clock

structure DeletionInfo where
  db : String
  rp : String
  owners : List ℕ

/-- What answers the calls, and the order in which a map is iterated. -/
structure World where
  answer : List Event → Call → Outcome × Clock
  order : List (ℕ × DeletionInfo) → List (ℕ × DeletionInfo)
  perm : ∀ m, (order m).Perm m

/-- The calls so far, and the map `deletedShardIDs`. -/
structure Check where
  trace : List Event
  deletedShardIDs : List (ℕ × DeletionInfo)

def expiredShardGroups (r : RetentionPolicyInfo S) (t : Time) : List ShardGroupInfo :=
  r.shardGroups.filter fun g => !g.deleted && (decide (r.duration ≠ 0) && decide (add g.endTime r.duration < t))

def deletedShardGroups (r : RetentionPolicyInfo S) : List ShardGroupInfo := r.shardGroups.filter (·.deleted)

def newDeletionInfo (db rp : String) (si : ShardInfo) : DeletionInfo := ⟨db, rp, si.owners.map (·.nodeID)⟩

namespace Check

variable (w : World)

variable (s : Check)

def call (c : Call) : Outcome × Check :=
  ((w.answer s.trace c).1, { s with trace := s.trace ++ [⟨c, (w.answer s.trace c).1, (w.answer s.trace c).2⟩] })

/-- Note the shards of a group. -/
def mark (db rp : String) (s : Check) (g : ShardGroupInfo) : Check :=
  { s with deletedShardIDs := g.shards.foldl (fun m sh => put sh.id (newDeletionInfo db rp sh) m) s.deletedShardIDs }

def expireGroup (db rp : String) (s : Check) (g : ShardGroupInfo) : Check :=
  let r := s.call w (.deleteShardGroup db rp g.id)
  if r.1 = .ok then r.2.mark db rp g else r.2

/-- The first pass, over the policies. -/
def checkPolicy (d : DatabaseInfo S) (s : Check) (r : RetentionPolicyInfo S) : Check :=
  let s := (deletedShardGroups r).foldl (mark d.name r.name) s
  (expiredShardGroups r (w.answer s.trace .now).2.now).foldl (expireGroup w d.name r.name) (s.call w .now).2

variable (id : ℕ)

/-- Delete a shard whose readers are blocked. -/
def deleteUnused (s : Check) : Outcome × Check :=
  let r := s.call w (.shardInUse id)
  if r.1 = .ok then r.2.call w (.deleteShard id) else r

/-- The error of a deletion; readers are unblocked unless the shard is gone. -/
def deleteLocal (s : Check) : Outcome × Check :=
  let b := s.call w (.setShardNewReadersBlocked id true)
  if b.1 = .ok then
    let r := b.2.deleteUnused w id
    if r.1 = .ok ∨ r.1 = .notFound then r else (r.1, (r.2.call w (.setShardNewReadersBlocked id false)).2)
  else b

/-- The second pass, over the shards that the store lists. -/
def checkShard : Check :=
  match get id s.deletedShardIDs with
  | none => s
  | some info =>
    let r := deleteLocal w id { s with deletedShardIDs := erase id s.deletedShardIDs }
    if r.1 = .ok ∨ r.1 = .notFound then (r.2.call w (.dropShardMetaRef id info.owners)).2 else r.2

/-- The third pass, over the phantom shards. -/
def dropPhantom (p : ℕ × DeletionInfo) : Check := (s.call w (.dropShardMetaRef p.1 p.2.owners)).2

end Check

/-- `DeletionCheck` over metadata, with the shards that the store lists. -/
def World.deletionCheck (w : World) (data : Data S) (shardIDs : List ℕ) : List Event :=
  let s : Check := data.databases.foldl (fun s d => d.retentionPolicies.foldl (Check.checkPolicy w d) s) ⟨[], []⟩
  let s := shardIDs.foldl (Check.checkShard w) s
  let s := (w.order s.deletedShardIDs).foldl (Check.dropPhantom w) s
  (s.call w .pruneShardGroups).2.trace

/-! ## What a check did -/

variable {data : Data S} {tr tr' : List Event} {id : ℕ}

/-- A group of the shard was marked as deleted, or ended more than the duration of its policy before a clock reading. -/
def Due (data : Data S) (tr : List Event) (id : ℕ) : Prop :=
  ∃ d ∈ data.databases, ∃ r ∈ d.retentionPolicies, ∃ g ∈ r.shardGroups, (∃ sh ∈ g.shards, sh.id = id) ∧
    (g.deleted = true ∨ r.duration ≠ 0 ∧ ∃ e ∈ tr, e.call = .now ∧ add g.endTime r.duration < e.clock.now)

/-- The deletion of the shard returned success, or an error because the shard was not found. -/
def Gone (tr : List Event) (id : ℕ) : Prop :=
  ∃ e ∈ tr, (e.call = .deleteShard id ∧ e.outcome = .ok) ∨
    (e.call ∈ [.setShardNewReadersBlocked id true, .shardInUse id, .deleteShard id] ∧ e.outcome = .notFound)

/-- How often readers of the shard have been blocked and not unblocked again. -/
def readerBlocks (tr : List Event) (id : ℕ) : Int :=
  (tr.map fun e =>
    if e.outcome = .ok then
      if e.call = .setShardNewReadersBlocked id true then 1 else if e.call = .setShardNewReadersBlocked id false then -1 else 0
    else (0 : Int)).sum

/-- The shard accepts new readers as before, unless unblocking them has failed. -/
def Reopened (tr : List Event) (id : ℕ) : Prop :=
  readerBlocks tr id = 0 ∨ ∃ e ∈ tr, e.call = .setShardNewReadersBlocked id false ∧ e.outcome ≠ .ok

/-- The metadata after a call. -/
def effect (data : Data S) (e : Event) : Data S :=
  match e.call, e.outcome with
  | .deleteShardGroup database policy id, .ok => (data.deleteShardGroup database policy id e.clock).toOption.getD data
  | .dropShardMetaRef id _, .ok => data.dropShard id e.clock
  | .pruneShardGroups, .ok => data.pruneShardGroups (add e.clock.now SharedClient.shardGroupDeletedExpiration)
  | _, _ => data

/-- The references of a shard. -/
def references (id : ℕ) (data : Data S) : List ShardInfo :=
  data.databases.flatMap fun d => d.retentionPolicies.flatMap fun r => r.shardGroups.flatMap fun g =>
    g.shards.filter fun sh => sh.id = id

/-- **No shard is lost** by a check. -/
structure KeepsTrack (data : Data S) (shardIDs : List ℕ) (tr : List Event) : Prop where
  deletes : ∀ e ∈ tr, ∀ id, e.call = .deleteShard id → Due data tr id
  drops : ∀ e ∈ tr, ∀ id owners, e.call = .dropShardMetaRef id owners → id ∉ shardIDs ∨ Gone tr id
  keeps : ∀ id ∈ shardIDs, ¬Gone tr id → references id (tr.foldl effect data) = references id data
  reopens : ∀ id, ¬Gone tr id → Reopened tr id

theorem Due.mono (h : Due data tr id) (hsub : tr ⊆ tr') : Due data tr' id := by
  obtain ⟨d, hd, r, hr, g, hg, hsh, hdel | ⟨hne, e, he, hnow, hlt⟩⟩ := h
  · exact ⟨d, hd, r, hr, g, hg, hsh, .inl hdel⟩
  · exact ⟨d, hd, r, hr, g, hg, hsh, .inr ⟨hne, e, hsub he, hnow, hlt⟩⟩

theorem Gone.mono (h : Gone tr id) (hsub : tr ⊆ tr') : Gone tr' id := by
  obtain ⟨e, he, hgone⟩ := h
  exact ⟨e, hsub he, hgone⟩

theorem readerBlocks_append (tr tr' : List Event) (id : ℕ) :
    readerBlocks (tr ++ tr') id = readerBlocks tr id + readerBlocks tr' id := by
  rw [readerBlocks, map_append, sum_append]
  rfl

theorem readerBlocks_eq_zero (h : ∀ e ∈ tr, ∀ b, e.call ≠ .setShardNewReadersBlocked id b) : readerBlocks tr id = 0 := by
  rw [readerBlocks, map_congr_left fun e he => by rw [if_neg (h e he true), if_neg (h e he false), ite_self]]
  simp

theorem Reopened.append (h : Reopened tr id) (h' : Reopened tr' id) : Reopened (tr ++ tr') id := by
  rcases h with h | ⟨e, he, hfail⟩
  · rcases h' with h' | ⟨e, he, hfail⟩
    · exact .inl (by rw [readerBlocks_append, h, h', Int.add_zero])
    · exact .inr ⟨e, mem_append_right _ he, hfail⟩
  · exact .inr ⟨e, mem_append_left _ he, hfail⟩

namespace Check

variable {w : World} {s : Check} {shardIDs : List ℕ}

/-- What holds between the calls of a check. -/
structure Inv (data : Data S) (shardIDs : List ℕ) (s : Check) : Prop where
  due : ∀ p ∈ s.deletedShardIDs, Due data s.trace p.1
  deletes : ∀ e ∈ s.trace, ∀ id, e.call = .deleteShard id → Due data s.trace id
  drops : ∀ e ∈ s.trace, ∀ id owners, e.call = .dropShardMetaRef id owners → id ∉ shardIDs ∨ Gone s.trace id
  reopens : ∀ id, Gone s.trace id ∨ Reopened s.trace id

variable (h : s.Inv data shardIDs)
include h

theorem Inv.extend {evs : List Event} {m : List (ℕ × DeletionInfo)}
    (hm : ∀ p ∈ m, p ∈ s.deletedShardIDs) (hdel : ∀ e ∈ evs, ∀ id, e.call = .deleteShard id → Due data s.trace id)
    (hdrop : ∀ e ∈ evs, ∀ id owners, e.call = .dropShardMetaRef id owners → id ∉ shardIDs ∨ Gone s.trace id)
    (hre : ∀ id, Gone evs id ∨ Reopened evs id) : Inv data shardIDs ⟨s.trace ++ evs, m⟩ := by
  have hsub : s.trace ⊆ s.trace ++ evs := subset_append_left _ _
  refine ⟨fun p hp => (h.due p (hm p hp)).mono hsub, fun e he id hc => ?_, fun e he id owners hc => ?_, fun id => ?_⟩
  · exact ((mem_append.mp he).elim (h.deletes e · id hc) (hdel e · id hc)).mono hsub
  · exact ((mem_append.mp he).elim (h.drops e · id owners hc) (hdrop e · id owners hc)).imp_right (·.mono hsub)
  · rcases h.reopens id with hg | hr
    · exact .inl (hg.mono hsub)
    · rcases hre id with hg | hr'
      · exact .inl (hg.mono (subset_append_right _ _))
      · exact .inr (hr.append hr')

theorem Inv.call {c : Call} (hset : ∀ id b, c ≠ .setShardNewReadersBlocked id b) (hdel : ∀ id, c ≠ .deleteShard id)
    (hdrop : ∀ id owners, c = .dropShardMetaRef id owners → id ∉ shardIDs ∨ Gone s.trace id) :
    (s.call w c).2.Inv data shardIDs := by
  refine h.extend (fun p hp => hp) ?_ ?_ fun id => .inr (.inl (readerBlocks_eq_zero ?_))
  all_goals simp only [mem_singleton, forall_eq]
  · exact fun id hc => absurd hc (hdel id)
  · exact hdrop
  · exact hset id

theorem Inv.mark {db rp : String} {g : ShardGroupInfo}
    (hdue : ∀ sh ∈ g.shards, Due data s.trace sh.id) : (s.mark db rp g).Inv data shardIDs := by
  refine ⟨?_, h.deletes, h.drops, h.reopens⟩
  refine @inv_foldl _ _ _ (fun m : List (ℕ × DeletionInfo) => ∀ p ∈ m, Due data s.trace p.1)
    (fun sh : ShardInfo => Due data s.trace sh.id) _ (fun m sh hsh hm p hp => ?_) _ hdue h.due
  rcases mem_put hp with rfl | hp
  · exact hsh
  · exact hm p hp

theorem Inv.checkPolicy {d : DatabaseInfo S} {r : RetentionPolicyInfo S} (hd : d ∈ data.databases)
    (hr : r ∈ d.retentionPolicies) : (s.checkPolicy w d r).Inv data shardIDs := by
  have hdeleted : ((deletedShardGroups r).foldl (Check.mark d.name r.name) s).Inv data shardIDs := by
    refine @inv_foldl _ _ _ (Inv data shardIDs) (· ∈ deletedShardGroups r) _ (fun s g hg hs => ?_) _ (fun _ hg => hg) h
    obtain ⟨hg, hdel⟩ := mem_filter.mp hg
    exact hs.mark fun sh hsh => ⟨d, hd, r, hr, g, hg, ⟨sh, hsh, rfl⟩, .inl hdel⟩
  rw [Check.checkPolicy]
  generalize (deletedShardGroups r).foldl (Check.mark d.name r.name) s = s₁ at hdeleted ⊢
  obtain ⟨e, he⟩ : ∃ e : Event, e = ⟨.now, (w.answer s₁.trace .now).1, (w.answer s₁.trace .now).2⟩ := ⟨_, rfl⟩
  have hnow : e ∈ (s₁.call w .now).2.trace := by simp [Check.call, he]
  -- the clock reading stays in the trace while the groups are deleted
  refine (@inv_foldl _ _ _ (fun s : Check => s.Inv data shardIDs ∧ e ∈ s.trace)
    (· ∈ expiredShardGroups r (w.answer s₁.trace .now).2.now) _ (fun s g hg hs => ?_) _ (fun _ hg => hg)
    ⟨hdeleted.call (by simp) (by simp) (by simp), hnow⟩).1
  have hcall : (s.call w (.deleteShardGroup d.name r.name g.id)).2.Inv data shardIDs :=
    hs.1.call (by simp) (by simp) (by simp)
  have hmem : e ∈ (s.call w (.deleteShardGroup d.name r.name g.id)).2.trace := mem_append_left _ hs.2
  rw [expireGroup]
  split_ifs
  · refine ⟨hcall.mark fun sh hsh => ?_, hmem⟩
    rw [expiredShardGroups, mem_filter] at hg
    simp only [Bool.and_eq_true, decide_eq_true_eq] at hg
    exact ⟨d, hd, r, hr, g, hg.1, ⟨sh, hsh, rfl⟩, .inr ⟨hg.2.2.1, e, hmem, by rw [he], by rw [he]; exact hg.2.2.2⟩⟩
  · exact ⟨hcall, hmem⟩

omit h

theorem exists_call (w : World) (s : Check) (c : Call) :
    ∃ e, e.call = c ∧ s.call w c = (e.outcome, ⟨s.trace ++ [e], s.deletedShardIDs⟩) := ⟨⟨c, _, _⟩, rfl, rfl⟩

theorem deleteUnused_spec (w : World) (id : ℕ) (s : Check) :
    ∃ o evs, s.deleteUnused w id = (o, ⟨s.trace ++ evs, s.deletedShardIDs⟩) ∧
      (∀ e ∈ evs, e.call = .shardInUse id ∨ e.call = .deleteShard id) ∧ (o = .ok ∨ o = .notFound → Gone evs id) := by
  obtain ⟨e, he, hcall⟩ := exists_call w s (.shardInUse id)
  rw [deleteUnused, hcall]
  split_ifs with hok
  · obtain ⟨e', he', hcall'⟩ := exists_call w ⟨s.trace ++ [e], s.deletedShardIDs⟩ (.deleteShard id)
    refine ⟨_, [e, e'], by rw [hcall', append_assoc]; rfl, by simp [he, he'], fun ho => ⟨e', by simp, ?_⟩⟩
    exact ho.imp (fun h => ⟨he', h⟩) fun h => ⟨by simp [he'], h⟩
  · refine ⟨_, [e], rfl, by simp [he], fun ho => ⟨e, by simp, .inr ⟨by simp [he], ho.resolve_left hok⟩⟩⟩

/-- **The deletion of a shard**: it is gone, or its readers are as before. -/
theorem deleteLocal_spec (w : World) (id : ℕ) (s : Check) :
    ∃ o evs, s.deleteLocal w id = (o, ⟨s.trace ++ evs, s.deletedShardIDs⟩) ∧
      (∀ e ∈ evs, (∃ b, e.call = .setShardNewReadersBlocked id b) ∨ e.call = .shardInUse id ∨ e.call = .deleteShard id) ∧
      (o = .ok ∨ o = .notFound → Gone evs id) ∧ (Gone evs id ∨ Reopened evs id) := by
  obtain ⟨e, he, hcall⟩ := exists_call w s (.setShardNewReadersBlocked id true)
  rw [deleteLocal, hcall]
  simp only
  split_ifs with hok hgone
  · obtain ⟨o, evs, hdel, hevs, hg⟩ := deleteUnused_spec w id ⟨s.trace ++ [e], s.deletedShardIDs⟩
    rw [hdel] at hgone ⊢
    have hg := (hg hgone).mono (subset_cons_self e evs)
    refine ⟨o, e :: evs, by simp, ?_, fun _ => hg, .inl hg⟩
    exact forall_mem_cons.mpr ⟨.inl ⟨true, he⟩, fun e' he' => .inr (hevs e' he')⟩
  · obtain ⟨o, evs, hdel, hevs, -⟩ := deleteUnused_spec w id ⟨s.trace ++ [e], s.deletedShardIDs⟩
    rw [hdel] at hgone ⊢
    obtain ⟨e', he', hcall'⟩ := exists_call w ⟨s.trace ++ [e] ++ evs, s.deletedShardIDs⟩
      (.setShardNewReadersBlocked id false)
    refine ⟨o, [e] ++ evs ++ [e'], by rw [hcall']; simp only [append_assoc], ?_, fun h => absurd h hgone, .inr ?_⟩
    · intro e'' he''
      simp only [mem_append, mem_singleton] at he''
      rcases he'' with (rfl | hmem) | rfl
      · exact .inl ⟨true, he⟩
      · exact .inr (hevs e'' hmem)
      · exact .inl ⟨false, he'⟩
    · by_cases hok' : e'.outcome = .ok
      · left
        have hzero : readerBlocks evs id = 0 := readerBlocks_eq_zero fun e he b hb => by
          rcases hevs e he with h | h <;> rw [h] at hb <;> cases hb
        rw [readerBlocks_append, readerBlocks_append, hzero]
        simp [readerBlocks, he, he', hok, hok']
      · exact .inr ⟨e', by simp, he', hok'⟩
  · refine ⟨_, [e], rfl, by simp [he], fun ho => ⟨e, by simp, .inr ⟨by simp [he], ho.resolve_left hok⟩⟩, .inr (.inl ?_)⟩
    simp [readerBlocks, hok]

theorem Inv.checkShard (h : s.Inv data shardIDs) (id : ℕ) : (s.checkShard w id).Inv data shardIDs ∧
      ∀ p ∈ (s.checkShard w id).deletedShardIDs, p ∈ s.deletedShardIDs ∧ p.1 ≠ id := by
  rw [Check.checkShard]
  split
  · next hnone =>
    refine ⟨h, fun p hp => ⟨hp, fun heq => ?_⟩⟩
    exact Assoc.get_eq_none.mp hnone (heq ▸ mem_map_of_mem hp)
  · next info hsome =>
    have herase : ∀ p ∈ erase id s.deletedShardIDs, p ∈ s.deletedShardIDs ∧ p.1 ≠ id := fun p hp => by
      simpa [erase] using hp
    obtain ⟨o, evs, hdel, hevs, hgone, hre⟩ := deleteLocal_spec w id
      { s with deletedShardIDs := erase id s.deletedShardIDs }
    have hinv : Inv data shardIDs ⟨s.trace ++ evs, erase id s.deletedShardIDs⟩ := by
      refine h.extend (fun p hp => (herase p hp).1) (fun e he id' hc => ?_) (fun e he id' owners hc => ?_) fun id' => ?_
      · have hid : id' = id := by
          rcases hevs e he with ⟨b, hb⟩ | hb | hb <;> rw [hb] at hc <;> cases hc
          rfl
        exact hid ▸ h.due _ (mem_of_get hsome)
      · rcases hevs e he with ⟨b, hb⟩ | hb | hb <;> rw [hb] at hc <;> cases hc
      · by_cases hid : id' = id
        · exact hid ▸ hre
        · refine .inr (.inl (readerBlocks_eq_zero fun e he b hc => ?_))
          rcases hevs e he with ⟨b', hb⟩ | hb | hb <;> rw [hb] at hc <;> cases hc
          exact hid rfl
    simp only
    rw [hdel]
    split_ifs with ho
    · refine ⟨hinv.call (by simp) (by simp) fun id' owners hc => .inr ?_, herase⟩
      cases hc
      exact (hgone ho).mono (subset_append_right _ _)
    · exact ⟨hinv, herase⟩

/-- **All three passes** keep the invariant. -/
theorem inv_deletionCheck (w : World) (data : Data S) (shardIDs : List ℕ) :
    ∃ m, Inv data shardIDs ⟨w.deletionCheck data shardIDs, m⟩ := by
  have hempty : Inv data shardIDs ⟨[], []⟩ := by
    refine ⟨?_, ?_, ?_, fun id => .inr (.inl rfl)⟩ <;> exact forall_mem_nil _
  have hpolicies := @inv_foldl _ _ (fun s d => d.retentionPolicies.foldl (Check.checkPolicy w d) s) (Inv data shardIDs)
    (· ∈ data.databases) _ (fun s d hd hs => @inv_foldl _ _ _ (Inv data shardIDs) (· ∈ d.retentionPolicies) _
      (fun s r hr hs => hs.checkPolicy hd hr) _ (fun _ hr => hr) hs) _ (fun _ hd => hd) hempty
  have hlocal : ∀ {s : Check}, s.Inv data shardIDs → ∀ ids : List ℕ, (ids.foldl (Check.checkShard w) s).Inv data shardIDs ∧
      ∀ p ∈ (ids.foldl (Check.checkShard w) s).deletedShardIDs, p.1 ∉ ids := by
    intro s hs ids
    induction ids using List.reverseRecOn with
    | nil => exact ⟨hs, fun _ _ => not_mem_nil⟩
    | append_singleton ids id ih =>
      rw [foldl_append]
      obtain ⟨hinv, hsub⟩ := ih.1.checkShard (w := w) id
      refine ⟨hinv, fun p hp hmem => ?_⟩
      obtain ⟨hp', hne⟩ := hsub p hp
      exact (mem_append.mp hmem).elim (ih.2 p hp') fun hmem => hne (mem_singleton.mp hmem)
  obtain ⟨hinv, hkeys⟩ := hlocal hpolicies shardIDs
  have hphantom := @inv_foldl _ _ (Check.dropPhantom w) (Inv data shardIDs) (fun p => p.1 ∉ shardIDs) _
    (fun s p hp hs => hs.call (by simp) (by simp) fun id owners hc => .inl (by cases hc; exact hp)) _
    (fun p hp => hkeys p ((w.perm _).mem_iff.mp hp)) hinv
  exact ⟨_, hphantom.call (by simp) (by simp) (by simp)⟩

end Check

/-! ## The metadata -/

theorem filter_eraseIdx_of_ne {shards : List ShardInfo} {i id' : ℕ} (hne : id' ≠ id)
    (hi : shards.findIdx? (fun sh => sh.id = id') = some i) :
    (shards.eraseIdx i).filter (fun sh => sh.id = id) = shards.filter fun sh => sh.id = id := by
  obtain ⟨hlt, hid, -⟩ := findIdx?_eq_some_iff_getElem.mp hi
  have hother : shards[i].id ≠ id := by
    rw [of_decide_eq_true hid]
    exact hne
  conv_rhs => rw [← take_append_drop i shards, drop_eq_getElem_cons hlt]
  rw [eraseIdx_eq_take_drop_succ, filter_append, filter_append, filter_cons_of_neg (by simpa using hother)]

theorem references_dropShard {id' : ℕ} (hne : id' ≠ id) (data : Data S) (clock : Clock) :
    references id (data.dropShard id' clock) = references id data := by
  rw [Data.dropShard]
  split
  · rfl
  · next dbs hdbs =>
    refine flatMap_updateFirst (fun d d' hd => ?_) hdbs
    obtain ⟨rs, hrs, rfl⟩ := Option.map_eq_some_iff.mp hd
    refine flatMap_updateFirst (fun r r' hr => ?_) hrs
    obtain ⟨gs, hgs, rfl⟩ := Option.map_eq_some_iff.mp hr
    refine flatMap_updateFirst (fun g g' hg => ?_) hgs
    obtain ⟨i, hi, rfl⟩ := Option.map_eq_some_iff.mp hg
    exact filter_eraseIdx_of_ne hne hi

theorem references_deleteShardGroup {data' : Data S} {database policy : String} {gid : ℕ} {clock : Clock}
    (h : data.deleteShardGroup database policy gid clock = .ok data') : references id data' = references id data := by
  rw [Data.deleteShardGroup] at h
  split at h
  · cases h
  next rpi hpolicy =>
    split at h
    · cases h
    next groups hgroups =>
      cases h
      obtain ⟨di, hdb, hrp⟩ := Data.findPolicy_eq_ok.mp hpolicy
      rw [Data.setPolicy, hdb]
      refine flatMap_replaceFirst hdb (flatMap_replaceFirst hrp (flatMap_updateFirst (fun g g' hg => ?_) hgroups))
      split_ifs at hg
      cases hg
      rfl

theorem references_pruneShardGroups (data : Data S) (t : Time) :
    references id (data.pruneShardGroups t) = references id data := by
  rw [references, Data.pruneShardGroups, Data.mapGroups, flatMap_map]
  refine flatMap_congr fun d _ => ?_
  rw [flatMap_map]
  refine flatMap_congr fun r _ => ?_
  -- a group that is removed has no shards
  induction r.shardGroups with
  | nil => rfl
  | cons g gs ih =>
    rw [filter_cons, flatMap_cons, ← ih]
    split_ifs with hkept
    · rw [flatMap_cons]
    · have hnil : g.shards = [] := by
        simp only [Data.keptByPrune, Bool.or_eq_true, decide_eq_true_eq, not_or, length_pos_iff, not_not] at hkept
        exact hkept.2
      rw [hnil, filter_nil, nil_append]

/-- **Only `DropShard`** loses a reference. -/
theorem references_effect {e : Event} (h : ∀ owners, e.call ≠ .dropShardMetaRef id owners) (data : Data S) :
    references id (effect data e) = references id data := by
  rw [effect]
  split
  · next database policy gid _ _ =>
    cases hres : data.deleteShardGroup database policy gid e.clock with
    | error _ => rfl
    | ok data' => exact references_deleteShardGroup hres
  · next id' owners hc _ =>
    refine references_dropShard (fun heq => ?_) data e.clock
    subst heq
    exact h owners hc
  · exact references_pruneShardGroups data _
  · rfl

/-- **Retention** removes only what is due, and loses track of no shard. -/
theorem deletionCheck_keepsTrack (w : World) (data : Data S) (shardIDs : List ℕ) :
    KeepsTrack data shardIDs (w.deletionCheck data shardIDs) := by
  obtain ⟨m, h⟩ := Check.inv_deletionCheck w data shardIDs
  refine ⟨h.deletes, h.drops, fun id hid hgone => ?_, fun id hgone => (h.reopens id).resolve_left hgone⟩
  refine @inv_foldl _ _ effect (fun data' => references id data' = references id data)
    (fun e => ∀ owners, e.call ≠ .dropShardMetaRef id owners) _ (fun data' e he hd => (references_effect he data').trans hd)
    _ (fun e he owners hc => ?_) rfl
  exact (h.drops e he id owners hc).elim (fun hnot => hnot hid) hgone

end Influxdb.Retention
