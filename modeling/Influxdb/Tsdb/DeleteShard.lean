import Mathlib.Data.Finset.Basic

/-!
# DeleteShard — deleting the shards of a store

`Store.DeleteShard` looks the shard up, unregisters it under the lock and marks it as pending, and then does what can fail:
it gets the index of the shard and of the other shards of the database, closes the shard and removes its data and its WAL
directory.  Calls interleave between these steps.  A shard that is not registered counts as deleted, so what a call returns
for it depends on why it is not registered.
-/

namespace Influxdb.Tsdb

open List

/-- The steps of a deletion that can fail, in their order. -/
inductive DeleteStep where
  | index
  | otherIndexes
  | close
  | removeData
  | removeWal
deriving DecidableEq

def DeleteStep.next : DeleteStep → Option DeleteStep
  | index => some otherIndexes
  | otherIndexes => some close
  | close => some removeData
  | removeData => some removeWal
  | removeWal => none

/-- A call of `DeleteShard` that has not returned. -/
inductive DeleteCall where
  /-- it has found the shard and waits for the lock -/
  | found (shardID : ℕ)
  /-- it has unregistered the shard, and `step` is to be done -/
  | deleting (shardID : ℕ) (step : DeleteStep)
deriving DecidableEq

def DeleteCall.shardID : DeleteCall → ℕ
  | .found id | .deleting id _ => id

/-- The store, the directories of shards on disk, and the calls that have not returned. -/
structure Store where
  shards : Finset ℕ
  pendingShardDeletes : Finset ℕ
  dataDirs : Finset ℕ
  walDirs : Finset ℕ
  calls : List DeleteCall

/-- What happens next: a shard is looked up, call `k` takes the lock, or call `k` does a step, which succeeds or fails. -/
inductive Event where
  | lookup (shardID : ℕ)
  | lock (k : ℕ)
  | step (k : ℕ) (ok : Bool)

/-- A call returns: `nil`, or an error. -/
structure Return where
  shardID : ℕ
  ok : Bool
deriving DecidableEq

namespace Store

variable (shards dataDirs walDirs : Finset ℕ)

/-- A store without deletions.  What is on disk need not be registered: a shard that cannot be opened is not. -/
def opened : Store := ⟨shards, ∅, dataDirs, walDirs, []⟩

variable (s : Store)

/-- The effect of a step that succeeds.  `os.RemoveAll` fails if it leaves something. -/
def did (id : ℕ) : DeleteStep → Store
  | .removeData => { s with dataDirs := s.dataDirs.erase id }
  | .removeWal => { s with walDirs := s.walDirs.erase id }
  | _ => s

/-- Call `k` returns; the pending deletion is cleared on exit. -/
def exit (k id : ℕ) : Store :=
  { s with pendingShardDeletes := s.pendingShardDeletes.erase id, calls := s.calls.eraseIdx k }

/-- `DeleteShard`, between two points at which calls interleave. -/
def deleteShard : Event → Store × Option Return
  | .lookup id =>
    if id ∈ s.shards then ({ s with calls := s.calls ++ [.found id] }, none) else (s, some ⟨id, true⟩)
  | .lock k =>
    match s.calls[k]? with
    | some (.found id) =>
      if id ∈ s.pendingShardDeletes then ({ s with calls := s.calls.eraseIdx k }, some ⟨id, true⟩)
      else
        ({ s with
            shards := s.shards.erase id
            pendingShardDeletes := insert id s.pendingShardDeletes
            calls := s.calls.set k (.deleting id .index) }, none)
    | _ => (s, none)
  | .step k ok =>
    match s.calls[k]? with
    | some (.deleting id step) =>
      if ok then
        match step.next with
        | some step' => ({ s.did id step with calls := s.calls.set k (.deleting id step') }, none)
        | none => ((s.did id step).exit k id, some ⟨id, true⟩)
      else (s.exit k id, some ⟨id, false⟩)
    | _ => (s, none)

/-- A call that returns `nil` while no deletion of the shard is pending leaves none of its directories. -/
def Right (e : Event) : Prop :=
  ∀ id, (s.deleteShard e).2 = some ⟨id, true⟩ → id ∉ (s.deleteShard e).1.pendingShardDeletes →
    id ∉ (s.deleteShard e).1.dataDirs ∧ id ∉ (s.deleteShard e).1.walDirs

/-- The shards of which a deletion has failed, and those of which one has removed everything. -/
structure Outcomes where
  failed : Finset ℕ
  completed : Finset ℕ

/-- What an event adds to the outcomes: a failing step ends a deletion, the removal of the WAL directory completes it. -/
def Outcomes.after (o : Outcomes) (s : Store) : Event → Outcomes
  | .step k ok =>
    match s.calls[k]? with
    | some (.deleting id step) =>
      if ok then if step = .removeWal then { o with completed := insert id o.completed } else o
      else { o with failed := insert id o.failed }
    | _ => o
  | _ => o

/-- Every return of a run is right. -/
def AllRight (s : Store) : List Event → Prop
  | [] => True
  | e :: es => s.Right e ∧ AllRight (s.deleteShard e).1 es

/-- **The condition on a lookup**: the shard was registered in the beginning or was not on disk, and if one of its deletions
has failed, another one has completed or is pending. -/
def Meets (s : Store) (o : Outcomes) : Event → Prop
  | .lookup id =>
    (id ∈ shards ∨ (id ∉ dataDirs ∧ id ∉ walDirs)) ∧ (id ∈ o.failed → id ∈ o.completed ∨ id ∈ s.pendingShardDeletes)
  | _ => True

def AllMeet (s : Store) (o : Outcomes) : List Event → Prop
  | [] => True
  | e :: es => Meets shards dataDirs walDirs s o e ∧ AllMeet (s.deleteShard e).1 (o.after s e) es

instance (o : Outcomes) : (e : Event) → Decidable (Meets shards dataDirs walDirs s o e)
  | .lookup _ => inferInstanceAs (Decidable (_ ∧ _))
  | .lock _ | .step _ _ => isTrue trivial

instance decidableAllMeet (s : Store) (o : Outcomes) : (es : List Event) → Decidable (AllMeet shards dataDirs walDirs s o es)
  | [] => isTrue trivial
  | e :: es => @instDecidableAnd _ _ _ (decidableAllMeet (s.deleteShard e).1 (o.after s e) es)

/-- What the outcomes tell of a store that was opened with the given shards and directories. -/
structure Told (s : Store) (o : Outcomes) : Prop where
  calls : ∀ c ∈ s.calls, c.shardID ∈ shards
  pending : s.pendingShardDeletes ⊆ shards
  registered : s.shards ⊆ shards
  others : ∀ id ∉ shards, (id ∈ s.dataDirs ↔ id ∈ dataDirs) ∧ (id ∈ s.walDirs ↔ id ∈ walDirs)
  wal : ∀ id ∈ shards, id ∈ s.walDirs ↔ id ∉ o.completed
  data : ∀ id ∈ o.completed, id ∉ s.dataDirs
  /-- The data directory is gone once the WAL directory is next. -/
  dataGone : ∀ id, .deleting id .removeWal ∈ s.calls → id ∉ s.dataDirs
  deleting : ∀ id step, .deleting id step ∈ s.calls → id ∉ s.shards
  failed : ∀ id ∈ o.failed, id ∈ shards ∧ id ∉ s.shards
  unregistered : ∀ id ∈ shards, id ∉ s.shards → id ∈ s.pendingShardDeletes ∨ id ∈ o.failed ∨ id ∈ o.completed

variable {shards dataDirs walDirs} {s : Store} {o : Outcomes}

theorem told_opened (h : shards ⊆ walDirs) : Told shards dataDirs walDirs (opened shards dataDirs walDirs) ⟨∅, ∅⟩ where
  calls := forall_mem_nil _
  pending := Finset.empty_subset _
  registered := Finset.Subset.refl _
  others _ _ := ⟨Iff.rfl, Iff.rfl⟩
  wal id hid := iff_of_true (h hid) (Finset.notMem_empty id)
  data id hid := absurd hid (Finset.notMem_empty id)
  dataGone _ hid := absurd hid not_mem_nil
  deleting _ _ hid := absurd hid not_mem_nil
  failed id hid := absurd hid (Finset.notMem_empty id)
  unregistered _ hid hnot := absurd hid hnot

namespace Told

variable (h : Told shards dataDirs walDirs s o)
include h

/-- A call returns without a change. -/
theorem drop (k : ℕ) : Told shards dataDirs walDirs { s with calls := s.calls.eraseIdx k } o :=
  { h with
    calls := fun c hc => h.calls c (mem_of_mem_eraseIdx hc)
    dataGone := fun id hid => h.dataGone id (mem_of_mem_eraseIdx hid)
    deleting := fun id step hid => h.deleting id step (mem_of_mem_eraseIdx hid) }

/-- A deletion ends, and its outcome is known. -/
theorem exit {id k : ℕ} (hid : id ∈ o.failed ∨ id ∈ o.completed) :
    Told shards dataDirs walDirs (s.exit k id) o :=
  { h.drop k with
    pending := (Finset.erase_subset _ _).trans h.pending
    unregistered := fun id' hreg hnot => by
      rcases eq_or_ne id' id with rfl | hne
      · exact .inr hid
      · exact (h.unregistered id' hreg hnot).imp_left fun hp => Finset.mem_erase.mpr ⟨hne, hp⟩ }

theorem fail {id : ℕ} {step : DeleteStep} (hc : .deleting id step ∈ s.calls) :
    Told shards dataDirs walDirs s { o with failed := insert id o.failed } :=
  { h with
    failed := fun id' hid => by
      rcases Finset.mem_insert.mp hid with rfl | hid
      · exact ⟨h.calls _ hc, h.deleting id' step hc⟩
      · exact h.failed id' hid
    unregistered := fun id' hreg hnot =>
      (h.unregistered id' hreg hnot).imp_right (·.imp_left Finset.mem_insert_of_mem) }

/-- **A step that succeeds**, if another one follows. -/
theorem goOn {id k : ℕ} {step step' : DeleteStep} (hc : s.calls[k]? = some (.deleting id step))
    (hnext : step.next = some step') :
    Told shards dataDirs walDirs { s.did id step with calls := s.calls.set k (.deleting id step') } o := by
  have hmem := mem_of_getElem? hc
  have hid : id ∈ shards := h.calls _ hmem
  have hset : ∀ {c}, c ∈ s.calls.set k (.deleting id step') → c ∈ s.calls ∨ c = .deleting id step' :=
    fun hc => mem_or_eq_of_mem_set hc
  have hcalls : ∀ c ∈ s.calls.set k (.deleting id step'), c.shardID ∈ shards := by
    intro c hc
    rcases hset hc with hc | rfl
    · exact h.calls c hc
    · exact hid
  have hdel : ∀ id' st, .deleting id' st ∈ s.calls.set k (.deleting id step') → id' ∉ s.shards := by
    intro id' st hc
    rcases hset hc with hc | hc
    · exact h.deleting id' st hc
    · obtain ⟨rfl, -⟩ := DeleteCall.deleting.inj hc
      exact h.deleting _ step hmem
  cases step with
  | removeWal => cases hnext
  | removeData =>
    have hout : ∀ {id'}, id' ∉ shards → id' ≠ id := fun hno heq => hno (heq ▸ hid)
    refine { h with
      calls := hcalls
      deleting := hdel
      others := fun id' hno => ⟨?_, (h.others id' hno).2⟩
      data := fun id' hdone hdata => h.data id' hdone (Finset.mem_of_mem_erase hdata)
      dataGone := fun id' hc hdata => ?_ }
    · exact (Finset.mem_erase.trans (and_iff_right (hout hno))).trans (h.others id' hno).1
    · rcases hset hc with hc | hc
      · exact h.dataGone id' hc (Finset.mem_of_mem_erase hdata)
      · obtain ⟨rfl, -⟩ := DeleteCall.deleting.inj hc
        exact Finset.notMem_erase _ _ hdata
  | index | otherIndexes | close =>
    refine { h with calls := hcalls, deleting := hdel, dataGone := fun id' hc => ?_ }
    rcases hset hc with hc | hc
    · exact h.dataGone id' hc
    · cases hnext
      cases hc

/-- **The removal of the WAL directory** completes a deletion. -/
theorem complete {id : ℕ} (hc : .deleting id .removeWal ∈ s.calls) :
    Told shards dataDirs walDirs { s with walDirs := s.walDirs.erase id } { o with completed := insert id o.completed } := by
  have hid : id ∈ shards := h.calls _ hc
  refine { h with
    others := fun id' hno => ⟨(h.others id' hno).1, ?_⟩
    wal := fun id' hreg => ?_
    data := fun id' hdone => ?_
    unregistered := fun id' hreg hnot =>
      (h.unregistered id' hreg hnot).imp_right (·.imp_right Finset.mem_insert_of_mem) }
  · have hne : id' ≠ id := fun heq => hno (heq ▸ hid)
    exact (Finset.mem_erase.trans (and_iff_right hne)).trans (h.others id' hno).2
  · show id' ∈ s.walDirs.erase id ↔ id' ∉ insert id o.completed
    rw [Finset.mem_erase, Finset.mem_insert, not_or, h.wal id' hreg]
  · rcases Finset.mem_insert.mp hdone with rfl | hdone
    · exact h.dataGone id' hc
    · exact h.data id' hdone

/-- A call that takes the lock unregisters its shard. -/
theorem unregister {id k : ℕ} (hc : s.calls[k]? = some (.found id)) : Told shards dataDirs walDirs
    { s with
      shards := s.shards.erase id
      pendingShardDeletes := insert id s.pendingShardDeletes
      calls := s.calls.set k (.deleting id .index) } o := by
  have hid : id ∈ shards := h.calls _ (mem_of_getElem? hc)
  refine { h with
    calls := fun c hc => ?_
    pending := Finset.insert_subset hid h.pending
    registered := (Finset.erase_subset _ _).trans h.registered
    dataGone := fun id' hc => h.dataGone id' ((mem_or_eq_of_mem_set hc).resolve_right (by simp))
    deleting := fun id' step hc => ?_
    failed := fun id' hf => (h.failed id' hf).imp_right fun hno hmem => hno (Finset.mem_of_mem_erase hmem)
    unregistered := fun id' hreg hnot => ?_ }
  · rcases mem_or_eq_of_mem_set hc with hc | rfl
    · exact h.calls c hc
    · exact hid
  · rcases mem_or_eq_of_mem_set hc with hc | hc
    · exact fun hmem => h.deleting id' step hc (Finset.mem_of_mem_erase hmem)
    · obtain ⟨rfl, -⟩ := DeleteCall.deleting.inj hc
      exact Finset.notMem_erase _ _
  · rcases eq_or_ne id' id with rfl | hne
    · exact .inl (Finset.mem_insert_self _ _)
    · have hnot' : id' ∉ s.shards := fun hmem => hnot (Finset.mem_erase.mpr ⟨hne, hmem⟩)
      exact (h.unregistered id' hreg hnot').imp_left Finset.mem_insert_of_mem

/-- **Every event** keeps what the outcomes tell. -/
theorem deleteShard (e : Event) : Told shards dataDirs walDirs (s.deleteShard e).1 (o.after s e) := by
  cases e with
  | lookup id =>
    show Told _ _ _ _ o
    rw [Store.deleteShard]
    split_ifs with hid
    · refine { h with
        calls := forall_mem_append.mpr ⟨h.calls, forall_mem_singleton.mpr (h.registered hid)⟩
        dataGone := fun id' hc => h.dataGone id' ?_
        deleting := fun id' step hc => h.deleting id' step ?_ } <;> simpa using hc
    · exact h
  | lock k =>
    show Told _ _ _ _ o
    rw [Store.deleteShard]
    split
    · next id hc =>
      split_ifs
      · exact h.drop k
      · exact h.unregister hc
    · exact h
  | step k ok =>
    rw [Store.deleteShard, Outcomes.after]
    split
    · next id step hc =>
      cases ok with
      | false => exact (h.fail (mem_of_getElem? hc)).exit (.inl (Finset.mem_insert_self _ _))
      | true =>
        cases step with
        | removeWal => exact (h.complete (mem_of_getElem? hc)).exit (.inr (Finset.mem_insert_self _ _))
        | _ => exact h.goOn hc rfl
    · exact h

/-- **A lookup is right** exactly if it meets the condition. -/
theorem right_lookup (id : ℕ) : s.Right (.lookup id) ↔ Meets shards dataDirs walDirs s o (.lookup id) := by
  have hright : s.Right (.lookup id) ↔
      (id ∉ s.shards → id ∉ s.pendingShardDeletes → id ∉ s.dataDirs ∧ id ∉ s.walDirs) := by
    rw [Right, Store.deleteShard]
    split_ifs with hid <;> simp [hid]
  rw [hright, Meets]
  by_cases hid : id ∈ shards
  · rw [and_iff_right (Or.inl hid)]
    constructor
    · intro hr hf
      by_contra hno
      obtain ⟨hdone, hpending⟩ := not_or.mp hno
      exact (hr (h.failed id hf).2 hpending).2 ((h.wal id hid).mpr hdone)
    · intro hm hnot hpending
      have hdone : id ∈ o.completed := by
        rcases h.unregistered id hid hnot with hp | hf | hdone
        · exact absurd hp hpending
        · exact (hm hf).resolve_right hpending
        · exact hdone
      exact ⟨h.data id hdone, fun hwal => (h.wal id hid).mp hwal hdone⟩
  · have hnot : id ∉ s.shards := fun hmem => hid (h.registered hmem)
    have hpending : id ∉ s.pendingShardDeletes := fun hmem => hid (h.pending hmem)
    rw [imp_iff_right hnot, imp_iff_right hpending, (h.others id hid).1, (h.others id hid).2]
    exact ⟨fun hgone => ⟨.inr hgone, fun hf => absurd (h.failed id hf).1 hid⟩, fun hm => hm.1.resolve_left hid⟩

theorem right_iff_meets (e : Event) : s.Right e ↔ Meets shards dataDirs walDirs s o e := by
  cases e with
  | lookup id => exact h.right_lookup id
  | lock k =>
    refine iff_of_true (fun id hret hpending => ?_) trivial
    rw [Store.deleteShard] at hret hpending
    split at hret
    · next id' hcall =>
      simp only [hcall] at hpending
      split_ifs at hret hpending with hid
      obtain ⟨rfl, -⟩ := Return.mk.inj (Option.some.inj hret)
      exact absurd hid hpending
    · cases hret
  | step k ok =>
    refine iff_of_true (fun id hret _ => ?_) trivial
    rw [Store.deleteShard] at hret ⊢
    split at hret
    · next id' step hcall =>
      split_ifs at hret with hok
      · cases step <;> simp only [DeleteStep.next, reduceCtorEq] at hret
        obtain ⟨rfl, -⟩ := Return.mk.inj (Option.some.inj hret)
        have hdata := h.dataGone _ (mem_of_getElem? hcall)
        simp only [hok, if_true, DeleteStep.next]
        exact ⟨hdata, Finset.notMem_erase _ _⟩
      · simp at hret
    · cases hret

theorem allRight_iff (es : List Event) : s.AllRight es ↔ AllMeet shards dataDirs walDirs s o es := by
  induction es generalizing s o with
  | nil => exact Iff.rfl
  | cons e es ih => exact and_congr (h.right_iff_meets e) (ih (h.deleteShard e))

end Told

/-- **Every call that returns `nil` has deleted the shard** iff no shard is looked up after one of its deletions has failed
(and none of them has completed or is pending), and every shard that is looked up was registered or not on disk in the
beginning. -/
theorem deleteShard_right_iff (h : shards ⊆ walDirs) (es : List Event) :
    (opened shards dataDirs walDirs).AllRight es ↔
      AllMeet shards dataDirs walDirs (opened shards dataDirs walDirs) ⟨∅, ∅⟩ es :=
  (told_opened h).allRight_iff es

/-- The deletion of shard 1 completes; the one of shard 2 fails while it is closed, and is not tried again. -/
theorem oneDeleted_right : (opened {1, 2} {1, 2} {1, 2}).AllRight
    [.lookup 1, .lookup 2, .lock 1, .lock 0, .step 1 true, .step 0 true, .step 0 true, .step 1 true, .step 1 false,
      .step 0 true, .step 0 true, .step 0 true, .lookup 1] :=
  (deleteShard_right_iff (by decide) _).mpr (by decide)

/-- A shard whose `Close` has failed during its deletion. -/
def closeFailed : Store :=
  [Event.lookup 1, .lock 0, .step 0 true, .step 0 true, .step 0 false].foldl (fun s e => (s.deleteShard e).1)
    (opened {1} {1} {1})

theorem failed_deletion_cannot_be_retried :
    (closeFailed.deleteShard (.lookup 1)).2 = some ⟨1, true⟩ ∧ 1 ∉ closeFailed.pendingShardDeletes ∧
      1 ∈ closeFailed.dataDirs ∧ 1 ∈ closeFailed.walDirs := by
  decide

end Store

end Influxdb.Tsdb
