import Influxdb.Tsm1.Tombstone
import Mathlib.Data.List.TakeWhile

/-!
# TombstoneFile — no tombstone is lost

The records of a member are read back, and a member behind complete ones does not change what is read from them.  So with
no file or one of the last version without a cut member, `AddRange`, `Flush` and `Rollback` keep an invariant: a fresh walk
yields what was there at the start and what has been flushed.  A file of an older version is written anew with the new
tombstones only, and behind a cut member the new one cannot be found.
-/

namespace Influxdb.Tsm1.Disk

open List

variable {disk : Option (List Byte)} {keys : List Key} {min max : Word} {file : List Byte}

namespace Tombstoner

/-! ## Records and members -/

theorem length_writeTombstone (ts : Tombstone) : (writeTombstone ts).length = 4 + ts.key.length + 16 := by
  simp only [writeTombstone, length_append, length_putUint32, length_putUint64]
  omega

/-- The keys are short enough for their length. -/
def Short (ts : List Tombstone) : Prop := ∀ t ∈ ts, t.key.length < 2 ^ 32

theorem short_nil : Short [] := fun _ h => nomatch h

theorem readRecords_cons {t : Tombstone} (ht : t.key.length < 2 ^ 32) (fuel : ℕ) (rest : List Byte) :
    readRecords none (fuel + 1) (writeTombstone t ++ rest) =
      (t :: (readRecords none fuel rest).1, (readRecords none fuel rest).2) := by
  have hlen := length_writeTombstone t
  have hkeyLen : (uint32 (writeTombstone t ++ rest)).toNat = t.key.length := by
    rw [writeTombstone, append_assoc, uint32_putUint32_append, BitVec.toNat_ofNat]
    exact Nat.mod_eq_of_lt ht
  have h4 : (writeTombstone t ++ rest).drop 4 = t.key ++ (putUint64 t.min ++ (putUint64 t.max ++ rest)) := by
    simp only [writeTombstone, append_assoc]
    rw [drop_left' (length_putUint32 _)]
  have hmin : (writeTombstone t ++ rest).drop (4 + t.key.length) = putUint64 t.min ++ (putUint64 t.max ++ rest) := by
    rw [← drop_drop, h4, drop_left]
  have hmax : (writeTombstone t ++ rest).drop (4 + t.key.length + 8) = putUint64 t.max ++ rest := by
    rw [← drop_drop, hmin, drop_left' (length_putUint64 _)]
  have hrest : (writeTombstone t ++ rest).drop (4 + t.key.length + 16) = rest := drop_left' hlen
  rw [readRecords, if_neg (by rw [length_append]; omega)]
  simp only [hkeyLen]
  rw [if_neg (by rw [length_append]; omega), h4, hmin, hmax, hrest, take_left, uint64_putUint64_append,
    uint64_putUint64_append]

/-- **Records** can be read back. -/
theorem readRecords_writeTombstones : ∀ ts fuel, Short ts →
    (writeTombstones ts).length < fuel → readRecords none fuel (writeTombstones ts) = (ts, none)
  | _, 0, _, hfuel => absurd hfuel (Nat.not_lt_zero _)
  | [], fuel + 1, _, _ => rfl
  | t :: ts, fuel + 1, hshort, hfuel => by
    have hlen := length_writeTombstone t
    rw [writeTombstones, flatMap_cons, ← writeTombstones] at hfuel ⊢
    rw [length_append] at hfuel
    rw [readRecords_cons (hshort t mem_cons_self), readRecords_writeTombstones ts fuel
      (forall_mem_cons.mp hshort).2 (by omega)]

variable {g : Gzip} (hg : g.Faithful) {b : List Byte} {l ts : List Tombstone}

include hg

theorem compress_ne_nil (x : List Byte) : g.compress x ≠ [] := by
  intro hnil
  have h := hg.next_lt (hg.next_compress x [])
  rw [hnil] at h
  nomatch h

theorem readMembers_compress (hts : Short ts) {fuel : ℕ} (hfuel : 0 < fuel) :
    readMembers g [] fuel (g.compress (writeTombstones ts)) = (ts, none) := by
  obtain ⟨fuel, rfl⟩ : ∃ k, fuel = k + 1 := ⟨fuel - 1, by omega⟩
  have hnext := hg.next_compress (writeTombstones ts) []
  rw [append_nil] at hnext
  rw [readMembers, hnext]
  simp only [readMember]
  rw [readRecords_writeTombstones ts _ hts (Nat.lt_succ_self _)]
  simp

/-- **Members.** One more behind complete members that are read without an error. -/
theorem readMembers_append (hts : Short ts) (hwhole : g.Whole b) (hne : b ≠ []) : ∀ {fuel fuel' : ℕ} {l : List Tombstone},
    readMembers g [] fuel b = (l, none) → b.length < fuel' →
      readMembers g [] fuel' (b ++ g.compress (writeTombstones ts)) = (l ++ ts, none) := by
  induction hwhole with
  | nil => exact absurd rfl hne
  | @cons b content rest hnext hrest ih =>
    rintro (_ | fuel) (_ | fuel') l h hlen
    · nomatch h
    · nomatch h
    · exact absurd hlen (Nat.not_lt_zero _)
    have hlt := hg.next_lt hnext
    rw [readMembers, hnext] at h
    rw [readMembers, hg.next_append hnext]
    simp only [readMember] at h ⊢
    rcases hrec : readRecords none (content.length + 1) content with ⟨l₁, _ | err⟩
    · rw [hrec] at h
      simp only at h ⊢
      rw [if_neg (fun hnil => compress_ne_nil hg _ (append_eq_nil_iff.mp hnil).2)]
      by_cases hnil : rest = []
      · rw [if_pos hnil] at h
        cases h
        rw [hnil, nil_append, readMembers_compress hg hts (by omega)]
      · rw [if_neg hnil] at h
        rcases hr : readMembers g [] fuel rest with ⟨l₂, e⟩
        rw [hr] at h
        cases h
        rw [ih hnil hr (by omega)]
        simp
    · rw [hrec] at h
      nomatch h

omit hg

/-! ## Files -/

/-- What a fresh walk over the file yields. -/
def freshWalk (g : Gzip) (disk : Option (List Byte)) : Walked := (walk g (new disk)).1

/-- There is no file, or one of the last version with complete members. -/
def Appendable (g : Gzip) : Option (List Byte) → Prop
  | none => True
  | some file => 4 ≤ file.length ∧ uint32 file = v4header ∧ g.Whole (file.drop 4)

/-- What members are appended to: the file, or the header of a new one. -/
def base (disk : Option (List Byte)) : List Byte := disk.getD (putUint32 v4header)

theorem base_header (h : Appendable g disk) :
    4 ≤ (base disk).length ∧ uint32 (base disk) = v4header ∧ g.Whole ((base disk).drop 4) := by
  cases disk with
  | none => exact ⟨by simp [base], by decide, .nil⟩
  | some file => exact h

theorem uint32_append {x : List Byte} (h : 4 ≤ x.length) (y : List Byte) : uint32 (x ++ y) = uint32 x := by
  rw [uint32, uint32, take_append_of_le_length h]

theorem walk_v4 (hdisk : t.disk = some file) (hlen : 4 ≤ file.length) (hheader : uint32 file = v4header) :
    walk g t = ((readTombstoneV4 g t file).1, { t with lastAppliedOffset := (readTombstoneV4 g t file).2 }) := by
  have hne : file ≠ [] := length_pos_iff.mp (by omega)
  rw [walk, hdisk]
  simp only [if_neg hne, uint32_append hlen, hheader, if_true]

/-- The first member of a file that is not empty has a header. -/
theorem readTombstoneV4_eq (hb : file.drop (if t.lastAppliedOffset ≠ 0 then t.lastAppliedOffset else headerSize) = b)
    (hwhole : g.Whole b) (hne : b ≠ []) : readTombstoneV4 g t file = (readMembers g t.tombstones b.length b,
      if (readMembers g t.tombstones b.length b).2 = none then file.length else t.lastAppliedOffset) := by
  rw [readTombstoneV4, hb, if_neg hne]
  cases hwhole with
  | nil => exact absurd rfl hne
  | cons hnext _ => simp only [hnext]

theorem freshWalk_v4 (hlen : 4 ≤ file.length) (hheader : uint32 file = v4header) (hwhole : g.Whole (file.drop 4)) :
    freshWalk g (some file) =
      if file.drop 4 = [] then ([], none) else readMembers g [] (file.drop 4).length (file.drop 4) := by
  rw [freshWalk, walk_v4 rfl hlen hheader]
  split_ifs with hnil
  · simp [readTombstoneV4, new, headerSize, hnil]
  · rw [@readTombstoneV4_eq file g _ (new (some file)) rfl hwhole hnil]
    rfl

theorem freshWalk_base (h : Appendable g disk) : freshWalk g disk = if (base disk).drop 4 = [] then ([], none)
      else readMembers g [] ((base disk).drop 4).length ((base disk).drop 4) := by
  cases disk with
  | none => rfl
  | some file => exact freshWalk_v4 h.1 h.2.1 h.2.2

/-- **A member is appended.**  The file stays one of the last version, and its tombstones come last. -/
theorem freshWalk_append (hg : g.Faithful) (hdisk : Appendable g disk)
    (hwalk : freshWalk g disk = (l, none)) (hts : Short ts) :
    Appendable g (some (base disk ++ g.compress (writeTombstones ts))) ∧
      freshWalk g (some (base disk ++ g.compress (writeTombstones ts))) = (l ++ ts, none) := by
  obtain ⟨hlen, hheader, hwhole⟩ := base_header hdisk
  have hlen' : 4 ≤ (base disk ++ g.compress (writeTombstones ts)).length := by
    rw [length_append]
    omega
  have hheader' := (uint32_append hlen (g.compress (writeTombstones ts))).trans hheader
  have hdrop : (base disk ++ g.compress (writeTombstones ts)).drop 4 =
      (base disk).drop 4 ++ g.compress (writeTombstones ts) := drop_append_of_le_length hlen
  have hwhole' := hdrop ▸ hwhole.append hg (writeTombstones ts)
  refine ⟨⟨hlen', hheader', hwhole'⟩, ?_⟩
  have hne := compress_ne_nil hg (writeTombstones ts)
  rw [freshWalk_base hdisk] at hwalk
  rw [freshWalk_v4 hlen' hheader' hwhole', hdrop, if_neg (fun hnil => hne (append_eq_nil_iff.mp hnil).2)]
  have hpos := length_pos_iff.mpr hne
  split at hwalk
  case isTrue hnil =>
    cases hwalk
    rw [hnil, nil_append, nil_append]
    exact readMembers_compress hg hts hpos
  case isFalse hnil =>
    refine readMembers_append hg hts hwhole hnil hwalk ?_
    rw [length_append]
    omega

/-! ## Runs -/

/-- What is done with a tombstoner. -/
inductive Op where
  | addRange (keys : List Key) (min max : Word)
  | flush
  | rollback

def step (g : Gzip) (filterFn : Key → Bool) (t : Tombstoner) : Op → Tombstoner
  | .addRange keys min max => addRange g filterFn t keys min max
  | .flush => flush g t
  | .rollback => rollback t

/-- The tombstones that have been flushed, and those that wait for it. -/
structure Ledger where
  flushed : List Tombstone
  waiting : List Tombstone

variable (filterFn : Key → Bool)

/-- What a call means for them. -/
def Ledger.step (a : Ledger) : Op → Ledger
  | .addRange keys min max => { a with waiting := a.waiting ++ tombstonesOf filterFn keys min max }
  | .flush => ⟨a.flushed ++ a.waiting, []⟩
  | .rollback => { a with waiting := [] }

def ledger (ops : List Op) : Ledger := ops.foldl (Ledger.step filterFn) ⟨[], []⟩

/-- The keys of a call are short enough for their length. -/
def Op.Short : Op → Prop
  | .addRange keys _ _ => ∀ k ∈ keys, k.length < 2 ^ 32
  | _ => True

/-- A call that adds nothing. -/
def Op.Idle : Op → Prop
  | .addRange keys _ _ => ∀ k ∈ keys, filterFn k = false
  | _ => True

theorem tombstonesOf_dropWhile (min max : Word) (keys : List Key) :
    tombstonesOf filterFn (keys.dropWhile (!filterFn ·)) min max = tombstonesOf filterFn keys min max := by
  induction keys with
  | nil => rfl
  | cons k keys ih =>
    rw [dropWhile_cons]
    split
    case isTrue hk =>
      rw [ih]
      simp only [Bool.not_eq_true'] at hk
      simp [tombstonesOf, hk]
    case isFalse => rfl

/-- The tombstoner between calls: the file has the tombstones of the start and the flushed ones, and the file in
progress is this file with the waiting ones in its compressor. -/
structure Tracks (g : Gzip) (ts : List Tombstone) (t : Tombstoner) (a : Ledger) : Prop where
  disk : Appendable g t.disk
  walk : freshWalk g t.disk = (ts ++ a.flushed, none)
  short : Short a.waiting
  idle : t.pending = none → a.waiting = []
  pending : ∀ p, t.pending = some p → p = (base t.disk, writeTombstones a.waiting)

variable {t : Tombstoner} {a : Ledger} {filterFn : Key → Bool} {op : Op}

theorem Tracks.prepareV4 (h : Tracks g ts t a) :
    t.prepareV4 = some { t with pending := some (base t.disk, writeTombstones a.waiting) } := by
  rcases hp : t.pending with _ | p
  · rw [h.idle hp, Tombstoner.prepareV4, hp]
    have hdisk := h.disk
    rcases hd : t.disk with _ | file
    · rfl
    · rw [hd] at hdisk
      simp only [if_pos hdisk.1, hdisk.2.1, ne_eq, not_true, if_false]
      rfl
  · rw [Tombstoner.prepareV4, ← h.pending p hp]
    simp only [hp]
    rw [← hp]

theorem Tracks.addRange_eq (h : Tracks g ts t a) (filterFn : Key → Bool) (keys : List Key) (min max : Word) :
    Tombstoner.addRange g filterFn t keys min max = if tombstonesOf filterFn keys min max = [] then t else { t with
        pending := some (base t.disk, writeTombstones (a.waiting ++ tombstonesOf filterFn keys min max)) } := by
  rw [Tombstoner.addRange, ← tombstonesOf_dropWhile]
  rcases hd : keys.dropWhile (!filterFn ·) with _ | ⟨key, rest⟩
  · exact (if_pos rfl).symm
  · have hkey : filterFn key = true := by
      have hhead := head?_dropWhile_not (fun k => !filterFn k) keys
      rw [hd] at hhead
      simpa using hhead
    have hne : tombstonesOf filterFn (key :: rest) min max ≠ [] := by
      simp [tombstonesOf, hkey]
    rw [if_neg hne, h.prepareV4]
    simp [writeTombstones]

theorem short_tombstonesOf (h : ∀ k ∈ keys, k.length < 2 ^ 32) : Short (tombstonesOf filterFn keys min max) := by
  refine forall_mem_map.mpr fun k hk => ?_
  exact h k (mem_of_mem_filter hk)

theorem Tracks.addRange (h : Tracks g ts t a) (hkeys : ∀ k ∈ keys, k.length < 2 ^ 32) :
    Tracks g ts (addRange g filterFn t keys min max)
      { a with waiting := a.waiting ++ tombstonesOf filterFn keys min max } := by
  rw [h.addRange_eq]
  split_ifs with hnil
  · rw [hnil, append_nil]
    exact h
  · exact ⟨h.disk, h.walk, forall_mem_append.mpr ⟨h.short, short_tombstonesOf hkeys⟩, by simp, by simp⟩

theorem Tracks.flush (hg : g.Faithful) (h : Tracks g ts t a) :
    Tracks g ts (flush g t) ⟨a.flushed ++ a.waiting, []⟩ := by
  rcases hp : t.pending with _ | p
  · rw [Tombstoner.flush, commit, hp, h.idle hp, append_nil]
    exact ⟨h.disk, h.walk, short_nil, fun _ => rfl, by simp [hp]⟩
  · obtain rfl := h.pending p hp
    obtain ⟨hdisk, hwalk⟩ := freshWalk_append hg h.disk h.walk h.short
    rw [append_assoc] at hwalk
    rw [Tombstoner.flush, commit, hp]
    exact ⟨hdisk, hwalk, short_nil, fun _ => rfl, by simp⟩

theorem Tracks.step (hg : g.Faithful) (h : Tracks g ts t a) (hop : op.Short) :
    Tracks g ts (step g filterFn t op) (a.step filterFn op) := by
  cases op with
  | addRange keys min max => exact h.addRange hop
  | flush => exact h.flush hg
  | rollback => exact ⟨h.disk, h.walk, short_nil, fun _ => rfl, fun p hp => (nomatch hp)⟩

/-- **Every run** keeps to its ledger. -/
theorem Tracks.run (hg : g.Faithful) (h : Tracks g ts t a) {ops : List Op} (hops : ∀ op ∈ ops, op.Short) :
    Tracks g ts (ops.foldl (Tombstoner.step g filterFn) t) (ops.foldl (Ledger.step filterFn) a) := by
  induction ops generalizing t a with
  | nil => exact h
  | cons op ops ih =>
    refine ih (h.step hg (hops op mem_cons_self)) ?_
    intro op' h'
    exact hops op' (mem_cons_of_mem _ h')

theorem step_idle (hp : t.pending = none) (hop : op.Idle filterFn) :
    step g filterFn t op = t ∧ Ledger.step filterFn ⟨[], []⟩ op = ⟨[], []⟩ := by
  cases op with
  | addRange keys min max =>
    have hnil : keys.filter filterFn = [] := filter_eq_nil_iff.mpr fun k hk => by simp [hop k hk]
    have hdrop : keys.dropWhile (!filterFn ·) = [] :=
      dropWhile_eq_nil_iff.mpr fun k hk => by simp [hop k hk]
    exact ⟨by rw [step, addRange, hdrop], by rw [Ledger.step, tombstonesOf, hnil]; rfl⟩
  | flush => exact ⟨by rw [step, flush, commit, hp], rfl⟩
  | rollback => exact ⟨by rw [step, rollback, ← hp], rfl⟩

theorem run_idle (hp : t.pending = none) : ∀ {ops : List Op}, (∀ op ∈ ops, op.Idle filterFn) →
    ops.foldl (step g filterFn) t = t ∧ ops.foldl (Ledger.step filterFn) ⟨[], []⟩ = ⟨[], []⟩
  | [], _ => ⟨rfl, rfl⟩
  | op :: ops, h => by
    obtain ⟨ht, ha⟩ := step_idle (g := g) hp (h op mem_cons_self)
    rw [foldl_cons, foldl_cons, ht, ha]
    exact run_idle hp (forall_mem_cons.mp h).2

/-- The file has a header of the second version. -/
def IsV2 : Option (List Byte) → Prop
  | none => False
  | some file => uint32 (file ++ replicate 4 0) = v2header

/-- The calls keep what is on disk: there is no file or one of the last version with complete members, or the file is none
of the second version and nothing is added. -/
def Keeps (g : Gzip) (filterFn : Key → Bool) (disk : Option (List Byte)) (ops : List Op) : Prop :=
  Appendable g disk ∨ (¬IsV2 disk ∧ ∀ op ∈ ops, op.Idle filterFn)

/-- **No tombstone is lost.**  After every run on a file that is kept and readable, a fresh walk yields the tombstones
of the start and then those that were flushed, and no others. -/
theorem freshWalk_run (g : Gzip) (hg : g.Faithful) (filterFn : Key → Bool) (disk : Option (List Byte))
    (ts : List Tombstone) (hwalk : freshWalk g disk = (ts, none)) (ops : List Op) (hshort : ∀ op ∈ ops, op.Short)
    (hkeeps : Keeps g filterFn disk ops) :
    freshWalk g (ops.foldl (step g filterFn) (new disk)).disk = (ts ++ (ledger filterFn ops).flushed, none) := by
  rcases hkeeps with hdisk | ⟨-, hidle⟩
  · have hstart : Tracks g ts (new disk) ⟨[], []⟩ := by
      refine ⟨hdisk, ?_, short_nil, fun _ => rfl, fun p hp => (nomatch hp)⟩
      rw [append_nil]
      exact hwalk
    exact (hstart.run hg hshort).walk
  · obtain ⟨ht, ha⟩ := run_idle (g := g) (t := new disk) rfl hidle
    rw [ht, ledger, ha, append_nil]
    exact hwalk

/-- A file of the last version with one deletion, and behind it a byte of a member that was cut off. -/
def cutFile : List Byte := putUint32 v4header ++ Gzip.plain.compress (writeTombstone ⟨[99], 1, 2⟩) ++ [0x1f]

/-- Two deletions are flushed behind the one of the file, and one is rolled back. -/
theorem freshWalk_run_flushed : freshWalk .plain
        (([.addRange [[99]] 3 4, .flush, .addRange [[100]] 3 4, .flush, .addRange [[99]] 5 6, .rollback] : List Op).foldl
          (step .plain fun _ => true) (new (some cutFile.dropLast))).disk =
      ([⟨[99], 1, 2⟩, ⟨[99], 3, 4⟩, ⟨[100], 3, 4⟩], none) := by
  have hwhole : Gzip.plain.Whole (cutFile.dropLast.drop 4) :=
    Gzip.Whole.nil.append Gzip.plain_faithful (writeTombstone ⟨[99], 1, 2⟩)
  exact freshWalk_run .plain Gzip.plain_faithful (fun _ => true) (some cutFile.dropLast) [⟨[99], 1, 2⟩] (by decide +kernel)
    [.addRange [[99]] 3 4, .flush, .addRange [[100]] 3 4, .flush, .addRange [[99]] 5 6, .rollback]
    (by simp [Op.Short]) (.inl ⟨by decide, by decide, hwhole⟩)

/-- A deletion is on disk in the third version.  The next one replaces it, before any `Flush` and in spite of a
`Rollback`.  In the second version the key of a deletion is overwritten by its times.  In the last version a member is
written behind one that was cut off, and cannot be read. -/
theorem freshWalk_older_version :
    freshWalk .plain (some (putUint32 v3header ++ Gzip.plain.compress (writeTombstone ⟨[99], 1, 2⟩))) =
        ([⟨[99], 1, 2⟩], none) ∧ freshWalk .plain
          (([.addRange [[100]] 3 4, .rollback] : List Op).foldl (step .plain fun _ => true)
            (new (some (putUint32 v3header ++ Gzip.plain.compress (writeTombstone ⟨[99], 1, 2⟩))))).disk =
        ([⟨[100], 3, 4⟩], none) ∧
      freshWalk .plain (some (putUint32 v2header ++ writeTombstone ⟨[99], 1, 2⟩)) = ([⟨[0], 1, 2⟩], none) ∧
      freshWalk .plain (some cutFile) = ([⟨[99], 1, 2⟩], none) ∧
      freshWalk .plain (([.addRange [[100]] 3 4, .flush] : List Op).foldl (step .plain fun _ => true)
        (new (some cutFile))).disk = ([⟨[99], 1, 2⟩], some "gzip: invalid header") := by
  decide +kernel

/-! ## Reading on -/

/-- The file holds the tombstones, all of them have been applied, and nothing waits. -/
structure Synced (g : Gzip) (t : Tombstoner) (ts : List Tombstone) : Prop where
  disk : Appendable g t.disk
  walk : freshWalk g t.disk = (ts, none)
  pending : t.pending = none
  tombstones : t.tombstones = []
  offset : (if t.lastAppliedOffset ≠ 0 then t.lastAppliedOffset else headerSize) = (base t.disk).length

theorem Synced.tracks (h : Synced g t ts) : Tracks g ts t ⟨[], []⟩ := by
  refine ⟨h.disk, ?_, short_nil, fun _ => rfl, by simp [h.pending]⟩
  rw [append_nil]
  exact h.walk

theorem Synced.walk_again (h : Synced g t ts) : Tombstoner.walk g t = (([], none), t) := by
  rcases hd : t.disk with _ | file
  · rw [Tombstoner.walk, hd]
  · have hdisk := h.disk
    have hoffset := h.offset
    rw [hd] at hdisk hoffset
    rw [walk_v4 hd hdisk.1 hdisk.2.1, readTombstoneV4, hoffset]
    simp only [base, Option.getD_some, drop_length, if_true]

/-- **A walk after a deletion** yields its tombstones, and then nothing is left to apply. -/
theorem Synced.walk_flush (hg : g.Faithful) (h : Synced g t ts) (hkeys : ∀ k ∈ keys, k.length < 2 ^ 32) :
    ∃ t', Tombstoner.walk g (flush g (addRange g filterFn t keys min max)) =
        ((tombstonesOf filterFn keys min max, none), t') ∧ Synced g t' (ts ++ tombstonesOf filterFn keys min max) := by
  rw [h.tracks.addRange_eq]
  split_ifs with hnil
  · rw [hnil, flush, commit, h.pending, append_nil]
    exact ⟨t, h.walk_again, h⟩
  have hshort : Short (tombstonesOf filterFn keys min max) := short_tombstonesOf hkeys
  generalize tombstonesOf filterFn keys min max = new at hshort
  obtain ⟨hdisk, hwalk⟩ := freshWalk_append hg h.disk h.walk hshort
  have hne := compress_ne_nil hg (writeTombstones new)
  have hflush : flush g { t with pending := some (base t.disk, writeTombstones ([] ++ new)) } =
      { t with disk := some (base t.disk ++ g.compress (writeTombstones new)), pending := none } := rfl
  have hwhole : g.Whole (g.compress (writeTombstones new)) := Gzip.Whole.nil.append hg _
  rw [hflush, walk_v4 rfl hdisk.1 hdisk.2.1, readTombstoneV4_eq (by rw [h.offset, drop_left]) hwhole hne]
  simp only [h.tombstones, readMembers_compress hg hshort (length_pos_iff.mpr hne), if_true]
  have hpos : (base t.disk ++ g.compress (writeTombstones new)).length ≠ 0 := Nat.ne_of_gt (Nat.zero_lt_of_lt hdisk.1)
  exact ⟨_, rfl, hdisk, hwalk, rfl, rfl, if_pos hpos⟩

theorem synced_new (disk : Option (List Byte)) (hdisk : Appendable g disk) (hwalk : freshWalk g disk = (ts, none)) :
    ∃ t', Tombstoner.walk g (new disk) = ((ts, none), t') ∧ Synced g t' ts := by
  rcases disk with _ | file
  · cases hwalk
    exact ⟨new none, rfl, hdisk, rfl, rfl, rfl, rfl⟩
  · have heq := walk_v4 (g := g) (t := new (some file)) rfl hdisk.1 hdisk.2.1
    have hts : (readTombstoneV4 g (new (some file)) file).1 = (ts, none) := by
      rw [← hwalk, freshWalk, heq]
    rw [hts] at heq
    refine ⟨_, heq, hdisk, hwalk, rfl, rfl, ?_⟩
    have hlen := hdisk.1
    by_cases hnil : file.drop headerSize = []
    · have := drop_eq_nil_iff.mp hnil
      simp only [readTombstoneV4, new, ne_eq, not_true, if_false, hnil, if_true, base, Option.getD_some]
      rw [headerSize] at this ⊢
      omega
    · have hread := @readTombstoneV4_eq file g _ (new (some file)) rfl hdisk.2.2 hnil
      rw [hread] at hts ⊢
      simp only at hts ⊢
      rw [hts]
      simp only [if_true, base]
      exact if_pos (by omega)

end Tombstoner

end Influxdb.Tsm1.Disk
