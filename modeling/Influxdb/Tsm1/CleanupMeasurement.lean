import Influxdb.Models.PointKey
import Influxdb.Tsm1.Types

/-!
# CleanupMeasurement — dropping the fields of a measurement (`cleanupMeasurement` of `engine.go`)

The fields of a measurement are dropped unless a key of it is found in the cache or in the files; the callback that looks
for one then returns a sentinel.  `cleanupMeasurement` compares the sentinel with its own result, which the error of the
call has shadowed, so that it reports a deletion whether there was one or not.
-/

namespace Influxdb.Tsm1

open List

/-- Why the callback of `DeleteWithLock` stops. -/
inductive Stop
  | abortErr
  | newReadersBlocked
  | panic
deriving DecidableEq

def keyFieldSeparator : List Byte := [35, 33, 126, 35]

/-- The keys of the cache and of its snapshot with their numbers of values, the keys of the files, and whether new readers
are blocked. -/
structure Stored where
  store : List (Key × ℕ) := []
  snapshot : List (Key × ℕ) := []
  files : List (List Key) := []
  blocked : Bool := false

namespace Stored

variable (s : Stored) (name : List Byte) (fields : Finset (List Byte))

def nonempty (entries : List (Key × ℕ)) : List Key := (entries.filter (·.2 ≠ 0)).map Prod.fst

/-- `ApplyEntryFn`, which does not look at the snapshot. -/
def applyEntryFn (f : Key → Except Stop Unit) : Except Stop Unit := forM (nonempty s.store) f

/-- `WalkKeys`: the keys of all files from `seek` on, each once and in order. -/
def walkKeys (seek : List Byte) (f : Key → Except Stop Unit) : Except Stop Unit :=
  if s.files = [] then .ok ()
  else if s.blocked then .error .newReadersBlocked
  else forM ((s.files.flatten.filter (seek ≤ ·)).insertionSort (· ≤ ·)).dedup f

/-- What both scans do at a key. -/
def visit (encodedName : List Byte) (k : Key) : Except Stop Unit :=
  if encodedName <+: k then
    match k[encodedName.length]? with
    | none => .error .panic
    | some c => if c = Models.comma ∨ c = keyFieldSeparator.headD 0 then .error .abortErr else .ok ()
  else .ok ()

/-- The callback of `cleanupMeasurement`. -/
def check : Except Stop Unit := do
  s.applyEntryFn (visit (Models.escapeMeasurement name))
  s.walkKeys name (visit (Models.escapeMeasurement name))

/-- `DeleteWithLock`. -/
def deleteWithLock (fn : Except Stop Unit) : Option Stop × Finset (List Byte) :=
  match fn with
  | .error err => (some err, fields)
  | .ok () => (none, fields.erase name)

/-- `cleanupMeasurement`, and the field set behind it; nothing if the callback panics. -/
def cleanupMeasurement : Option ((Bool × Option Stop) × Finset (List Byte)) :=
  -- the named result, which nothing assigns to before the last line
  let err : Option Stop := none
  match deleteWithLock name fields (s.check name) with
  | (some .panic, _) => none
  | (none, fields) | (some .abortErr, fields) => some ((err ≠ some .abortErr, none), fields)
  | (some stop, fields) => some ((false, some stop), fields)

/-- A key of the measurement goes on with a tag or with the field behind the escaped name. -/
def KeyOf (k : Key) : Prop :=
  ∃ rest, k = Models.escapeMeasurement name ++ rest ∧ (rest.head? = some Models.comma ∨ keyFieldSeparator <+: rest)

def Gone : Prop := ∀ k ∈ nonempty s.store ++ nonempty s.snapshot ++ s.files.flatten, ¬KeyOf name k

/-- The call returns, and a deletion is reported, and the measurement is missing from the field set, exactly if the
measurement is gone. -/
def Reported : Prop :=
  ∃ r fields', s.cleanupMeasurement name fields = some (r, fields') ∧ (r = (true, none) ↔ s.Gone name) ∧
    (name ∉ fields' ↔ s.Gone name)

/-- The keys that the callback stops at: the escaped name, alone or with a comma or a `#` behind it. -/
def touches (k : Key) : Bool :=
  decide (Models.escapeMeasurement name <+: k) &&
    (k[(Models.escapeMeasurement name).length]?).all fun c => c = Models.comma ∨ c = keyFieldSeparator.headD 0

/-- No key stops the callback. -/
def Clear (keys : List Key) : Prop := ∀ k ∈ keys, touches name k = false

/-- The callback is stopped, and the first key that stops it goes on behind the name. -/
def Stopped : Prop :=
  (∃ k, (nonempty s.store).find? (touches name) = some k ∧ k ≠ Models.escapeMeasurement name) ∨
    Clear name (nonempty s.store) ∧ s.blocked = false ∧ ¬Clear name s.files.flatten ∧
      Models.escapeMeasurement name ∉ s.files.flatten

/-- **The condition** on the keys: nothing stops the callback and no key of the measurement is in the snapshot; or the
keys that stop it are of other measurements and there are no fields to delete; or new readers are blocked while the
measurement has data and fields. -/
def Meets : Prop :=
  Clear name (nonempty s.store ++ s.files.flatten) ∧ (s.files = [] ∨ s.blocked = false) ∧
      (∀ k ∈ nonempty s.snapshot, ¬KeyOf name k) ∨
    s.Stopped name ∧ s.Gone name ∧ name ∉ fields ∨
    Clear name (nonempty s.store) ∧ s.files ≠ [] ∧ s.blocked = true ∧ name ∈ fields ∧
      ∃ k ∈ nonempty s.snapshot ++ s.files.flatten, KeyOf name k

variable {s name} {fields}

theorem visit_eq (k : Key) : visit (Models.escapeMeasurement name) k =
    if touches name k then
      if k = Models.escapeMeasurement name then .error .panic else .error .abortErr
    else .ok () := by
  rw [visit, touches]
  by_cases hp : Models.escapeMeasurement name <+: k
  · obtain ⟨rest, rfl⟩ := hp
    cases rest with
    | nil => simp
    | cons c rest => simp
  · simp [hp]

/-- **A scan** ends at the first key that stops the callback. -/
theorem forM_visit (keys : List Key) : forM keys (visit (Models.escapeMeasurement name)) =
    match keys.find? (touches name) with
    | none => .ok ()
    | some k => if k = Models.escapeMeasurement name then .error .panic else .error .abortErr := by
  induction keys with
  | nil => rfl
  | cons k keys ih =>
    rw [forM_cons, ih, visit_eq]
    cases ht : touches name k with
    | true =>
      rw [find?_cons_of_pos ht, if_pos rfl]
      simp only
      split_ifs <;> rfl
    | false =>
      rw [find?_cons_of_neg (by simp [ht]), if_neg (by simp)]
      rfl

theorem clear_iff_find? {keys : List Key} : Clear name keys ↔ keys.find? (touches name) = none := by
  simp [Clear]

/-- Escaping does not move a name down, so that the walk from the name on meets all its keys. -/
theorem le_esc_append (x r : List Byte) : x ≤ esc Models.commaOrSpace x ++ r := by
  induction x with
  | nil => exact le_of_not_gt (not_lt_nil _)
  | cons c x ih =>
    have hlt : ∀ c, Models.commaOrSpace c → c < backslash := by decide
    by_cases hc : Models.commaOrSpace c
    · rw [esc_cons_of_special hc]
      exact le_of_lt (List.Lex.rel (hlt c hc))
    · rw [esc_cons_of_not hc]
      exact cons_le_cons _ ih

theorem le_append_self (x r : List Byte) : x ≤ x ++ r := by
  induction x with
  | nil => exact le_of_not_gt (not_lt_nil _)
  | cons c x ih => exact cons_le_cons _ ih

theorem le_of_touches {k : Key} (h : touches name k = true) : Models.escapeMeasurement name ≤ k ∧ name ≤ k := by
  rw [touches, Bool.and_eq_true, decide_eq_true_iff] at h
  obtain ⟨⟨rest, rfl⟩, -⟩ := h
  refine ⟨le_append_self _ _, ?_⟩
  rw [Models.escapeMeasurement_eq]
  exact le_esc_append name rest

theorem touches_escapeMeasurement : touches name (Models.escapeMeasurement name) = true := by
  simp [touches]

/-- **The walk over the files** sees the bare name first. -/
theorem walk_visit (keys : List Key) :
    forM ((keys.filter (name ≤ ·)).insertionSort (· ≤ ·)).dedup (visit (Models.escapeMeasurement name)) =
      if keys.find? (touches name) = none then .ok ()
      else if Models.escapeMeasurement name ∈ keys then .error .panic else .error .abortErr := by
  have hmem : ∀ {k}, k ∈ ((keys.filter (name ≤ ·)).insertionSort (· ≤ ·)).dedup ↔ k ∈ keys ∧ name ≤ k := by
    simp
  have hsorted : (((keys.filter (name ≤ ·)).insertionSort (· ≤ ·)).dedup).Pairwise (· ≤ ·) :=
    (pairwise_insertionSort _ _).sublist (dedup_sublist _)
  generalize ((keys.filter (name ≤ ·)).insertionSort (· ≤ ·)).dedup = walked at hmem hsorted
  rw [forM_visit]
  cases hfind : walked.find? (touches name) with
  | none =>
    have hnone : keys.find? (touches name) = none := by
      refine find?_eq_none.mpr fun k hk ht => ?_
      exact find?_eq_none.mp hfind k (hmem.mpr ⟨hk, (le_of_touches ht).2⟩) ht
    rw [if_pos hnone]
  | some k =>
    obtain ⟨ht, before, behind, rfl, hbefore⟩ := find?_eq_some_iff_append.mp hfind
    have hk : k ∈ keys := (hmem.mp (by simp)).1
    have hsome : keys.find? (touches name) ≠ none := fun hnone => find?_eq_none.mp hnone k hk ht
    rw [if_neg hsome]
    refine if_congr ⟨fun heq => heq ▸ hk, fun he => ?_⟩ rfl rfl
    -- the bare name is not before `k`, so it is `k` or is sorted behind it
    have hin := hmem.mpr ⟨he, (le_of_touches touches_escapeMeasurement).2⟩
    rcases mem_append.mp hin with hin | hin
    · exact absurd touches_escapeMeasurement (by simpa using hbefore _ hin)
    · rcases mem_cons.mp hin with heq | hin
      · exact heq.symm
      · exact le_antisymm ((pairwise_cons.mp (pairwise_append.mp hsorted).2.1).1 _ hin) (le_of_touches ht).1

theorem touches_of_keyOf {k : Key} (hk : KeyOf name k) : touches name k = true := by
  obtain ⟨rest, rfl, hrest⟩ := hk
  rcases hrest with hc | ⟨t, rfl⟩
  · obtain ⟨t, rfl⟩ := head?_eq_some_iff.mp hc
    simp [touches]
  · simp [touches, keyFieldSeparator]

theorem not_keyOf_of_clear {keys : List Key} (h : Clear name keys) : ∀ k ∈ keys, ¬KeyOf name k := by
  intro k hk hof
  have ht := touches_of_keyOf hof
  rw [h k hk] at ht
  cases ht

/-- What the callback returns, from the keys. -/
theorem check_eq : s.check name =
    match (nonempty s.store).find? (touches name) with
    | some k => if k = Models.escapeMeasurement name then .error .panic else .error .abortErr
    | none =>
      if s.files = [] then .ok ()
      else if s.blocked then .error .newReadersBlocked
      else if s.files.flatten.find? (touches name) = none then .ok ()
      else if Models.escapeMeasurement name ∈ s.files.flatten then .error .panic else .error .abortErr := by
  rw [check, applyEntryFn, walkKeys, forM_visit, walk_visit]
  cases (nonempty s.store).find? (touches name) with
  | none => rfl
  | some k =>
    simp only
    split_ifs <;> rfl

/-! ## Each way to return -/

theorem reported_of_ok (h : s.check name = .ok ()) : s.Reported name fields ↔ s.Gone name := by
  simp [Reported, cleanupMeasurement, h, deleteWithLock]

theorem reported_of_abort (h : s.check name = .error .abortErr) :
    s.Reported name fields ↔ s.Gone name ∧ name ∉ fields := by
  by_cases hg : s.Gone name <;> simp [Reported, cleanupMeasurement, h, deleteWithLock, hg]

theorem reported_of_blocked (h : s.check name = .error .newReadersBlocked) :
    s.Reported name fields ↔ ¬s.Gone name ∧ name ∈ fields := by
  by_cases hg : s.Gone name <;> simp [Reported, cleanupMeasurement, h, deleteWithLock, hg]

theorem not_reported_of_panic (h : s.check name = .error .panic) : ¬s.Reported name fields := by
  simp [Reported, cleanupMeasurement, h, deleteWithLock]

theorem gone_iff (hstore : Clear name (nonempty s.store)) :
    s.Gone name ↔ ∀ k ∈ nonempty s.snapshot ++ s.files.flatten, ¬KeyOf name k := by
  rw [Gone, append_assoc, forall_mem_append, and_iff_right (not_keyOf_of_clear hstore)]

/-- **A deletion is reported and the fields are dropped exactly when the measurement is gone** iff the condition on the keys
holds. -/
theorem reported_iff : s.Reported name fields ↔ s.Meets name fields := by
  have hcheck : s.check name = _ := check_eq
  cases hfind : (nonempty s.store).find? (touches name) with
  | some k =>
    have hclear : ¬Clear name (nonempty s.store) := by simp [clear_iff_find?, hfind]
    have hclear' : ¬Clear name (nonempty s.store ++ s.files.flatten) := fun h => hclear fun k hk => h k (by simp [hk])
    simp only [hfind] at hcheck
    rw [Meets, Stopped, hfind]
    by_cases hk : k = Models.escapeMeasurement name
    · rw [if_pos hk] at hcheck
      simp [not_reported_of_panic hcheck, hclear, hclear', hk]
    · rw [if_neg hk] at hcheck
      simp [reported_of_abort hcheck, hclear, hclear', hk]
  | none =>
    have hclear : Clear name (nonempty s.store) := clear_iff_find?.mpr hfind
    have happend : Clear name (nonempty s.store ++ s.files.flatten) ↔ Clear name s.files.flatten :=
      forall_mem_append.trans (and_iff_right hclear)
    simp only [hfind] at hcheck
    rw [Meets, Stopped, hfind, happend, gone_iff hclear]
    by_cases hfiles : s.files = []
    · rw [if_pos hfiles] at hcheck
      simp [reported_of_ok hcheck, gone_iff hclear, hfiles, Clear]
    rw [if_neg hfiles] at hcheck
    cases hblocked : s.blocked with
    | true =>
      rw [hblocked, if_pos rfl] at hcheck
      rw [reported_of_blocked hcheck, gone_iff hclear]
      simp [hfiles, hclear, and_comm]
    | false =>
      rw [hblocked, if_neg Bool.false_ne_true] at hcheck
      by_cases hkeys : Clear name s.files.flatten
      · rw [if_pos (clear_iff_find?.mp hkeys)] at hcheck
        rw [reported_of_ok hcheck, gone_iff hclear, forall_mem_append, and_iff_left (not_keyOf_of_clear hkeys)]
        simp [hkeys]
      · rw [if_neg (hkeys ∘ clear_iff_find?.mpr)] at hcheck
        by_cases he : Models.escapeMeasurement name ∈ s.files.flatten
        · rw [if_pos he] at hcheck
          simp [not_reported_of_panic hcheck, hkeys, he]
        · rw [if_neg he] at hcheck
          rw [reported_of_abort hcheck, gone_iff hclear]
          simp [hkeys, he, hclear]

/-- A key of the cache keeps the fields of a measurement, and yet their deletion is reported. -/
theorem kept_and_reported : ¬Reported { store := [([99] ++ keyFieldSeparator ++ [118], 1)] } [99] {[99]} ∧
    cleanupMeasurement { store := [([99] ++ keyFieldSeparator ++ [118], 1)] } [99] {[99]} =
      some ((true, none), {[99]}) := by
  have hrun : cleanupMeasurement { store := [([99] ++ keyFieldSeparator ++ [118], 1)] } [99] {[99]} =
      some ((true, none), {[99]}) := by decide
  refine ⟨?_, hrun⟩
  rintro ⟨r, fields', h, hr, -⟩
  rw [hrun] at h
  cases h
  exact hr.mp rfl ([99] ++ keyFieldSeparator ++ [118]) (by decide) ⟨keyFieldSeparator ++ [118], by decide, .inr ⟨_, rfl⟩⟩

end Stored

end Influxdb.Tsm1
