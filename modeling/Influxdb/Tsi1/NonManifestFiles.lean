import Mathlib.Data.List.Infix

/-!
# NonManifestFiles — opening a partition cleans up its directory (`partition.go`)

`Partition.Open` hands the names in its directory that the manifest does not list to `os.RemoveAll`.  They are base names, so
they are looked up in the working directory of the process.  Of the disk we keep the files that were there before: a file that
`Open` creates is in the manifest, or comes last.
-/

namespace Influxdb.Tsi1.Disk

/-- An absolute path, as its components. -/
abbrev Path := List String

/-- Where the process runs, and how the calls end that `Open` makes. -/
structure Env where
  cwd : Path
  /-- The path, the version, the listing of the directory and the series set are fine. -/
  valid : Bool
  opens : String → Bool
  /-- A log file is below the threshold, so that it can be the active one. -/
  small : String → Bool
  removes : String → Bool
  prepends : Bool

def manifestFileName : String := "MANIFEST"

def isLogFile (f : String) : Bool := ".tsl".toList.isSuffixOf f.toList

def isIndexFile (f : String) : Bool := ".tsi".toList.isSuffixOf f.toList

/-- `RemoveAll`: the path and all below it. -/
def removeAll (p : Path) (fs : List Path) : List Path := fs.filter fun q => ¬ p <+: q

/-- `Readdir`: the base names in a directory. -/
def readdir (dir : Path) (fs : List Path) : List String :=
  fs.filterMap fun q => if q.dropLast = dir then q.getLast? else none

variable (env : Env) (dir : Path) (m : List String) (fs : List Path)

/-- The names that `deleteNonManifestFiles` skips. -/
def isListed (n : String) : Bool := n == manifestFileName || m.contains n

/-- The loop of `deleteNonManifestFiles` over the names in the directory. -/
def deleteNonManifestFiles : List String → List Path → Option (List Path)
  | [], fs => some fs
  | n :: ns, fs =>
    if isListed m n then deleteNonManifestFiles ns fs
    else if env.removes n then deleteNonManifestFiles ns (removeAll (env.cwd ++ [n]) fs)
    else none

/-- `openLogFile`, which creates the file when it is missing, and `openIndexFile`; other names are not opened. -/
def openFile (f : String) : Bool :=
  if isLogFile f then env.opens f else !isIndexFile f || env.opens f && fs.contains (dir ++ [f])

/-- `ReadManifestFile`, or a new manifest when there is none. -/
def readManifest : List String := if dir ++ [manifestFileName] ∈ fs then m else []

/-- `Partition.Open`, when the manifest on disk lists `m`; `prependActiveLogFile` needs the directory. -/
def openPartition : Option (List Path) :=
  let m := readManifest dir m fs
  if env.valid ∧ m.all (openFile env dir fs) then do
    let fs ← deleteNonManifestFiles env m (readdir dir fs) (dir :: fs)
    if m.any (fun f => isLogFile f && env.small f) ∨ env.prepends ∧ dir ∈ fs then some fs else none
  else none

/-- Of the files that were there, the directory keeps the manifest and those it lists, and nothing outside is gone. -/
def CleansUp (fs' : List Path) : Prop :=
  (∀ n, dir ++ [n] ∈ fs → (dir ++ [n] ∈ fs' ↔ isListed (readManifest dir m fs) n)) ∧ ∀ q ∈ fs, ¬ dir <+: q → q ∈ fs'

/-- No name that is removed leads to `q` or above it. -/
def Spared (q : Path) : Prop :=
  ∀ n, dir ++ [n] ∈ fs → isListed (readManifest dir m fs) n = false → ¬ env.cwd ++ [n] <+: q

variable {env dir m fs} {fs' : List Path}

theorem mem_readdir {n : String} : n ∈ readdir dir fs ↔ dir ++ [n] ∈ fs := by
  rw [readdir, List.mem_filterMap]
  constructor
  · rintro ⟨q, hq, h⟩
    obtain ⟨rfl, hn⟩ := Option.ite_none_right_eq_some.mp h
    rwa [List.dropLast_append_getLast? _ hn]
  · exact fun h => ⟨_, h, by simp⟩

theorem mem_deleteNonManifestFiles {ns : List String} (h : deleteNonManifestFiles env m ns fs = some fs') (q : Path) :
    q ∈ fs' ↔ q ∈ fs ∧ ∀ n ∈ ns, isListed m n = false → ¬ env.cwd ++ [n] <+: q := by
  induction ns generalizing fs with
  | nil =>
    cases h
    simp
  | cons n ns ih =>
    simp only [deleteNonManifestFiles] at h
    split_ifs at h with hn hr
    · simp [ih h, hn]
    · simp [ih h, hn, removeAll, and_assoc]

theorem mem_openPartition (h : openPartition env dir m fs = some fs') :
    (∀ q, q ∈ fs' ↔ q ∈ dir :: fs ∧ Spared env dir m fs q) ∧ (readManifest dir m fs = [] → dir ∈ fs') := by
  simp only [openPartition, Option.ite_none_right_eq_some, Option.bind_eq_bind, Option.bind_eq_some_iff] at h
  obtain ⟨-, fs₁, h₁, hactive, h⟩ := h
  cases h
  refine ⟨fun q => ?_, fun hnil => ?_⟩
  · simp only [mem_deleteNonManifestFiles h₁, mem_readdir, Spared]
  · simpa [hnil] using And.right (hactive.resolve_left (by simp [hnil]))

theorem cleansUp_iff (h : openPartition env dir m fs = some fs') : CleansUp dir m fs fs' ↔
    env.cwd = dir ∨ ∀ n, dir ++ [n] ∈ fs → isListed (readManifest dir m fs) n := by
  obtain ⟨hs, hdir⟩ := mem_openPartition h
  have hkept {q : Path} (hq : q ∈ fs) : q ∈ fs' ↔ Spared env dir m fs q := by simp [hs, hq]
  constructor
  · intro ⟨hin, _⟩
    by_contra! ⟨hcwd, n, hn, hlist⟩
    rw [ne_eq, ← hin n hn, hkept hn] at hlist
    simp only [Spared, not_forall, not_not] at hlist
    obtain ⟨k, hk, hgone, hpre⟩ := hlist
    -- what is removed is the directory or above it, so the manifest is gone
    have habove : env.cwd ++ [k] <+: dir :=
      (List.prefix_concat_iff.mp hpre).resolve_left fun heq => hcwd (List.append_inj' heq rfl).1
    by_cases hman : dir ++ [manifestFileName] ∈ fs
    · exact (hkept hman).mp ((hin _ hman).mpr rfl) k hk hgone (habove.trans (List.prefix_append ..))
    · exact ((hs dir).mp (hdir (if_neg hman))).2 k hk hgone habove
  · rintro (rfl | hall)
    · refine ⟨fun n hn => (hkept hn).trans ⟨fun hsp => ?_, fun hlist k _ hk hpre => ?_⟩, fun q hq hout => ?_⟩
      · by_contra hlist
        exact hsp n hn (by simpa using hlist) List.prefix_rfl
      · have : k = n := by simpa using hpre
        simp_all
      · exact (hkept hq).mpr fun n _ _ hpre => hout ((List.prefix_append ..).trans hpre)
    · have hsp (q : Path) : Spared env dir m fs q := fun n hn hlist => by simp [hall n hn] at hlist
      exact ⟨fun n hn => by simp [hkept hn, hsp, hall n hn], fun q hq _ => (hkept hq).mpr (hsp q)⟩

/-- A leftover of a compaction stays, and the file of that name in the working directory is removed. -/
theorem removes_outside : ∃ env dir m fs fs', openPartition env dir m fs = some fs' ∧ ¬ CleansUp dir m fs fs' :=
  ⟨⟨["home"], true, fun _ => true, fun _ => true, fun _ => true, true⟩, ["0"], ["L0-00000001.tsl"],
    [["0", "MANIFEST"], ["0", "L0-00000001.tsl"], ["0", "L1-00000002.tsi"], ["home", "L1-00000002.tsi"]], _, rfl,
    fun h => absurd (h.2 ["home", "L1-00000002.tsi"] (by decide) (by decide)) (by decide)⟩

/-- The process runs in the partition: the leftover is removed, and nothing outside. -/
theorem cleansUp_iff_leftover : CleansUp ["0"] ["L0-00000001.tsl"]
    [["0", "MANIFEST"], ["0", "L0-00000001.tsl"], ["0", "L1-00000002.tsi"], ["home", "L1-00000002.tsi"]]
    [["0"], ["0", "MANIFEST"], ["0", "L0-00000001.tsl"], ["home", "L1-00000002.tsi"]] :=
  (cleansUp_iff (rfl : openPartition ⟨["0"], true, fun _ => true, fun _ => true, fun _ => true, true⟩ ["0"]
    ["L0-00000001.tsl"] _ = _)).mpr (.inl rfl)

end Influxdb.Tsi1.Disk
