import Influxdb.Lib.Lists
import Influxdb.Tsm1.File
import Influxdb.Tsm1.KeyCursor

/-!
# KeyCursorBlock — locations read up to a watermark

A cursor that scans upwards has returned all points up to a time `W`, one that scans downwards all
points from `W` on: `Done ascending W t`.  `Location.At` says of a location that what it records as read
agrees with that, and `left` are its points still to be returned.  The window of a read reaches all
points left before its far end (`Window`), and a pass over the other locations (`mergeRest`) merges the
points left in the window and moves them all to the new watermark.
-/

namespace Influxdb.Tsm1

open List Cursors Timed KeyCursor ValueArray Location

variable {Buf V : Type*} {p : Int × V}

/-- Time `t` is behind the watermark `W` of a scan. -/
def Done (ascending : Bool) (W t : Int) : Prop := if ascending then t ≤ W else W ≤ t

instance decidableDone (ascending : Bool) (W t : Int) : Decidable (Done ascending W t) :=
  inferInstanceAs (Decidable (if ascending then t ≤ W else W ≤ t))

@[simp] theorem done_true {W t : Int} : Done true W t ↔ t ≤ W := by simp [Done]

@[simp] theorem done_false {W t : Int} : Done false W t ↔ W ≤ t := by simp [Done]

namespace Location

variable (C : BlockCodec Buf V) (ty : BlockType) (key : Key) (asc : Bool) (W : Int) (l : Location Buf)

/-- The points of the location that are not tombstoned. -/
def live : ValueArray V := liveOf C ty (l.r.reader.tombstoneRange key) l.entry.b

/-- The points of the location still to be returned. -/
def left : ValueArray V := (l.live C ty key).filter (fun p => ¬ Done asc W p.1)

/-- The location at the watermark `W`: its read range starts at the end of time behind the scan, stays
behind `W`, and has all points behind `W`. -/
structure At : Prop where
  sound : l.entry.Sound C ty
  hull : if asc then l.readMin = minInt64 ∧ l.readMax ≤ W else l.readMax = maxInt64 ∧ W ≤ l.readMin
  covered : ∀ p ∈ l.live C ty key, Done asc W p.1 → l.readMin ≤ p.1 ∧ p.1 ≤ l.readMax

variable {C ty key asc W l}

theorem mem_left : p ∈ l.left C ty key asc W ↔ p ∈ l.live C ty key ∧ ¬ Done asc W p.1 := by
  simp [left]

variable (h : At C ty key asc W l)
include h

theorem At.asc_live : Asc (l.live C ty key) := h.sound.asc_live _

theorem At.asc_left : Asc (l.left C ty key asc W) := h.asc_live.filter _

theorem At.bounds (hp : p ∈ l.live C ty key) :
    l.entry.minTime ≤ p.1 ∧ p.1 ≤ l.entry.maxTime ∧ minInt64 ≤ p.1 ∧ p.1 ≤ maxInt64 := by
  obtain ⟨h1, h2⟩ := h.sound.mem_range_of_live hp
  have h3 := h.sound.minInt64_le
  have h4 := h.sound.le_maxInt64
  exact ⟨h1, h2, by omega, by omega⟩

theorem At.not_read_iff (hp : p ∈ l.live C ty key) : ¬ (l.readMin ≤ p.1 ∧ p.1 ≤ l.readMax) ↔ ¬ Done asc W p.1 := by
  refine not_congr ⟨fun hr => ?_, h.covered p hp⟩
  have hhull := h.hull
  unfold Done
  split_ifs at hhull ⊢ <;> omega

theorem At.filter_eq_left :
    (l.live C ty key).filter (fun p => ¬ (l.readMin ≤ p.1 ∧ p.1 ≤ l.readMax)) = l.left C ty key asc W :=
  filter_congr fun p hp => by rw [decide_eq_decide]; exact h.not_read_iff hp

theorem At.exclude_tombstones : excludeTombstones (l.r.reader.tombstoneRange key)
      ((decoded C ty l.entry.b).exclude l.readMin l.readMax) = l.left C ty key asc W := by
  rw [exclude_eq h.sound.asc, excludeTombstones_eq _ (h.sound.asc.filter _),
    filter_filter, ← h.filter_eq_left, live, liveOf, filter_filter]
  exact filter_congr fun p _ => Bool.and_comm _ _

theorem At.tombstones_exclude : (excludeTombstones (l.r.reader.tombstoneRange key) (decoded C ty l.entry.b)).exclude
      l.readMin l.readMax = l.left C ty key asc W := by
  have heq : excludeTombstones (l.r.reader.tombstoneRange key) (decoded C ty l.entry.b) =
      l.live C ty key := excludeTombstones_eq _ h.sound.asc
  rw [heq, exclude_eq h.asc_live, h.filter_eq_left]

theorem At.left_eq_nil (hr : l.read = true) : l.left C ty key asc W = [] := by
  rw [read, Bool.and_eq_true, decide_eq_true_eq, decide_eq_true_eq] at hr
  refine filter_eq_nil_iff.mpr fun p hp => ?_
  have hb := h.bounds hp
  have := (not_congr (h.not_read_iff hp)).mp (not_not.mpr (by omega))
  simpa using this

theorem At.markRead {m M : Int} (hm : minInt64 ≤ m) (hM : M ≤ maxInt64)
    (hW : Done asc (if asc then M else m) W) : At C ty key asc (if asc then M else m) (l.markRead m M) := by
  have hhull := h.hull
  unfold Done at hW
  refine ⟨h.sound, ?_, fun p hp hd => ?_⟩
  · simp only [Location.markRead]
    split_ifs at hhull hW ⊢ <;> omega
  · have hb := h.bounds hp
    unfold Done at hd
    simp only [Location.markRead]
    split_ifs at hhull hW hd ⊢ <;> omega

theorem At.advance (hnil : l.left C ty key asc W = []) {W' : Int} (hW : Done asc W' W) : At C ty key asc W' l := by
  have hhull := h.hull
  refine ⟨h.sound, ?_, fun p hp _ => h.covered p hp ?_⟩
  · unfold Done at hW
    split_ifs at hhull hW ⊢ <;> omega
  · by_contra hd
    have hmem : p ∈ l.left C ty key asc W := mem_left.mpr ⟨hp, hd⟩
    rw [hnil] at hmem
    cases hmem

end Location

/-! ## Windows -/

/-- A window `[m, M]` around `[m₀, M₀]` that reaches every unread block on the side of the watermark. -/
structure Window (asc : Bool) (others : List (Location Buf)) (m₀ M₀ m M : Int) : Prop where
  le_start : m ≤ m₀
  end_le : M₀ ≤ M
  minInt64_le : minInt64 ≤ m
  le_maxInt64 : M ≤ maxInt64
  reaches : ∀ l ∈ others, l.read = false → if asc then m ≤ l.entry.minTime else l.entry.maxTime ≤ M

section Windows

variable {C : BlockCodec Buf V} {ty : BlockType} {others : List (Location Buf)} {m₀ M₀ : Int}

theorem foldl_best_spec {α : Type} [LinearOrder α] (time : Location Buf → α) {b t₀ r : α} (hs : ∀ l ∈ others, b ≤ time l)
    (hb : b ≤ t₀) (hr : r = others.foldl (fun t cur => if time cur < t && !cur.read then time cur else t) t₀) :
    r ≤ t₀ ∧ b ≤ r ∧ ∀ l ∈ others, l.read = false → r ≤ time l := by
  induction others generalizing t₀ with
  | nil => exact ⟨hr.le, hr ▸ hb, forall_mem_nil _⟩
  | cons l others ih =>
    have hl := hs l mem_cons_self
    rw [foldl_cons] at hr
    obtain ⟨h1, h2, h3⟩ := ih (forall_mem_cons.mp hs).2 (by split_ifs <;> assumption) hr
    have h4 : r ≤ t₀ ∧ (l.read = false → r ≤ time l) := by
      split_ifs at h1 with hc
      · rw [Bool.and_eq_true, decide_eq_true_eq] at hc
        exact ⟨h1.trans hc.1.le, fun _ => h1⟩
      · refine ⟨h1, fun hread => ?_⟩
        rw [Bool.and_eq_true, decide_eq_true_eq, hread] at hc
        simp only [Bool.not_false, and_true, not_lt] at hc
        exact h1.trans hc
    exact ⟨h4.1, h2, forall_mem_cons.mpr ⟨h4.2, h3⟩⟩

variable (hs : ∀ l ∈ others, l.entry.Sound C ty) (hm : minInt64 ≤ m₀) (hM : M₀ ≤ maxInt64)

include hs hm hM

theorem ascWindow_spec : Window true others m₀ M₀ (ascWindow others m₀ M₀).1 (ascWindow others m₀ M₀).2.1 := by
  unfold ascWindow
  obtain ⟨h1, h2, h3⟩ := foldl_best_spec (·.entry.minTime) (fun l hl => (hs l hl).minInt64_le) hm rfl
  generalize others.foldl (fun m cur => if cur.entry.minTime < m && !cur.read then cur.entry.minTime
    else m) m₀ = m at h1 h2 h3
  simp only
  split
  · exact ⟨h1, le_rfl, h2, hM, h3⟩
  · rename_i cur hcur
    have hle := (hs cur (mem_of_find?_eq_some hcur)).le_maxInt64
    refine ⟨h1, ?_, h2, ?_, h3⟩
    · simp only
      split_ifs <;> omega
    · simp only
      split_ifs <;> omega

theorem descWindow_spec : Window false others m₀ M₀ (descWindow others m₀ M₀).1 (descWindow others m₀ M₀).2.1 := by
  unfold descWindow
  generalize hr : others.foldl (fun M cur => if cur.entry.maxTime > M && !cur.read then cur.entry.maxTime else M) M₀ = M
  obtain ⟨h1, h2, h3⟩ : M₀ ≤ M ∧ M ≤ maxInt64 ∧ ∀ l ∈ others, l.read = false → l.entry.maxTime ≤ M :=
    @foldl_best_spec _ others Intᵒᵈ _ (·.entry.maxTime) _ _ _ (fun l hl => (hs l hl).le_maxInt64) hM hr.symm
  simp only
  split
  · exact ⟨le_rfl, h1, hm, h2, by simpa using h3⟩
  · rename_i cur hcur
    have hle := (hs cur (mem_of_find?_eq_some hcur)).minInt64_le
    refine ⟨?_, h1, ?_, h2, by simpa using h3⟩
    · simp only
      split_ifs <;> omega
    · simp only
      split_ifs <;> omega

end Windows

/-! ## One pass over the other locations -/

/-- The value that wins on equal times: of the later location going up, of the earlier one going down. -/
def layOver (asc : Bool) (acc v : ValueArray V) : ValueArray V := if asc then overlay acc v else overlay v acc

/-- The part of a location's points that a read of `[m, M]` at the watermark `W` returns. -/
def windowPart (asc : Bool) (W m M : Int) (live : ValueArray V) : ValueArray V :=
  live.filter (fun p => ¬ Done asc W p.1 ∧ (m ≤ p.1 ∧ p.1 ≤ M))

section MergeRest

variable {C : BlockCodec Buf V} {ty : BlockType} {key : Key} {asc : Bool} {W m M : Int}

theorem windowPart_eq {l : Location Buf} :
    windowPart asc W m M (l.live C ty key) = (l.left C ty key asc W).filter (fun p => m ≤ p.1 ∧ p.1 ≤ M) := by
  rw [windowPart, left, filter_filter]
  refine filter_congr fun p _ => ?_
  rw [← Bool.decide_and, decide_eq_decide]
  exact and_comm

theorem Location.At.windowPart_eq_nil {l : Location Buf} (h : l.At C ty key asc W)
    (hs : (!l.entry.overlapsTimeRange m M || l.read) = true) : windowPart asc W m M (l.live C ty key) = [] := by
  rw [windowPart_eq]
  rcases Bool.or_eq_true _ _ ▸ hs with hs | hs
  · refine filter_eq_nil_iff.mpr fun p hp => ?_
    obtain ⟨h1, h2, -⟩ := h.bounds (mem_left.mp hp).1
    simp only [IndexEntry.overlapsTimeRange, Bool.not_eq_true', Bool.and_eq_false_iff, decide_eq_false_iff_not] at hs
    rw [decide_eq_true_eq]
    omega
  · rw [h.left_eq_nil hs, filter_nil]

theorem asc_layOver {a b : ValueArray V} (ha : Asc a) (hb : Asc b) : Asc (layOver asc a b) := by
  unfold layOver
  split_ifs
  · exact ha.overlay hb
  · exact hb.overlay ha

theorem layOver_nil (a : ValueArray V) : layOver asc a [] = a := by simp [layOver]

/-- **The pass** merges the points left in the window and marks the window as read. -/
theorem mergeRest_spec (lives : ℕ → ValueArray V) :
    ∀ rest (seeks : List (Location Buf)) (values : ValueArray V), Asc values → rest.Nodup →
      (∀ j ∈ rest, ∃ l, seeks[j]? = some l ∧ l.At C ty key asc W ∧ l.live C ty key = lives j) →
      ∃ seeks', mergeRest C ty key asc m M rest seeks values =
          .ok (rest.foldl (fun acc i => layOver asc acc (windowPart asc W m M (lives i))) values, seeks') ∧
        ∀ j, seeks'[j]? = if j ∈ rest then (seeks[j]?).map (·.markRead m M) else seeks[j]?
  | [], seeks, values, _, _, _ => ⟨seeks, rfl, fun j => by simp⟩
  | i :: rest, seeks, values, hv, hn, hat => by
    obtain ⟨hni, hn⟩ := nodup_cons.mp hn
    obtain ⟨l, hl, hl1, hl2⟩ := hat i mem_cons_self
    have hlt : i < seeks.length := (List.getElem?_eq_some_iff.mp hl).1
    have hpart : Asc (windowPart asc W m M (lives i)) := hl2 ▸ hl1.asc_live.filter _
    -- the others are not touched by marking this one
    obtain ⟨seeks', h1, h2⟩ := mergeRest_spec lives rest (seeks.set i (l.markRead m M))
      (layOver asc values (windowPart asc W m M (lives i))) (asc_layOver hv hpart) hn fun j hj => by
        obtain ⟨l', hl', hrest⟩ := hat j (mem_cons_of_mem _ hj)
        have hne : i ≠ j := fun h => hni (h ▸ hj)
        exact ⟨l', by rw [getElem?_set_ne hne, hl'], hrest⟩
    refine ⟨seeks', ?_, fun j => ?_⟩
    · rw [foldl_cons, ← h1, mergeRest, hl]
      simp only
      by_cases hskip : (!l.entry.overlapsTimeRange m M || l.read) = true
      · rw [if_pos hskip, ← hl2, hl1.windowPart_eq_nil hskip, layOver_nil]
      · rw [if_neg hskip, hl1.sound.decode_eq]
        simp only
        rw [hl1.tombstones_exclude]
        congr 1
        split_ifs with hlen hasc
        · rw [include_eq hl1.asc_left, ← windowPart_eq, hl2, layOver, if_pos hasc, merge_eq hv hpart]
        · rw [include_eq hl1.asc_left, ← windowPart_eq, hl2, layOver, if_neg hasc, merge_eq hpart hv]
        · have hnil : l.left C ty key asc W = [] := length_eq_zero_iff.mp (by omega)
          rw [← hl2, windowPart_eq, hnil, filter_nil, layOver_nil]
    · rw [h2]
      by_cases hj : j ∈ rest
      · have hne : i ≠ j := fun h => hni (h ▸ hj)
        rw [if_pos hj, if_pos (mem_cons_of_mem _ hj), getElem?_set_ne hne]
      · rw [if_neg hj]
        by_cases hij : i = j
        · subst hij
          rw [if_pos mem_cons_self, getElem?_set_self hlt, hl]
          rfl
        · rw [if_neg (by simp [Ne.symm hij, hj]), getElem?_set_ne hij]

end MergeRest

end Influxdb.Tsm1
