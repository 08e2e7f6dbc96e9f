import Influxdb.Meta.Data

/-!
# Tiling — the live shard groups of a policy tile time

The effective ranges of the groups that are not deleted do not overlap and are listed by their starts (`Tiled`).  Every
operation but the creation of a group only shrinks ranges and deletes groups (`Shrinks`), which keeps a tiling; a new group
takes the largest free part of its window, and sorting by effective ends restores the order.
-/

namespace Influxdb.Meta

open List ShardGroupInfo

open Models (Time)

namespace ShardGroupInfo

variable {g g' : ShardGroupInfo} {t : Time} {gs gs' : List ShardGroupInfo}

theorem owns_iff : g.owns t = true ↔
    g.deleted = false ∧ g.startTime ≤ t ∧ t < g.endTime ∧ (g.truncated = true → t < g.truncatedAt) := by
  cases htr : g.truncated <;> cases hdel : g.deleted <;> simp [owns, contains, htr, hdel, and_assoc]

theorem effectiveEnd_of_truncated (h : g.truncated = true) : g.effectiveEnd = g.truncatedAt := if_pos h

theorem effectiveEnd_of_not_truncated (h : g.truncated = false) : g.effectiveEnd = g.endTime :=
  if_neg (by simp [h])

/-- The instants of a group that is not deleted. -/
structure Sound (g : ShardGroupInfo) : Prop where
  /-- The start can stand for a truncation time. -/
  set : 0 < g.startTime.nanos
  start_le : g.startTime ≤ g.effectiveEnd
  le_end : g.effectiveEnd ≤ g.endTime
  shards : g.shards ≠ []

theorem Sound.owns_iff_contains (h : g.Sound) : g.owns t = true ↔ g.deleted = false ∧ g.range.Contains t := by
  rw [owns_iff]
  refine and_congr_right fun _ => ?_
  show _ ↔ g.startTime ≤ t ∧ t < g.effectiveEnd
  refine and_congr_right fun _ => ?_
  cases htr : g.truncated with
  | false =>
    rw [effectiveEnd_of_not_truncated htr]
    simp
  | true =>
    rw [effectiveEnd_of_truncated htr]
    have hle := h.le_end
    rw [effectiveEnd_of_truncated htr] at hle
    exact ⟨fun ⟨_, hlt⟩ => hlt rfl, fun hlt => ⟨hlt.trans_le hle, fun _ => hlt⟩⟩

/-- `g'` is what is left of `g` after an operation that makes no group. -/
structure Shrinks (g g' : ShardGroupInfo) : Prop where
  live : g'.deleted = false → g.deleted = false
  start_eq : g'.startTime = g.startTime
  end_le : g'.deleted = false → g.Sound → g'.effectiveEnd ≤ g.effectiveEnd
  sound : g'.deleted = false → g.Sound → g'.Sound
  shards : ∀ s ∈ g'.shards, s ∈ g.shards

theorem Shrinks.refl (g : ShardGroupInfo) : Shrinks g g :=
  ⟨fun h => h, rfl, fun _ _ => le_rfl, fun _ h => h, fun _ h => h⟩

theorem Shrinks.range_within (h : Shrinks g g') (hlive : g'.deleted = false) (hg : g.Sound) :
    g'.range.Within g.range := ⟨h.start_eq.ge, h.end_le hlive hg⟩

theorem shrinks_of_deleted (h : g'.deleted = true) (hstart : g'.startTime = g.startTime)
    (hshards : ∀ s ∈ g'.shards, s ∈ g.shards) : Shrinks g g' := by
  have hno : ¬g'.deleted = false := by simp [h]
  exact ⟨fun hl => absurd hl hno, hstart, fun hl => absurd hl hno, fun hl => absurd hl hno, hshards⟩

theorem deleted_of_clock {clock : Clock} (h : g.deletedAt = clock.now) : g.deleted = true := by
  simp [deleted, h, clock.set]

theorem shrinks_truncatedAt (hpos : g.Sound → g.startTime ≤ t) (hle : g.Sound → t ≤ g.effectiveEnd) :
    Shrinks g { g with truncatedAt := t } := by
  have htr : g.Sound → ({ g with truncatedAt := t } : ShardGroupInfo).truncated = true := by
    intro hg
    have hne : t.nanos ≠ 0 := (hg.set.trans_le (hpos hg)).ne'
    simp [truncated, Time.isZero, hne]
  refine ⟨fun h => h, rfl, fun _ hg => ?_, fun _ hg => ⟨hg.set, ?_, ?_, hg.shards⟩, fun _ h => h⟩
  · rw [effectiveEnd_of_truncated (htr hg)]
    exact hle hg
  · rw [effectiveEnd_of_truncated (htr hg)]
    exact hpos hg
  · rw [effectiveEnd_of_truncated (htr hg)]
    exact (hle hg).trans hg.le_end

theorem shrinks_truncate (t : Time) (g : ShardGroupInfo) : Shrinks g (g.truncate t) := by
  rw [truncate]
  by_cases hskip : ¬t < g.endTime ∨ g.deleted ∨ (g.truncated ∧ g.truncatedAt < t)
  · rw [if_pos hskip]
    exact Shrinks.refl g
  · rw [if_neg hskip]
    by_cases hfuture : ¬g.startTime < t
    · rw [if_pos hfuture]
      exact shrinks_truncatedAt (fun _ => le_rfl) fun hg => hg.start_le
    · rw [if_neg hfuture]
      refine shrinks_truncatedAt (fun _ => (not_not.mp hfuture).le) fun _ => ?_
      cases htr : g.truncated with
      | false =>
        rw [effectiveEnd_of_not_truncated htr]
        exact (not_not.mp fun h => hskip (.inl h)).le
      | true =>
        rw [effectiveEnd_of_truncated htr]
        exact not_lt.mp fun h => hskip (.inr (.inr ⟨htr, h⟩))

theorem shrinks_dropShard {id : ℕ} {clock : Clock} (h : g.dropShard id clock = some g') : Shrinks g g' := by
  obtain ⟨i, hi, rfl⟩ := Option.map_eq_some_iff.mp h
  obtain ⟨hilt, -, -⟩ := findIdx?_eq_some_iff_getElem.mp hi
  split_ifs with hlast
  · exact shrinks_of_deleted (deleted_of_clock rfl) rfl fun s hs => (eraseIdx_sublist _ _).subset hs
  · refine ⟨fun h => h, rfl, fun _ _ => le_rfl, fun hlive hg => ⟨hg.set, hg.start_le, hg.le_end, ?_⟩,
      fun s hs => (eraseIdx_sublist _ _).subset hs⟩
    -- another shard remains
    have hlen : g.shards.length ≠ 1 := fun h1 => hlast ⟨h1, hlive⟩
    intro hnil
    have := congrArg List.length hnil
    rw [length_eraseIdx_of_lt hilt, length_nil] at this
    omega

end ShardGroupInfo

/-! ## Tilings -/

/-- **The live groups tile time**: their effective ranges do not overlap and are listed by their starts. -/
structure Tiled (gs : List ShardGroupInfo) : Prop where
  sound : ∀ g ∈ gs, g.deleted = false → g.Sound
  apart : gs.Pairwise fun a b => a.deleted = false → b.deleted = false → ¬a.range.Overlaps b.range
  ascending : gs.Pairwise fun a b => a.deleted = false → b.deleted = false → a.startTime ≤ b.startTime

theorem tiled_nil : Tiled [] := ⟨forall_mem_nil _, .nil, .nil⟩

theorem Tiled.sublist (h : Tiled gs) (hsub : gs'.Sublist gs) : Tiled gs' :=
  ⟨fun g hg => h.sound g (hsub.subset hg), h.apart.sublist hsub, h.ascending.sublist hsub⟩

/-- **Shrinking the groups** keeps a tiling. -/
theorem Tiled.shrinks (h : Tiled gs) (hsh : List.Forall₂ ShardGroupInfo.Shrinks gs gs') : Tiled gs' := by
  have hsound : ∀ a ∈ gs, ∀ a', Shrinks a a' → a'.deleted = false → a.Sound :=
    fun a ha a' haa hl => h.sound a ha (haa.live hl)
  refine ⟨fun a' ha' hl => ?_, pairwise_of_forall₂ hsh h.apart ?_, pairwise_of_forall₂ hsh h.ascending ?_⟩
  · obtain ⟨a, ha, haa⟩ := exists_left_of_forall₂ hsh a' ha'
    exact haa.sound hl (hsound a ha a' haa hl)
  · intro a ha b hb a' b' haa hbb hno hla hlb hov
    exact hno (haa.live hla) (hbb.live hlb) (hov.mono (haa.range_within hla (hsound a ha a' haa hla))
      (hbb.range_within hlb (hsound b hb b' hbb hlb)))
  · intro a _ b _ a' b' haa hbb hle hla hlb
    rw [haa.start_eq, hbb.start_eq]
    exact hle (haa.live hla) (hbb.live hlb)

/-- The groups in no particular order, not overlapping. -/
structure Apart (gs : List ShardGroupInfo) : Prop where
  sound : ∀ g ∈ gs, g.deleted = false → g.Sound
  apart : gs.Pairwise fun a b => a.deleted = false → b.deleted = false → ¬a.range.Overlaps b.range

theorem Apart.perm (h : Apart gs) (hp : gs'.Perm gs) : Apart gs' := by
  refine ⟨fun g hg => h.sound g (hp.subset hg), (hp.pairwise_iff ?_).mpr h.apart⟩
  intro a b hab hb ha hov
  exact hab ha hb hov.symm

theorem less_asymm (a b : ShardGroupInfo) (h : a.less b = true) : b.less a = false := by
  rw [less] at h ⊢
  by_cases heq : a.effectiveEnd = b.effectiveEnd
  · rw [if_pos heq] at h
    rw [if_pos heq.symm]
    exact decide_eq_false (not_lt.mpr (of_decide_eq_true h).le)
  · rw [if_neg heq] at h
    rw [if_neg (Ne.symm heq)]
    exact decide_eq_false (not_lt.mpr (of_decide_eq_true h).le)

/-- What `Less` leaves in order: earlier effective ends first, and earlier starts among equal ends. -/
theorem order_of_less {a b : ShardGroupInfo} (h : b.less a = false) :
    a.range.hi < b.range.hi ∨ a.range.hi = b.range.hi ∧ a.range.lo ≤ b.range.lo := by
  rw [less] at h
  by_cases heq : b.effectiveEnd = a.effectiveEnd
  · rw [if_pos heq] at h
    exact .inr ⟨heq.symm, not_lt.mp (of_decide_eq_false h)⟩
  · rw [if_neg heq] at h
    exact .inl (lt_of_le_of_ne (not_lt.mp (of_decide_eq_false h)) (Ne.symm heq))

theorem pairwise_sorted (gs : List ShardGroupInfo) : (insertionSort less gs).Pairwise fun a b =>
      a.range.hi < b.range.hi ∨ a.range.hi = b.range.hi ∧ a.range.lo ≤ b.range.lo := by
  have hchain := (isChain_insertionSort less_asymm gs).imp fun a b hab => order_of_less hab
  have htrans : IsTrans ShardGroupInfo fun a b =>
      a.range.hi < b.range.hi ∨ a.range.hi = b.range.hi ∧ a.range.lo ≤ b.range.lo := by
    refine ⟨fun a b c hab hbc => ?_⟩
    rcases hab with hab | ⟨hab, hab'⟩ <;> rcases hbc with hbc | ⟨hbc, hbc'⟩
    · exact .inl (hab.trans hbc)
    · exact .inl (hab.trans_eq hbc)
    · exact .inl (hab.trans_lt hbc)
    · exact .inr ⟨hab.trans hbc, hab'.trans hbc'⟩
  exact isChain_iff_pairwise.mp hchain

/-- **Sorting** groups that do not overlap gives a tiling. -/
theorem Apart.tiled_sorted {gs : List ShardGroupInfo} (h : Apart gs) : Tiled (insertionSort less gs) := by
  have hp : (insertionSort less gs).Perm gs := insertionSort_perm gs
  have h' := h.perm hp
  refine ⟨h'.sound, h'.apart, ?_⟩
  have hmem : (insertionSort less gs).Pairwise fun a b =>
      a ∈ insertionSort less gs ∧ b ∈ insertionSort less gs := by
    exact pairwise_of_forall_mem_list fun a ha b hb => ⟨ha, hb⟩
  refine (hmem.imp₂ ?_ ((pairwise_sorted gs).and h'.apart))
  intro a b hm hord hla hlb
  exact Range.lo_le_lo_of_order (h'.sound a hm.1 hla).start_le (hord.2 hla hlb) hord.1

end Influxdb.Meta
