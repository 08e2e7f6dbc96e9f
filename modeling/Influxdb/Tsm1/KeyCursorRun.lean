import Influxdb.Lib.Histories
import Influxdb.Tsm1.KeyCursorBlock

/-!
# KeyCursorRun — a key cursor returns the last-write-wins view

`Scan` is the state between two reads: every location is at the same watermark, and all locations with
points left are listed in `current`.  A read returns the points of the last-write-wins map up to a new
watermark (`readFrom_spec`), `Next` lists all locations with points left again (`next_spec`), and so the
blocks read one after the other make up the map from the seek time on (`key_cursor_last_write_wins`).
-/

namespace Influxdb.Tsm1

open List Cursors Timed Location KeyCursor Option ValueArray
open List (range mem_range mem_filter)

variable {Buf V : Type*} {l : Location Buf} {t : Int}

/-! ## Merging in scan order -/

/-- The list from the entry that wins to the one that loses. -/
def winners (asc : Bool) {α : Type*} (l : List α) : List α := if asc then l.reverse else l

theorem mem_winners {asc : Bool} {α : Type*} {l : List α} {x : α} : x ∈ winners asc l ↔ x ∈ l := by
  cases asc with
  | true => exact mem_reverse
  | false => exact Iff.rfl

theorem valueAt_foldl_layOver {asc : Bool} (t : Int) : ∀ {ls : List (ValueArray V)} {acc : ValueArray V},
    Asc acc → (∀ l ∈ ls, Asc l) →
    valueAt (ls.foldl (layOver asc) acc) t = (winners asc (acc :: ls)).findSome? (valueAt · t) := by
  cases asc with
  | true =>
    intro ls acc hacc hls
    have h : ls.foldl (layOver true) acc = ls.foldl overlay acc := rfl
    rw [h, valueAt_foldl_overlay hacc hls, ← lastOf_cons]
    rfl
  | false =>
    intro ls
    induction ls with
    | nil =>
      intro acc _ _
      simp [winners]
    | cons l ls ih =>
      intro acc hacc hls
      have hl := hls l mem_cons_self
      have hover : layOver false acc l = overlay l acc := rfl
      rw [foldl_cons, hover, ih (hl.overlay hacc) (forall_mem_cons.mp hls).2]
      simp only [winners, Bool.false_eq_true, if_false, findSome?_cons, valueAt_overlay hl hacc]
      cases valueAt acc t <;> rfl

theorem lastOf_eq_findSome? (ls : List (ValueArray V)) (t : Int) :
    lastOf ls t = (range ls.length).reverse.findSome? (fun j => valueAt (ls.getD j []) t) := by
  have h : ls = (range ls.length).map (fun j => ls.getD j []) := by
    refine ext_getElem (by simp) fun j h1 h2 => ?_
    simp [getD_eq_getElem?_getD, getElem?_eq_getElem h1]
  conv_lhs => rw [lastOf, h]
  rw [← map_reverse, findSome?_map]
  rfl

/-! ## The state between two reads -/

/-- The locations are at the watermark `W`, their points are `Ls`, and those with points left are listed in
`current`, in scan order. -/
structure Scan (C : BlockCodec Buf V) (ty : BlockType) (key : Key) (asc : Bool) (W : Int)
    (Ls : List (ValueArray V)) (seeks : List (Location Buf)) (current : List ℕ) : Prop where
  locs : ∀ l ∈ seeks, l.At C ty key asc W
  lives : seeks.map (·.live C ty key) = Ls
  current_lt : ∀ i ∈ current, i < seeks.length
  sorted : current.Pairwise (fun i j => if asc then i ≤ j else j ≤ i)
  tail_nodup : current.tail.Nodup
  mem_current : ∀ i l, seeks[i]? = some l → l.left C ty key asc W ≠ [] → i ∈ current

namespace Scan

variable {C : BlockCodec Buf V} {ty : BlockType} {key : Key} {asc : Bool} {W : Int}
  {Ls : List (ValueArray V)} {seeks : List (Location Buf)} {current rest : List ℕ} {i : ℕ}
  {l : Location Buf}

theorem drop (h : Scan C ty key asc W Ls seeks (i :: rest)) (hl : seeks[i]? = some l)
    (hnil : l.left C ty key asc W = []) : Scan C ty key asc W Ls seeks rest where
  locs := h.locs
  lives := h.lives
  current_lt j hj := h.current_lt j (mem_cons_of_mem _ hj)
  sorted := (pairwise_cons.mp h.sorted).2
  tail_nodup := (h.tail_nodup : rest.Nodup).sublist (tail_sublist rest)
  mem_current j l' hl' hne := by
    rcases mem_cons.mp (h.mem_current j l' hl' hne) with rfl | hj
    · rw [hl] at hl'
      exact absurd (some.inj hl' ▸ hnil) hne
    · exact hj

variable (h : Scan C ty key asc W Ls seeks current)
include h

theorem length_eq : Ls.length = seeks.length := by
  rw [← h.lives, length_map]

theorem live_eq (hl : seeks[i]? = some l) : l.live C ty key = Ls.getD i [] := by
  rw [← h.lives, getD_eq_getElem?_getD, getElem?_map, hl]
  rfl

theorem at_of_getElem? (hl : seeks[i]? = some l) : l.At C ty key asc W := h.locs l (mem_of_getElem? hl)

theorem getElem?_of_mem (hi : i ∈ current) : ∃ l, seeks[i]? = some l := ⟨_, getElem?_eq_getElem (h.current_lt i hi)⟩

theorem mem_of_valueAt (ht : ¬ Done asc W t)
    (hi : i < Ls.length) (hv : valueAt (Ls.getD i []) t ≠ none) : i ∈ current := by
  have hlt : i < seeks.length := h.length_eq ▸ hi
  have hl := getElem?_eq_getElem hlt
  rw [← h.live_eq hl] at hv
  obtain ⟨v, hv⟩ := ne_none_iff_exists'.mp hv
  exact h.mem_current i _ hl
    (ne_nil_of_mem (mem_left.mpr ⟨Timed.mem_of_valueAt hv, ht⟩))

theorem findSome?_winners (ht : ¬ Done asc W t) :
    (winners asc current).findSome? (fun j => valueAt (Ls.getD j []) t) = lastOf Ls t := by
  rw [lastOf_eq_findSome?]
  refine findSome?_eq_of_sorted ?_ ?_ fun j hj => ?_
  · have hs := h.sorted
    cases asc with
    | true => exact pairwise_reverse.mpr (by simpa [winners] using hs)
    | false => simpa [winners] using hs
  · exact pairwise_reverse.mpr (pairwise_lt_range.imp fun hlt => le_of_lt hlt)
  · rw [mem_winners, mem_reverse, mem_range, h.length_eq]
    refine ⟨h.current_lt j, fun hlt => h.mem_of_valueAt ht (h.length_eq ▸ hlt) hj⟩

theorem lastOf_eq_none (hnil : ∀ l ∈ seeks, l.left C ty key asc W = []) (ht : ¬ Done asc W t) : lastOf Ls t = none := by
  refine Timed.lastOf_eq_none.mpr fun a ha => valueAt_eq_none.mpr fun p hp hpt => ?_
  rw [← h.lives] at ha
  obtain ⟨l, hl, rfl⟩ := mem_map.mp ha
  have : p ∈ l.left C ty key asc W := mem_left.mpr ⟨hp, hpt ▸ ht⟩
  rw [hnil l hl] at this
  cases this

end Scan

/-! ## One read -/

theorem Location.markRead_markRead (l : Location Buf) (m M : Int) : (l.markRead m M).markRead m M = l.markRead m M := by
  simp only [markRead, mk.injEq, true_and]
  constructor <;> split_ifs <;> omega

section Read

variable {C : BlockCodec Buf V} {ty : BlockType} {key : Key} {asc : Bool} {W m M : Int}
  {Ls : List (ValueArray V)} {seeks seeks' : List (Location Buf)} {rest : List ℕ} {i : ℕ}
  {first : Location Buf}

/-- The watermark that a read of the window `[m, M]` reaches. -/
def farEnd (asc : Bool) (m M : Int) : Int := if asc then M else m

theorem not_done_trans {W' : Int} (ht : ¬ Done asc W t) (ht' : Done asc W' t) : ¬ Done asc W W' ∧ Done asc W' W := by
  unfold Done at *
  split_ifs at * <;> omega

/-- The parts of some locations in a window, merged in scan order. -/
def windowMerge (asc : Bool) (W m M : Int) (Ls : List (ValueArray V)) (i : ℕ) (rest : List ℕ) : ValueArray V :=
  rest.foldl (fun acc j => layOver asc acc (windowPart asc W m M (Ls.getD j []))) (windowPart asc W m M (Ls.getD i []))

section

variable (h : Scan C ty key asc W Ls seeks (i :: rest))
include h i

theorem Scan.mark_window (hm : minInt64 ≤ m) (hM : M ≤ maxInt64) (hW : Done asc (farEnd asc m M) W)
    (hs : ∀ j, seeks'[j]? = if j ∈ i :: rest then (seeks[j]?).map (·.markRead m M) else seeks[j]?) :
    Scan C ty key asc (farEnd asc m M) Ls seeks' (i :: rest) := by
  have hlives : seeks'.map (·.live C ty key) = Ls := by
    rw [← h.lives]
    refine ext_getElem? fun j => ?_
    rw [getElem?_map, getElem?_map, hs]
    split_ifs
    · rw [Option.map_map]
      rfl
    · rfl
  have hmono : ∀ t, Done asc W t → Done asc (farEnd asc m M) t := fun t ht => by
    unfold Done at hW ht ⊢
    split_ifs at hW ht ⊢ <;> omega
  -- a location after the read was one before it with the same points
  have hbefore : ∀ (j : ℕ) (l' : Location Buf), seeks'[j]? = some l' → ∃ l, seeks[j]? = some l ∧
      l'.live C ty key = l.live C ty key := fun j l' hl' => by
    rw [hs] at hl'
    split_ifs at hl'
    · obtain ⟨l, hl, rfl⟩ := map_eq_some_iff.mp hl'
      exact ⟨l, hl, rfl⟩
    · exact ⟨l', hl', rfl⟩
  have hleft : ∀ j l', seeks'[j]? = some l' → l'.left C ty key asc (farEnd asc m M) ≠ [] → j ∈ i :: rest :=
    fun j l' hl' hne => by
      obtain ⟨l, hl, hlive⟩ := hbefore j l' hl'
      obtain ⟨p, hp⟩ := exists_mem_of_ne_nil _ hne
      obtain ⟨hp1, hp2⟩ := mem_left.mp hp
      exact h.mem_current j l hl
        (ne_nil_of_mem (mem_left.mpr ⟨hlive ▸ hp1, fun hd => hp2 (hmono _ hd)⟩))
  refine ⟨fun l' hl' => ?_, hlives, fun j hj => ?_, h.sorted, h.tail_nodup, hleft⟩
  · obtain ⟨j, hlt, rfl⟩ := getElem_of_mem hl'
    have hj := getElem?_eq_getElem hlt
    rw [hs] at hj
    split_ifs at hj with hmem
    · obtain ⟨l, hl, heq⟩ := map_eq_some_iff.mp hj
      rw [← heq]
      exact (h.at_of_getElem? hl).markRead hm hM hW
    · refine (h.at_of_getElem? hj).advance ?_ hW
      by_contra hne
      exact hmem (h.mem_current j _ hj hne)
  · have : seeks'.length = seeks.length := by
      have hlen := congrArg length hlives
      rw [length_map, h.length_eq] at hlen
      exact hlen
    rw [this]
    exact h.current_lt j hj

theorem Scan.window_spec (hf : seeks[i]? = some first) {vs : ValueArray V} (hvs : vs = first.left C ty key asc W)
    (hne : vs ≠ []) {w : Int × Int × Bool}
    (hw : w = if asc then ascWindow (rest.filterMap (seeks[·]?)) vs.minTime vs.maxTime
      else descWindow (rest.filterMap (seeks[·]?)) vs.minTime vs.maxTime) :
    Window asc (rest.filterMap (seeks[·]?)) vs.minTime vs.maxTime w.1 w.2.1 := by
  have hat := h.at_of_getElem? hf
  have hs : ∀ l ∈ rest.filterMap (seeks[·]?), l.entry.Sound C ty := fun l hl => by
    obtain ⟨j, -, hj⟩ := mem_filterMap.mp hl
    exact (h.at_of_getElem? hj).sound
  have hint : ∀ p ∈ vs, minInt64 ≤ p.1 ∧ p.1 ≤ maxInt64 := fun p hp => (hat.bounds (mem_left.mp (hvs ▸ hp)).1).2.2
  obtain ⟨v, hv⟩ := minTime_mem hne
  obtain ⟨v', hv'⟩ := maxTime_mem hne
  rw [hw]
  cases asc with
  | true => exact ascWindow_spec hs (hint _ hv).1 (hint _ hv').2
  | false => exact descWindow_spec hs (hint _ hv).1 (hint _ hv').2

variable (hf : seeks[i]? = some first) (hw : Window asc (rest.filterMap (seeks[·]?))
  (first.left C ty key asc W).minTime (first.left C ty key asc W).maxTime m M)
include hf hw

theorem Scan.left_within {p : Int × V} (hp : p ∈ first.left C ty key asc W) : m ≤ p.1 ∧ p.1 ≤ M :=
  have hat := h.at_of_getElem? hf
  ⟨hw.le_start.trans (minTime_le hat.asc_left hp), (le_maxTime hat.asc_left hp).trans hw.end_le⟩

theorem Scan.mem_window {j : ℕ} (hj : j ∈ i :: rest) (hl : seeks[j]? = some l) {p : Int × V}
    (hp : p ∈ l.left C ty key asc W) : Done asc (farEnd asc m M) p.1 ↔ m ≤ p.1 ∧ p.1 ≤ M := by
  have hat := h.at_of_getElem? hl
  -- the window reaches the point on the side of the watermark
  have hside : if asc then m ≤ p.1 else p.1 ≤ M := by
    rcases mem_cons.mp hj with rfl | hj
    · obtain rfl : first = l := some.inj (hf.symm.trans hl)
      have hin := h.left_within hf hw hp
      split_ifs <;> omega
    · have hread : l.read = false := by
        by_contra hr
        rw [hat.left_eq_nil (by simpa using hr)] at hp
        cases hp
      have hreach := hw.reaches l (mem_filterMap.mpr ⟨j, hj, hl⟩) hread
      obtain ⟨h1, h2, -⟩ := hat.bounds (mem_left.mp hp).1
      split_ifs at hreach ⊢ <;> omega
  unfold farEnd Done
  split_ifs at hside ⊢ <;> omega

theorem Scan.covers_window : Covers (windowMerge asc W m M Ls i rest) (lastOf Ls) (fun t => ¬ Done asc W t ∧ Done asc (farEnd asc m M) t) := by
  have hpart : ∀ j ∈ i :: rest, Asc (windowPart asc W m M (Ls.getD j [])) := fun j hj => by
    obtain ⟨l, hl⟩ := h.getElem?_of_mem hj
    rw [← h.live_eq hl]
    exact (h.at_of_getElem? hl).asc_live.filter _
  have hfold : windowMerge asc W m M Ls i rest =
      (rest.map fun j => windowPart asc W m M (Ls.getD j [])).foldl (layOver asc)
        (windowPart asc W m M (Ls.getD i [])) := by
    rw [foldl_map]
    rfl
  have hval : ∀ t, valueAt (windowMerge asc W m M Ls i rest) t =
      (winners asc (i :: rest)).findSome? (fun j => valueAt (windowPart asc W m M (Ls.getD j [])) t) := by
    intro t
    rw [hfold, valueAt_foldl_layOver t (hpart i mem_cons_self)]
    · rw [← map_cons (f := fun j => windowPart asc W m M (Ls.getD j []))]
      unfold winners
      split_ifs
      · rw [← map_reverse, findSome?_map]
        rfl
      · rw [findSome?_map]
        rfl
    · refine forall_mem_map.mpr fun j hj => ?_
      exact hpart j (mem_cons_of_mem _ hj)
  have hone : ∀ j t, valueAt (windowPart asc W m M (Ls.getD j [])) t =
      if ¬ Done asc W t ∧ (m ≤ t ∧ t ≤ M) then valueAt (Ls.getD j []) t else none := fun j t => by
    rw [windowPart, valueAt_filter (fun t => ¬ Done asc W t ∧ (m ≤ t ∧ t ≤ M))]
    simp only [decide_eq_true_eq]
  refine ⟨?_, fun t ht => ?_, fun t ht => ?_⟩
  · refine inv_foldl (fun _ j hj hacc => asc_layOver hacc ?_) (fun j hj => hj) (hpart i mem_cons_self)
    exact hpart j (mem_cons_of_mem _ hj)
  · rw [hval]
    by_cases hin : m ≤ t ∧ t ≤ M
    · rw [← h.findSome?_winners ht.1]
      congr 1
      funext j
      rw [hone, if_pos ⟨ht.1, hin⟩]
    · -- no location has a point there
      have hnone : lastOf Ls t = none := by
        rw [← h.findSome?_winners ht.1, findSome?_eq_none_iff]
        intro j hj
        have hj : j ∈ i :: rest := mem_winners.mp hj
        obtain ⟨l, hl⟩ := h.getElem?_of_mem hj
        rw [← h.live_eq hl]
        refine valueAt_eq_none.mpr fun p hp hpt => hin ?_
        subst hpt
        exact (h.mem_window hf hw hj hl (mem_left.mpr ⟨hp, ht.1⟩)).mp ht.2
      rw [hnone, findSome?_eq_none_iff]
      intro j _
      rw [hone, if_neg fun hc => hin hc.2]
  · rw [hval, findSome?_eq_none_iff]
    intro j hj
    rw [hone]
    split_ifs with hc
    · refine absurd ⟨hc.1, ?_⟩ ht
      obtain ⟨-, hm, hM⟩ := hc
      unfold farEnd Done
      split_ifs <;> assumption
    · rfl

theorem Scan.read_window (hne : first.left C ty key asc W ≠ [])
    (hs : ∀ j, seeks'[j]? = if j ∈ i :: rest then (seeks[j]?).map (·.markRead m M) else seeks[j]?) :
    first.left C ty key asc W = windowPart asc W m M (Ls.getD i []) ∧ windowMerge asc W m M Ls i rest ≠ [] ∧
      ¬ Done asc W (farEnd asc m M) ∧ Scan C ty key asc (farEnd asc m M) Ls seeks' (i :: rest) := by
  obtain ⟨p, hp⟩ := exists_mem_of_ne_nil _ hne
  obtain ⟨hp1, hp2⟩ := mem_left.mp hp
  have hdone := (h.mem_window hf hw mem_cons_self hf hp).mpr (h.left_within hf hw hp)
  obtain ⟨hW, hW'⟩ := not_done_trans hp2 hdone
  refine ⟨?_, fun hnil => ?_, hW, h.mark_window hw.minInt64_le hw.le_maxInt64 hW' hs⟩
  · rw [← h.live_eq hf, windowPart_eq, filter_eq_self.mpr]
    intro q hq
    simpa using h.left_within hf hw hq
  · have hval := (h.covers_window hf hw).valueAt_of_mem p.1 ⟨hp2, hdone⟩
    rw [hnil, valueAt_nil] at hval
    have hmem : first.live C ty key ∈ Ls := by
      rw [← h.lives]
      exact mem_map_of_mem (mem_of_getElem? hf)
    exact valueAt_eq_none.mp (Timed.lastOf_eq_none.mp hval.symm _ hmem) p hp1 rfl

end

/-- **One read** returns nothing if nothing is left, and otherwise the points up to a new watermark. -/
theorem readFrom_spec : ∀ {current : List ℕ}, Scan C ty key asc W Ls seeks current →
    (readFrom C ty key asc seeks current = .ok ([], seeks, []) ∧ ∀ l ∈ seeks, l.left C ty key asc W = []) ∨
    ∃ B seeks' i rest W', readFrom C ty key asc seeks current = .ok (B, seeks', i :: rest) ∧
      B ≠ [] ∧ ¬ Done asc W W' ∧ Covers B (lastOf Ls) (fun t => ¬ Done asc W t ∧ Done asc W' t) ∧
      Scan C ty key asc W' Ls seeks' (i :: rest) ∧
      ∀ j l, current.head? = some j → seeks[j]? = some l → l.left C ty key asc W ≠ [] → j = i
  | [], h => by
    refine .inl ⟨rfl, fun l hl => ?_⟩
    obtain ⟨j, hlt, rfl⟩ := getElem_of_mem hl
    by_contra hne
    exact absurd (h.mem_current j _ (getElem?_eq_getElem hlt) hne) not_mem_nil
  | i :: rest, h => by
    obtain ⟨first, hf⟩ := h.getElem?_of_mem (mem_cons_self (a := i) (l := rest))
    have hat := h.at_of_getElem? hf
    rw [readFrom, hf]
    simp only
    rw [hat.sound.decode_eq]
    simp only
    rw [hat.exclude_tombstones]
    set vs := first.left C ty key asc W with hvs
    by_cases hne : vs = []
    · -- the first location is dropped
      rw [if_pos (by rw [hne]; rfl)]
      have hhead : ∀ j l, (i :: rest).head? = some j → seeks[j]? = some l →
          l.left C ty key asc W = [] := fun j l hj hl => by
        obtain rfl : i = j := some.inj hj
        rw [hf] at hl
        exact some.inj hl ▸ hne
      rcases readFrom_spec (h.drop hf hne) with h1 | ⟨B, seeks', k, rest', W', h1, h2, h3, h4, h5, -⟩
      · exact .inl h1
      · exact .inr ⟨B, seeks', k, rest', W', h1, h2, h3, h4, h5, fun j l hj hl hl' => absurd (hhead j l hj hl) hl'⟩
    · rw [if_neg fun hlen => hne (length_eq_zero_iff.mp hlen)]
      right
      by_cases hrest : rest.length = 0
      · -- only one block
        rw [if_pos hrest]
        obtain rfl := length_eq_zero_iff.mp hrest
        obtain ⟨v, hv⟩ := minTime_mem hne
        obtain ⟨v', hv'⟩ := maxTime_mem hne
        obtain ⟨m, M, hm, hM⟩ : ∃ m M, m = vs.minTime ∧ M = vs.maxTime := ⟨_, _, rfl, rfl⟩
        have hw : Window asc (([] : List ℕ).filterMap (seeks[·]?)) vs.minTime vs.maxTime m M :=
          ⟨hm.le, hM.ge, hm ▸ (hat.bounds (mem_left.mp hv).1).2.2.1,
            hM ▸ (hat.bounds (mem_left.mp hv').1).2.2.2, forall_mem_nil _⟩
        rw [← hm, ← hM]
        have hs : ∀ j, (seeks.set i (first.markRead m M))[j]? =
            if j ∈ [i] then (seeks[j]?).map (·.markRead m M) else seeks[j]? := fun j => by
          by_cases hij : i = j
          · subst hij
            rw [getElem?_set_self (h.current_lt i mem_cons_self), hf, if_pos mem_cons_self]
            rfl
          · rw [getElem?_set_ne hij, if_neg (by simpa using Ne.symm hij)]
        obtain ⟨h1, h2, h3, h4⟩ := h.read_window hf hw hne hs
        refine ⟨_, _, i, [], _, rfl, hne, h3, ?_, h4, fun j l hj _ _ => (some.inj hj).symm⟩
        have hcov := h.covers_window hf hw
        rw [windowMerge, foldl_nil, ← h1] at hcov
        exact hcov
      · rw [if_neg hrest]
        generalize hwin : (if asc = true then ascWindow (rest.filterMap (seeks[·]?)) vs.minTime vs.maxTime
          else descWindow (rest.filterMap (seeks[·]?)) vs.minTime vs.maxTime) = w
        have hw := h.window_spec hf hvs hne hwin.symm
        obtain ⟨m, M, found⟩ := w
        -- the cut to the window keeps all values of the first block
        have hcut : (if found = true then vs.include m M else vs) = vs := by
          split_ifs
          · rw [include_eq hat.asc_left, filter_eq_self.mpr]
            intro q hq
            rw [decide_eq_true_eq]
            exact h.left_within hf hw hq
          · rfl
        rw [hcut]
        obtain ⟨seeks₂, hmerge, hseeks₂⟩ := mergeRest_spec (W := W) (m := m) (M := M)
          (fun j => Ls.getD j []) rest seeks vs hat.asc_left
          h.tail_nodup fun j hj => by
            obtain ⟨l, hl⟩ := h.getElem?_of_mem (mem_cons_of_mem i hj)
            exact ⟨l, hl, h.at_of_getElem? hl, h.live_eq hl⟩
        rw [hmerge]
        have hs : ∀ j, (seeks₂.modify i (·.markRead m M))[j]? =
            if j ∈ i :: rest then (seeks[j]?).map (·.markRead m M) else seeks[j]? := fun j => by
          rw [getElem?_modify, hseeks₂]
          by_cases hij : i = j
          · subst hij
            rw [if_pos mem_cons_self, hf]
            by_cases hi : i ∈ rest <;> simp [hi, markRead_markRead]
          · simp [hij, Ne.symm hij]
        obtain ⟨h1, h2, h3, h4⟩ := h.read_window hf hw hne hs
        rw [hvs, h1]
        exact ⟨_, _, i, rest, _, rfl, h2, h3, h.covers_window hf hw, h4, fun j l hj _ _ => (some.inj hj).symm⟩

end Read

/-! ## Moving on -/

/-- Position `j` comes after `pos` in the scan. -/
def Ahead (asc : Bool) (pos : Int) (j : ℕ) : Prop := if asc then pos < j else (j : Int) < pos

/-- A cursor between two reads: a location with points left comes after `pos`, or is the first of
`current`. -/
structure KeyCursor.Inv (C : BlockCodec Buf V) (ty : BlockType) (Ls : List (ValueArray V)) (W : Int)
    (c : KeyCursor Buf) : Prop where
  scan : Scan C ty c.key c.ascending W Ls c.seeks c.current
  ahead : ∀ j l, c.seeks[j]? = some l → l.left C ty c.key c.ascending W ≠ [] →
    Ahead c.ascending c.pos j ∨ ((j : Int) = c.pos ∧ c.current.head? = some j)

namespace KeyCursor

variable {C : BlockCodec Buf V} {ty : BlockType} {Ls : List (ValueArray V)} {W : Int} {c : KeyCursor Buf}

theorem Inv.unread (h : c.Inv C ty Ls W) {j : ℕ} (hl : c.seeks[j]? = some l)
    (hne : l.left C ty c.key c.ascending W ≠ []) : unread c.seeks j = true := by
  rw [KeyCursor.unread, hl, any_some, Bool.not_eq_true', ← Bool.not_eq_true]
  exact fun hr => hne ((h.scan.at_of_getElem? hl).left_eq_nil hr)

theorem Inv.ahead_of_read (h : c.Inv C ty Ls W) {i : ℕ} {rest : List ℕ} (hc : c.current = i :: rest)
    (hr : KeyCursor.unread c.seeks i = false) {j : ℕ} (hl : c.seeks[j]? = some l)
    (hne : l.left C ty c.key c.ascending W ≠ []) : Ahead c.ascending c.pos j := by
  refine (h.ahead j l hl hne).resolve_right fun hj => ?_
  rw [hc, head?_cons] at hj
  obtain rfl : i = j := some.inj hj.2
  rw [h.unread hl hne] at hr
  cases hr

/-- The new state of a cursor that lists the first unread position and all unread ones behind it. -/
theorem Inv.move (h : c.Inv C ty Ls W) {current : List ℕ} {pos : Int} (hlt : ∀ i ∈ current, i < c.seeks.length)
    (hsorted : current.Pairwise (fun i j => if c.ascending then i ≤ j else j ≤ i)) (hnodup : current.tail.Nodup)
    (hmem : ∀ j l, c.seeks[j]? = some l → l.left C ty c.key c.ascending W ≠ [] →
      j ∈ current ∧ (Ahead c.ascending pos j ∨ ((j : Int) = pos ∧ current.head? = some j))) :
    Inv C ty Ls W { c with pos, current } where
  scan := ⟨h.scan.locs, h.scan.lives, hlt, hsorted, hnodup, fun j l hl hne => (hmem j l hl hne).1⟩
  ahead j l hl hne := (hmem j l hl hne).2

theorem find?_split {l : List ℕ} {p : ℕ → Bool} {x : ℕ} (h : l.find? p = some x) :
    p x = true ∧ ∃ as bs, l = as ++ x :: bs ∧ ∀ a ∈ as, p a = false := by
  obtain ⟨h1, as, bs, h2, h3⟩ := find?_eq_some_iff_append.mp h
  exact ⟨h1, as, bs, h2, fun a ha => by simpa using h3 a ha⟩

/-- The positions ahead, in the order of the scan, hold every location with points left. -/
structure Inv.Lists (C : BlockCodec Buf V) (ty : BlockType) (W : Int) (c : KeyCursor Buf) (ahead : List ℕ) : Prop where
  lt : ∀ i ∈ ahead, i < c.seeks.length
  scan : ahead.Pairwise fun i j : ℕ => Ahead c.ascending i j
  mem : ∀ (j : ℕ) (l : Location Buf), c.seeks[j]? = some l → l.left C ty c.key c.ascending W ≠ [] → j ∈ ahead

variable (h : c.Inv C ty Ls W)
include h

theorem Inv.search_none {ahead : List ℕ} (ha : Inv.Lists C ty W c ahead)
    (hnone : ahead.find? (KeyCursor.unread c.seeks) = none) (last : Int) :
    Inv C ty Ls W { c with pos := last, current := [] } := by
  refine h.move (by simp) (by simp) (by simp) fun j l hl hne => ?_
  exact absurd (h.unread hl hne) (find?_eq_none.mp hnone j (ha.mem j l hl hne))

theorem Inv.search_some {ahead : List ℕ} {pos : ℕ} {q : ℕ → Bool} (ha : Inv.Lists C ty W c ahead)
    (hsome : ahead.find? (KeyCursor.unread c.seeks) = some pos)
    (hle : ∀ j, q j = true → if c.ascending then pos ≤ j else j ≤ pos)
    (hq : ∀ j, Ahead c.ascending pos j → KeyCursor.unread c.seeks j = true → q j = true) :
    Inv C ty Ls W { c with pos := pos, current := pos :: ahead.filter q } := by
  obtain ⟨hpos, as, bs, rfl, has⟩ := find?_split hsome
  have hbs : ∀ b ∈ bs, Ahead c.ascending pos b := (pairwise_cons.mp (pairwise_append.mp ha.scan).2.1).1
  refine h.move ?_ ?_ ?_ fun j l hl hne => ?_
  · exact forall_mem_cons.mpr ⟨ha.lt pos (by simp), fun i hi => ha.lt i (mem_filter.mp hi).1⟩
  · rw [pairwise_cons]
    refine ⟨fun i hi => hle i (mem_filter.mp hi).2, (ha.scan.filter _).imp fun hlt => ?_⟩
    rw [Ahead] at hlt
    split_ifs at hlt ⊢ <;> omega
  · refine (ha.scan.imp fun hlt => ?_).filter _
    rintro rfl
    rw [Ahead] at hlt
    split_ifs at hlt <;> omega
  · have hu := h.unread hl hne
    rcases mem_append.mp (ha.mem j l hl hne) with hj | hj
    · rw [has j hj] at hu
      cases hu
    · rcases mem_cons.mp hj with rfl | hb
      · exact ⟨mem_cons_self, .inr ⟨rfl, rfl⟩⟩
      · have hj := mem_filter.mpr ⟨ha.mem j l hl hne, hq j (hbs j hb) hu⟩
        exact ⟨mem_cons_of_mem _ hj, .inl (hbs j hb)⟩

variable (ha : ∀ j l, c.seeks[j]? = some l → l.left C ty c.key c.ascending W ≠ [] → Ahead c.ascending c.pos j)

include ha in
theorem nextAscending_spec (hasc : c.ascending = true) : c.nextAscending.Inv C ty Ls W := by
  have hlists : Inv.Lists C ty W c ((range c.seeks.length).filter (fun i : ℕ => (i : Int) > c.pos)) := by
    refine ⟨fun i hi => mem_range.mp (mem_filter.mp hi).1, ?_, fun j l hl hne => ?_⟩
    · simp only [Ahead, hasc, if_true, Int.ofNat_lt]
      exact pairwise_lt_range.filter _
    · have hj := ha j l hl hne
      rw [Ahead, if_pos hasc] at hj
      exact mem_filter.mpr ⟨mem_range.mpr (List.getElem?_eq_some_iff.mp hl).1, by simpa using hj⟩
  unfold nextAscending
  simp only
  split
  · exact h.search_none hlists ‹_› _
  · refine h.search_some hlists ‹_› (fun j hj => ?_) fun j hj hu => ?_
    · rw [if_pos hasc]
      simp only [Bool.and_eq_true, decide_eq_true_eq] at hj
      exact hj.1.le
    · rw [Ahead, if_pos hasc, Int.ofNat_lt] at hj
      rw [hu, Bool.and_true, decide_eq_true hj]

include ha in
theorem nextDescending_spec (hasc : c.ascending = false) : c.nextDescending.Inv C ty Ls W := by
  have hlists : Inv.Lists C ty W c ((range c.seeks.length).reverse.filter (fun i : ℕ => (i : Int) < c.pos)) := by
    refine ⟨fun i hi => mem_range.mp (mem_reverse.mp (mem_filter.mp hi).1), ?_, fun j l hl hne => ?_⟩
    · simp only [Ahead, hasc, Bool.false_eq_true, if_false, Int.ofNat_lt]
      exact (pairwise_reverse.mpr pairwise_lt_range).filter _
    · have hj := ha j l hl hne
      rw [Ahead, if_neg (by simp [hasc])] at hj
      refine mem_filter.mpr ⟨?_, by simpa using hj⟩
      exact mem_reverse.mpr (mem_range.mpr (List.getElem?_eq_some_iff.mp hl).1)
  unfold nextDescending
  simp only
  split
  · exact h.search_none hlists ‹_› _
  · refine h.search_some hlists ‹_› (fun j hj => ?_) fun j hj hu => ?_
    · rw [if_neg (by simp [hasc])]
      simp only [Bool.and_eq_true, decide_eq_true_eq] at hj
      exact hj.1
    · rw [Ahead, if_neg (by simp [hasc]), Int.ofNat_lt] at hj
      rw [hu, Bool.and_true, decide_eq_true hj.le]

/-- **`Next`** keeps the state. -/
theorem next_spec : c.next.Inv C ty Ls W := by
  unfold next
  split
  · exact h
  · rename_i i rest hc
    split_ifs with hu hasc
    · exact h
    · exact nextAscending_spec h (fun j l => h.ahead_of_read hc (by simpa using hu)) hasc
    · exact nextDescending_spec h (fun j l => h.ahead_of_read hc (by simpa using hu)) (by simpa using hasc)

omit h

theorem next_ascending (c : KeyCursor Buf) : c.next.ascending = c.ascending := by
  unfold next nextAscending nextDescending
  split
  · rfl
  · split_ifs
    · rfl
    · simp only
      split <;> rfl
    · simp only
      split <;> rfl

/-! ## A whole run -/

/-- The points of the blocks of a run, in ascending order. -/
def assemble (asc : Bool) (out : List (ValueArray V)) : ValueArray V :=
  if asc then out.flatten else out.reverse.flatten

/-- The number of points ahead of the watermark. -/
def pointsAhead (asc : Bool) (Ls : List (ValueArray V)) (W : Int) : ℕ :=
  Ls.flatten.countP (fun p => ¬ Done asc W p.1)

theorem readArrayBlock_spec (h : c.Inv C ty Ls W) :
    (∃ c', c.readArrayBlock C ty = .ok ([], c') ∧ ∀ t, ¬ Done c.ascending W t → lastOf Ls t = none) ∨
    ∃ B c' W', c.readArrayBlock C ty = .ok (B, c') ∧ B ≠ [] ∧ ¬ Done c.ascending W W' ∧
      Covers B (lastOf Ls) (fun t => ¬ Done c.ascending W t ∧ Done c.ascending W' t) ∧
      c'.Inv C ty Ls W' ∧ c'.ascending = c.ascending := by
  unfold readArrayBlock
  rcases readFrom_spec h.scan with ⟨h1, h2⟩ | ⟨B, seeks', i, rest, W', h1, h2, h3, h4, h5, h6⟩
  · rw [h1]
    exact .inl ⟨_, rfl, fun t ht => h.scan.lastOf_eq_none h2 ht⟩
  · rw [h1]
    refine .inr ⟨B, _, W', rfl, h2, h3, h4, ⟨h5, fun j l' hl' hne => ?_⟩, rfl⟩
    -- a location with points left after the read had some before it
    obtain ⟨p, hp⟩ := exists_mem_of_ne_nil _ hne
    obtain ⟨hp1, hp2⟩ := mem_left.mp hp
    have hlt : j < c.seeks.length := by
      rw [← h.scan.length_eq, h5.length_eq]
      exact (List.getElem?_eq_some_iff.mp hl').1
    have hl := getElem?_eq_getElem hlt
    have hleft : c.seeks[j].left C ty c.key c.ascending W ≠ [] := by
      refine ne_nil_of_mem (mem_left.mpr ⟨?_, fun hd => hp2 ?_⟩ : p ∈ _)
      · rw [h.scan.live_eq hl, ← h5.live_eq hl']
        exact hp1
      · unfold Done at h3 hd ⊢
        split_ifs at h3 hd ⊢ <;> omega
    refine (h.ahead j _ hl hleft).imp_right fun hj => ⟨hj.1, ?_⟩
    rw [h6 j _ hj.2 hl hleft]
    rfl

theorem Covers.pointsAhead_lt {asc : Bool} {B : ValueArray V} {W' : Int}
    (h : Covers B (lastOf Ls) (fun t => ¬ Done asc W t ∧ Done asc W' t)) (hB : B ≠ [])
    (hW : ¬ Done asc W W') : pointsAhead asc Ls W' < pointsAhead asc Ls W := by
  obtain ⟨p, hp⟩ := exists_mem_of_ne_nil _ hB
  have hreg := h.mem_region hp
  have hval := h.valueAt_of_mem p.1 hreg
  rw [h.asc.valueAt_of_mem hp] at hval
  obtain ⟨l, hl, hne⟩ : ∃ l ∈ Ls, valueAt l p.1 ≠ none := by
    by_contra! hno
    rw [Timed.lastOf_eq_none.mpr hno] at hval
    cases hval
  obtain ⟨v, hv⟩ := ne_none_iff_exists'.mp hne
  refine countP_lt_of_imp (fun q _ hq => ?_)
    ⟨(p.1, v), mem_flatten.mpr ⟨l, hl, Timed.mem_of_valueAt hv⟩, ?_, ?_⟩
  · rw [decide_eq_true_eq] at hq ⊢
    refine fun hd => hq ?_
    unfold Done at hW hd ⊢
    split_ifs at hW hd ⊢ <;> omega
  · rw [decide_eq_true_eq]
    exact hreg.1
  · rw [decide_eq_false_iff_not, not_not]
    exact hreg.2

/-- **Successive reads** end and return the last-write-wins map ahead of the watermark. -/
theorem readAll_spec (h : c.Inv C ty Ls W) : ∃ N out, (∀ fuel ≥ N, c.readAll C ty fuel = some (.ok out)) ∧
      Covers (assemble c.ascending out) (lastOf Ls) (fun t => ¬ Done c.ascending W t) := by
  generalize hn : pointsAhead c.ascending Ls W = n
  induction n using Nat.strong_induction_on generalizing c W with
  | h n ih =>
    rcases readArrayBlock_spec h with ⟨c', h1, h2⟩ | ⟨B, c', W', h1, hB, hW, hcov, hinv, hasc⟩
    · refine ⟨1, [], fun fuel hfuel => ?_, ?_⟩
      · obtain ⟨fuel, rfl⟩ : ∃ k, fuel = k + 1 := ⟨fuel - 1, by omega⟩
        rw [readAll, h1]
        rfl
      · have hnil : assemble c.ascending ([] : List (ValueArray V)) = [] := by simp [assemble]
        rw [hnil]
        exact (Covers.nil (P := fun _ => False) fun _ hf => hf).grow (fun _ hf => hf.elim)
          fun t ht _ => h2 t ht
    · have hlt := Covers.pointsAhead_lt hcov hB hW
      have hnext := next_spec hinv
      have hasc' := next_ascending c'
      obtain ⟨N, out, hout, hcov'⟩ := ih _ (by rw [hasc', hasc, ← hn]; exact hlt) hnext rfl
      refine ⟨N + 1, B :: out, fun fuel hfuel => ?_, ?_⟩
      · obtain ⟨fuel, rfl⟩ : ∃ k, fuel = k + 1 := ⟨fuel - 1, by omega⟩
        rw [readAll, h1]
        simp only
        rw [if_neg hB, hout fuel (by omega)]
        rfl
      · rw [hasc', hasc] at hcov'
        have hsplit : ∀ t, (¬ Done c.ascending W t ∧ Done c.ascending W' t) ∨ ¬ Done c.ascending W' t ↔
            ¬ Done c.ascending W t := fun t => by
          unfold Done at hW ⊢
          split_ifs at hW ⊢ <;> omega
        cases hdir : c.ascending with
        | true =>
          rw [hdir] at hcov hcov' hsplit
          refine Covers.congr (hcov.append hcov' fun s t hs ht => ?_) hsplit fun _ _ => rfl
          rw [done_true] at hs ht
          simp only [done_true] at hs
          omega
        | false =>
          rw [hdir] at hcov hcov' hsplit
          have happ : assemble false (B :: out) = assemble false out ++ B := by simp [assemble]
          rw [happ]
          refine Covers.congr (hcov'.append hcov fun s t hs ht => ?_)
            (fun t => or_comm.trans (hsplit t)) fun _ _ => rfl
          simp only [done_false] at hs ht
          omega

end KeyCursor

end Influxdb.Tsm1
