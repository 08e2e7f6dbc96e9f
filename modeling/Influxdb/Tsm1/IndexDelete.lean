import Mathlib.Data.List.Pairwise
import Influxdb.Tsm1.IndexLayout

/-!
# IndexDelete — what deletions leave of an index

`Delete` leaves the records whose keys are not deleted.  `DeleteRange` gives every key of the table a verdict from its
entries and its tombstones: the keys that are deleted completely leave the table, and the others get one more range.
When the window over the sorted ranges of a key reaches around all of its entries, the ranges together cover them.
-/

namespace Influxdb.Tsm1.Disk

open List IndirectIndex Verdict Option
open BitVec (ofNat)

variable {k : Key} {ts : List TimeRange}

/-! ## Sorting -/

theorem mem_sortKeys {keys : List Key} : k ∈ sortKeys keys ↔ k ∈ keys := mem_mergeSort

theorem pairwise_sortKeys (keys : List Key) : (sortKeys keys).Pairwise (· ≤ ·) := by
  have h := @List.pairwise_mergeSort _ (fun a b : Key => a ≤ b)
    (fun a b c hab hbc => decide_eq_true ((of_decide_eq_true hab).trans (of_decide_eq_true hbc)))
    (fun a b => by simpa using le_total a b) keys
  exact h.imp fun h => of_decide_eq_true h

theorem mem_dropWhile_lt {keys : List Key} {k' : Key} (h : k ≤ k') : k' ∈ keys.dropWhile (· < k) ↔ k' ∈ keys := by
  induction keys with
  | nil => rfl
  | cons key keys ih =>
    rw [dropWhile_cons]
    split
    case isTrue hlt =>
      have hne : k' ≠ key := ((of_decide_eq_true hlt).trans_le h).ne'
      rw [ih, mem_cons, or_iff_right hne]
    case isFalse => rfl

theorem le_of_dropWhile_lt {keys rest : List Key} {key : Key} (h : keys.dropWhile (· < k) = key :: rest) : k ≤ key := by
  have hhead := head?_dropWhile_not (p := fun x => x < k) keys
  rw [h] at hhead
  simpa using hhead

/-! ## Removing keys -/

def without (live : List (ℕ × KeyRecord)) (keys : List Key) : List (ℕ × KeyRecord) :=
  live.filter fun p => p.2.key ∉ keys

theorem pack_ofNat {o : ℕ} (h : o < 2 ^ 31) (offsets : List (BitVec 32)) :
    pack (ofNat 32 o :: offsets) 255 = ofNat 32 o :: pack offsets 255 := by
  refine filter_cons_of_pos (decide_eq_true ?_)
  intro heq
  have hnat := congrArg BitVec.toNat heq
  rw [BitVec.toNat_setWidth, BitVec.toNat_ushiftRight, BitVec.toNat_ofNat, Nat.mod_eq_of_lt (by omega : o < 2 ^ 32),
    Nat.shiftRight_eq_div_pow] at hnat
  have h255 : (255 : Byte).toNat = 255 := rfl
  omega

theorem pack_map {live : List (ℕ × KeyRecord)} (h : ∀ p ∈ live, p.1 < 2 ^ 31) (offsets : List (BitVec 32)) :
    pack (live.map (fun p => ofNat 32 p.1) ++ offsets) 255 = live.map (fun p => ofNat 32 p.1) ++ pack offsets 255 := by
  induction live with
  | nil => rfl
  | cons p live ih =>
    rw [map_cons, cons_append, pack_ofNat (h p mem_cons_self), ih (forall_mem_cons.mp h).2]
    rfl

namespace Loaded

variable {d : IndirectIndex} {live : List (ℕ × KeyRecord)} {p : ℕ × KeyRecord} {keys : List Key}

theorem pack_deleteLoop (hkey : ∀ p ∈ live, d.keyOf (ofNat 32 p.1) = p.2.key) (hlt : ∀ p ∈ live, p.1 < 2 ^ 31)
    (hasc : live.Pairwise fun p q => p.2.key < q.2.key) (hkeys : keys.Pairwise (· ≤ ·)) :
    pack (d.deleteLoop (live.map fun p => ofNat 32 p.1) keys) 255 = (without live keys).map fun p => ofNat 32 p.1 := by
  induction live generalizing keys with
  | nil => rfl
  | cons p live ih =>
    obtain ⟨hp, hasc⟩ := pairwise_cons.mp hasc
    have hkey' : ∀ q ∈ live, d.keyOf (ofNat 32 q.1) = q.2.key := (forall_mem_cons.mp hkey).2
    have hlt' : ∀ q ∈ live, q.1 < 2 ^ 31 := (forall_mem_cons.mp hlt).2
    -- the keys that are skipped before `p` are none of the keys from `p` on
    have hmem : ∀ q ∈ p :: live, q.2.key ∈ keys ↔ q.2.key ∈ keys.dropWhile (· < p.2.key) := by
      intro q hq
      refine (mem_dropWhile_lt ?_).symm
      rcases mem_cons.mp hq with rfl | hq
      · exact le_rfl
      · exact (hp q hq).le
    have hwithout : without (p :: live) keys = without (p :: live) (keys.dropWhile (· < p.2.key)) := by
      refine filter_congr fun q hq => ?_
      rw [decide_eq_decide, hmem q hq]
    have hsorted : (keys.dropWhile (· < p.2.key)).Pairwise (· ≤ ·) := hkeys.sublist (dropWhile_sublist _)
    rw [map_cons, IndirectIndex.deleteLoop, hkey p mem_cons_self, hwithout]
    rcases hdrop : keys.dropWhile (· < p.2.key) with _ | ⟨key, rest⟩
    · simp only
      have hpack := pack_map (fun q hq => hlt q hq) ([] : List (BitVec 32))
      rw [append_nil, map_cons] at hpack
      simp only [without, not_mem_nil, not_false_eq_true, decide_true, filter_true]
      rw [hpack]
      exact append_nil _
    · have hle := le_of_dropWhile_lt hdrop
      rw [hdrop] at hsorted
      obtain ⟨hkeyle, hrest⟩ := pairwise_cons.mp hsorted
      simp only
      split_ifs with heq
      · rw [pack, filter_cons_of_neg (by decide), ← pack, ih hkey' hlt' hasc hrest]
        have hnot : without (p :: live) (key :: rest) = without live (key :: rest) :=
          filter_cons_of_neg (by simp [heq])
        rw [hnot]
        refine congrArg _ (filter_congr fun q hq => ?_)
        rw [decide_eq_decide, mem_cons, or_iff_right (heq ▸ (hp q hq).ne')]
      · rw [pack_ofNat (hlt p mem_cons_self), ih hkey' hlt' hasc hsorted]
        have hnot : p.2.key ∉ key :: rest := by
          intro hin
          rcases mem_cons.mp hin with h | h
          · exact heq h.symm
          · exact heq (le_antisymm (hkeyle _ h) hle)
        have hkept : without (p :: live) (key :: rest) = p :: without live (key :: rest) :=
          filter_cons_of_pos (decide_eq_true hnot)
        rw [hkept, map_cons]

/-- **`Delete`** removes the keys from the table and nothing else. -/
theorem delete (h : Loaded d live) (keys : List Key) :
    Loaded (d.delete keys) (without live keys) ∧ ∃ offsets, d.delete keys = { d with offsets := offsets } := by
  have hlt : ∀ p ∈ live, p.1 < 2 ^ 31 := fun p hp => (h.offset_lt hp).trans h.size_lt
  have hsub : ∀ p ∈ without live keys, p ∈ live := fun p hp => mem_of_mem_filter hp
  have hwithout : without live keys = without live (sortKeys keys) := by
    refine filter_congr fun q _ => ?_
    rw [decide_eq_decide, mem_sortKeys]
  have hoffsets : (d.delete keys).offsets = (without live keys).map (fun p => ofNat 32 p.1) ∧
      ∃ offsets, d.delete keys = { d with offsets := offsets } := by
    have hsorted := pairwise_sortKeys keys
    rw [hwithout, IndirectIndex.delete]
    rcases hkeys : sortKeys keys with _ | ⟨key, rest⟩
    · refine ⟨?_, d.offsets, rfl⟩
      simp only [without, not_mem_nil, not_false_eq_true, decide_true, filter_true]
      exact h.offsets
    · refine ⟨?_, _, rfl⟩
      rw [hkeys] at hsorted
      obtain ⟨hle, -⟩ := pairwise_cons.mp hsorted
      have hstart : d.searchOffset key = min (rank live key) (live.length - 1) := h.seek_eq key
      simp only [hstart, h.offsets, ← map_take, ← map_drop]
      generalize hs : min (rank live key) (live.length - 1) = start
      have hkept : without (live.take start) (key :: rest) = live.take start := by
        refine filter_eq_self.mpr fun p hp => decide_eq_true ?_
        obtain ⟨i, hi, rfl⟩ := getElem_of_mem hp
        rw [length_take] at hi
        rw [getElem_take]
        have hlt' : live[i].2.key < key := (h.getElem_lt_iff (by omega) key).mpr (by omega)
        intro hin
        rcases mem_cons.mp hin with heq | hin
        · exact hlt'.ne heq
        · exact (hlt'.trans_le (hle _ hin)).false
      rw [pack_map fun p hp => hlt p (mem_of_mem_take hp),
        pack_deleteLoop (fun p hp => h.keyOf (mem_of_mem_drop hp)) (fun p hp => hlt p (mem_of_mem_drop hp))
          (h.asc.sublist (drop_sublist _ _)) hsorted]
      conv_rhs => rw [← take_append_drop start live, without, filter_append, ← without, ← without, hkept]
      rw [map_append]
  obtain ⟨hoffsets, offsets, heq⟩ := hoffsets
  refine ⟨⟨hoffsets, ?_, fun p hp => h.fits p (hsub p hp), h.asc.sublist filter_sublist, ?_, ?_⟩, offsets, heq⟩
  all_goals rw [heq]
  · exact fun p hp => h.records p (hsub p hp)
  · exact fun p hp => h.between p (hsub p hp)
  · exact h.size_lt

end Loaded

/-! ## Ranges that cover a key -/

/-- Ranges in the order of their starts. -/
def ByStart (ts : List TimeRange) : Prop := ts.Pairwise fun a b => a.min ≤ b.min

theorem rangeLess_iff {a b : TimeRange} : rangeLess a b = true ↔ a.min < b.min ∨ (a.min = b.min ∧ a.max ≤ b.max) := by
  unfold rangeLess
  split_ifs with h
  · simp [h]
  · simp [h]

theorem byStart_of_rangesSorted : ∀ {ts : List TimeRange}, rangesSorted ts = true → ByStart ts
  | [], _ => Pairwise.nil
  | [a], _ => pairwise_singleton _ a
  | a :: b :: rest, h => by
    rw [rangesSorted, Bool.and_eq_true, Bool.not_eq_true', ← Bool.not_eq_true, rangeLess_iff] at h
    have ih := byStart_of_rangesSorted h.2
    have hab : a.min ≤ b.min := by
      by_contra hlt
      exact h.1 (.inl (by omega))
    exact pairwise_cons_cons_iff_of_trans.mpr ⟨hab, ih⟩

theorem byStart_sortRanges (ts : List TimeRange) : ByStart (sortRanges ts) := by
  unfold sortRanges
  split_ifs with h
  · exact byStart_of_rangesSorted h
  · have hsorted := @List.pairwise_mergeSort _ rangeLess
      (fun a b c hab hbc => by
        rw [rangeLess_iff] at hab hbc ⊢
        omega)
      (fun a b => by
        rw [Bool.or_eq_true, rangeLess_iff, rangeLess_iff]
        omega) ts
    refine hsorted.imp fun h => ?_
    rw [rangeLess_iff] at h
    omega

theorem mem_sortRanges {r : TimeRange} : r ∈ sortRanges ts ↔ r ∈ ts := by
  unfold sortRanges
  split_ifs
  · rfl
  · exact mem_mergeSort

/-- The ends of a range are values of an `int64`. -/
def InInt64 (r : TimeRange) : Prop :=
  minInt64 ≤ r.min ∧ r.min ≤ maxInt64 ∧ minInt64 ≤ r.max ∧ r.max ≤ maxInt64

theorem int64_of_le {x : Int} (h1 : minInt64 ≤ x) (h2 : x ≤ maxInt64) : int64 x = x := by
  rw [minInt64] at h1
  rw [maxInt64] at h2
  rw [int64, BitVec.toInt_ofInt]
  exact Int.bmod_eq_of_le (by omega) (by omega)

/-- The source's test for no gap: the next range starts at the end of the one before it or earlier, or the one before
it reaches to the end of time. -/
theorem no_gap {prev ts : TimeRange} (hts : InInt64 ts)
    (h : ¬ (prev.max ≠ int64 (ts.min - 1) ∧ overlaps prev ts.min ts.max = false)) :
    ts.min ≤ prev.max + 1 ∨ ts.max ≤ prev.max := by
  obtain ⟨h1, h2, h3, h4⟩ := hts
  by_cases hmax : prev.max = int64 (ts.min - 1)
  · by_cases hmin : ts.min = minInt64
    · right
      rw [hmin, show int64 (minInt64 - 1) = maxInt64 from rfl] at hmax
      omega
    · left
      rw [int64_of_le (by omega) (by omega)] at hmax
      omega
  · left
    have hover : overlaps prev ts.min ts.max = true := by
      by_contra hnot
      exact h ⟨hmax, Bool.not_eq_true _ ▸ hnot⟩
    rw [overlaps, Bool.and_eq_true, decide_eq_true_eq, decide_eq_true_eq] at hover
    omega

/-- All times of the window are in ranges of the list. -/
def Covered (all : List TimeRange) (lo hi : Int) : Prop := ∀ t, lo ≤ t → t ≤ hi → ∃ r ∈ all, r.Has t

theorem windowLoop_covered {all : List TimeRange} : ∀ rest {lo hi : Int} {prev : TimeRange},
    Covered all lo hi → lo ≤ prev.min → prev.max ≤ hi → ByStart (prev :: rest) → (∀ r ∈ rest, InInt64 r ∧ r ∈ all) →
      windowLoop lo hi prev rest = (maxInt64, minInt64) ∨
        Covered all (windowLoop lo hi prev rest).1 (windowLoop lo hi prev rest).2
  | [], _, _, _, hcov, _, _, _, _ => .inr hcov
  | ts :: rest, lo, hi, prev, hcov, hlo, hhi, hord, hall => by
    obtain ⟨hprev, hrest⟩ := pairwise_cons.mp hord
    obtain ⟨hint, hmem⟩ := hall ts mem_cons_self
    have hmin := hprev ts mem_cons_self
    rw [windowLoop]
    split_ifs with hgap hlt hgt
    · exact .inl rfl
    · omega
    · omega
    · refine windowLoop_covered rest ?_ (by omega) le_rfl hrest (forall_mem_cons.mp hall).2
      have hnogap := no_gap hint hgap
      intro t h1 h2
      by_cases ht : t ≤ hi
      · exact hcov t h1 ht
      · exact ⟨ts, hmem, by omega, h2⟩
    · exact windowLoop_covered rest hcov (by omega) (by omega) hrest (forall_mem_cons.mp hall).2

/-- **The window.**  When it reaches around some times of an `int64`, ranges cover them. -/
theorem window_covers (hord : ByStart ts) (hint : ∀ r ∈ ts, InInt64 r) {lo hi : Int}
    (hle : lo ≤ hi) (h : (window ts).1 ≤ lo ∧ (window ts).2 ≥ hi) : Covered ts lo hi := by
  have hturned : window ts ≠ (maxInt64, minInt64) := by
    intro heq
    rw [heq, minInt64, maxInt64] at h
    omega
  rcases ts with _ | ⟨ts, rest⟩
  · exact absurd rfl hturned
  · have hall : ∀ r ∈ rest, InInt64 r ∧ r ∈ ts :: rest := fun r hr =>
      ⟨hint r (mem_cons_of_mem _ hr), mem_cons_of_mem _ hr⟩
    have hfirst : Covered (ts :: rest) ts.min ts.max := fun t h1 h2 => ⟨ts, mem_cons_self, h1, h2⟩
    have hcov := (windowLoop_covered rest hfirst le_rfl le_rfl hord hall).resolve_left hturned
    exact fun t h1 h2 => hcov t (h.1.trans h1) (h2.trans h.2)

/-! ## Verdicts -/

namespace IndirectIndex

def Verdict.gone : Verdict → Bool
  | .full => true
  | .covered _ => true
  | _ => false

/-- The new tombstones of the key. -/
def Verdict.added : Verdict → Option (List TimeRange)
  | .left newTs => some newTs
  | .covered newTs => some newTs
  | _ => none

variable (d : IndirectIndex)

variable (lo hi : Int)

/-- What a range does to the key of a record. -/
def verdictOf (p : ℕ × KeyRecord) : Verdict :=
  verdict (d.tombstones p.2.key) lo hi p.2.entries

def goneOf (keys : List Key) (p : ℕ × KeyRecord) : Option Key :=
  if p.2.key ∈ keys then if (d.verdictOf lo hi p).gone then some p.2.key else none else none

/-- The key with its new tombstones. -/
def addedOf (keys : List Key) (p : ℕ × KeyRecord) : Option (Key × List TimeRange) :=
  if p.2.key ∈ keys then (d.verdictOf lo hi p).added.map fun ts => (p.2.key, ts) else none

variable {d : IndirectIndex} {lo hi : Int} {live : List (ℕ × KeyRecord)} {p : ℕ × KeyRecord} {keys full : List Key}
  {tombstones : List (Key × List TimeRange)}

theorem deleteRangeLoop_nil (offsets : List (BitVec 32)) :
    d.deleteRangeLoop lo hi offsets [] full tombstones = .ok (full, tombstones) := by
  cases offsets <;> rfl

/-- **One round** gives one key its verdict, and drops keys that are not greater. -/
theorem deleteRangeLoop_cons {offset : BitVec 32} (offsets : List (BitVec 32))
    (hread : d.readEntriesAt offset.toNat = .ok (p.2.key, p.2.entries)) (hkeys : keys.Pairwise (· ≤ ·))
    (hnew : tombstones.lookup p.2.key = none) :
    ∃ keys', keys'.Pairwise (· ≤ ·) ∧ (∀ k, p.2.key < k → (k ∈ keys' ↔ k ∈ keys)) ∧
      d.deleteRangeLoop lo hi (offset :: offsets) keys full tombstones =
        d.deleteRangeLoop lo hi offsets keys' (full ++ (d.goneOf lo hi keys p).toList)
          ((d.addedOf lo hi keys p).toList ++ tombstones) := by
  have hmem : ∀ k, p.2.key ≤ k → (k ∈ keys.dropWhile (· < p.2.key) ↔ k ∈ keys) := fun k hk => mem_dropWhile_lt hk
  have hsorted : (keys.dropWhile (· < p.2.key)).Pairwise (· ≤ ·) := hkeys.sublist (dropWhile_sublist _)
  rw [deleteRangeLoop]
  by_cases hnil : keys = []
  · subst hnil
    refine ⟨[], hkeys, fun _ _ => Iff.rfl, ?_⟩
    rw [if_pos rfl, goneOf, addedOf, if_neg not_mem_nil, if_neg not_mem_nil, deleteRangeLoop_nil,
      toList_none, append_nil, toList_none, nil_append]
  rw [if_neg hnil, hread]
  simp only [bind, Except.bind]
  rcases hdrop : keys.dropWhile (· < p.2.key) with _ | ⟨key, rest⟩
  · rw [hdrop] at hmem
    have hnot : p.2.key ∉ keys := fun h => nomatch (hmem _ le_rfl).mpr h
    refine ⟨[], Pairwise.nil, fun k hk => hmem k hk.le, ?_⟩
    rw [goneOf, addedOf, if_neg hnot, if_neg hnot, deleteRangeLoop_nil, toList_none, append_nil,
      toList_none, nil_append]
  rw [hdrop] at hmem hsorted
  obtain ⟨hkeyle, hrest⟩ := pairwise_cons.mp hsorted
  simp only
  by_cases hgt : key > p.2.key
  · have hnot : p.2.key ∉ keys := by
      intro hin
      rcases mem_cons.mp ((hmem _ le_rfl).mpr hin) with heq | hin
      · exact hgt.ne heq
      · exact (hgt.trans_le (hkeyle _ hin)).false
    refine ⟨key :: rest, hsorted, fun k hk => hmem k hk.le, ?_⟩
    rw [if_pos hgt, goneOf, addedOf, if_neg hnot, if_neg hnot, toList_none, append_nil, toList_none, nil_append]
  -- the first key that is left is the one of the record
  obtain rfl : key = p.2.key := le_antisymm (not_lt.mp hgt) (le_of_dropWhile_lt hdrop)
  have hin : p.2.key ∈ keys := (hmem _ le_rfl).mp mem_cons_self
  have hrestmem : ∀ k, p.2.key < k → (k ∈ rest ↔ k ∈ keys) := by
    intro k hk
    rw [← hmem k hk.le, mem_cons, or_iff_right hk.ne']
  rw [if_neg hgt, hnew, getD_none, append_nil, ← verdictOf, goneOf, addedOf, if_pos hin, if_pos hin]
  rcases d.verdictOf lo hi p with _ | _ | newTs | newTs
  · exact ⟨p.2.key :: rest, hsorted, fun k hk => hmem k hk.le, by simp [gone, added]⟩
  · exact ⟨rest, hrest, hrestmem, by simp [gone, added]⟩
  · exact ⟨p.2.key :: rest, hsorted, fun k hk => hmem k hk.le, by simp [gone, added]⟩
  · exact ⟨rest, hrest, hrestmem, by simp [gone, added]⟩

/-- **The loop of `DeleteRange`** gives every key of the table its verdict. -/
theorem deleteRangeLoop_eq (hread : ∀ p ∈ live, d.readEntriesAt (ofNat 32 p.1).toNat = .ok (p.2.key, p.2.entries))
    (hasc : live.Pairwise fun p q => p.2.key < q.2.key) (hkeys : keys.Pairwise (· ≤ ·))
    (hnew : ∀ p ∈ live, tombstones.lookup p.2.key = none) :
    d.deleteRangeLoop lo hi (live.map fun p => ofNat 32 p.1) keys full tombstones =
      .ok (full ++ live.filterMap (d.goneOf lo hi keys),
        (live.filterMap (d.addedOf lo hi keys)).reverse ++ tombstones) := by
  induction live generalizing keys full tombstones with
  | nil => simp [deleteRangeLoop]
  | cons p live ih =>
    obtain ⟨hp, hasc⟩ := pairwise_cons.mp hasc
    obtain ⟨keys', hsorted, hmem, hstep⟩ := deleteRangeLoop_cons (d := d) (live.map fun p => ofNat 32 p.1)
      (hread p mem_cons_self) hkeys (hnew p mem_cons_self)
    have hgone : live.filterMap (d.goneOf lo hi keys') = live.filterMap (d.goneOf lo hi keys) :=
      filterMap_congr fun q hq => by simp only [goneOf, hmem q.2.key (hp q hq)]
    have hadded : live.filterMap (d.addedOf lo hi keys') = live.filterMap (d.addedOf lo hi keys) :=
      filterMap_congr fun q hq => by simp only [addedOf, hmem q.2.key (hp q hq)]
    rw [map_cons, hstep, ih (forall_mem_cons.mp hread).2 hasc hsorted, hgone, hadded]
    · rw [filterMap_cons, filterMap_cons]
      rcases d.goneOf lo hi keys p with _ | k <;> rcases d.addedOf lo hi keys p with _ | q <;> simp
    · -- the only new pair is that of `p`
      intro q hq
      have hold := hnew q (mem_cons_of_mem _ hq)
      unfold addedOf
      split_ifs
      · rcases (d.verdictOf lo hi p).added with _ | newTs
        · exact hold
        · rw [map_some, toList_some, singleton_append, lookup_cons,
            show (q.2.key == p.2.key) = false from beq_false_of_ne (hp q hq).ne']
          exact hold
      · exact hold

end IndirectIndex

end Influxdb.Tsm1.Disk
