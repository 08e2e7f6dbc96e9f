import Mathlib.Algebra.Ring.Int.Defs
import Mathlib.Data.List.GetD
import Influxdb.Tsm1.Index

/-!
# IndexScan — opening an index, also a damaged one

A round of `UnmarshalBinary` makes four reads.  Before each of them its end is compared with the length of the bytes, in
32 bits.  `scanKey_spec` says what a round does to any bytes: the first read that is not inside decides.  Opening is
safe exactly if that read ends behind the bytes, where the check sees it, and if the record of a round without one is
there as a whole.  A count of zero moves the last read before the bytes, and nothing asks for the last twelve bytes of a
record.
-/

namespace Influxdb.Tsm1.Disk

open List

/-! ## Integers and slices -/

theorem int32_eq {x : Int} (h0 : -2 ^ 31 ≤ x) (h : x < 2 ^ 31) : int32 x = x := by
  rw [int32, BitVec.toInt_ofInt]
  exact Int.bmod_eq_of_le (by omega) (by omega)

theorem int32_of_lt {x : Int} (h0 : 0 ≤ x) (h : x < 2 ^ 31) : int32 x = x := int32_eq (by omega) h

theorem int32_wrap {x : Int} (h : 2 ^ 31 ≤ x) (h' : x < 2 ^ 32) : int32 x = x - 2 ^ 32 := by
  rw [int32, BitVec.toInt_ofInt, Int.bmod_def]
  omega

theorem int32_int32_add (x y : Int) : int32 (int32 x + y) = int32 (x + y) := by
  rw [int32, int32, int32, BitVec.ofInt_add, BitVec.ofInt_toInt, ← BitVec.ofInt_add]

@[simp] theorem uint16_take (b : List Byte) : uint16 (b.take 2) = uint16 b := by
  rw [uint16, take_take, uint16, min_self]

@[simp] theorem uint64_take (b : List Byte) : uint64 (b.take 8) = uint64 b := by
  rw [uint64, take_take, uint64, min_self]

/-! ## One round -/

namespace IndirectIndex

/-- The length of the key at `o`. -/
def keyLenAt (b : List Byte) (o : ℕ) : ℕ := (uint16 (b.drop o)).toNat

def countAt (b : List Byte) (o : ℕ) : ℕ := (uint16 (b.drop (o + (3 + keyLenAt b o)))).toNat

/-- Where the record at `o` ends. -/
def recordEnd (b : List Byte) (o : ℕ) : ℕ := o + (5 + keyLenAt b o + 28 * countAt b o)

/-- The reads of a round: the length of the key, the count, and the first and the last time. -/
def reads (b : List Byte) (o : ℕ) : List (Int × Int) :=
  [(o, o + 2), (o + 3 + keyLenAt b o, o + 5 + keyLenAt b o), (o + 5 + keyLenAt b o, o + 13 + keyLenAt b o),
    (recordEnd b o - 20, recordEnd b o - 12)]

def outside (iMax : Int) (r : Int × Int) : Bool := !decide (0 ≤ r.1 ∧ r.2 < iMax)

/-- The errors that `UnmarshalBinary` returns. -/
def returned : List String :=
  ["indirectIndex: not enough data for key length value", "indirectIndex: not enough data for index entries count",
    "indirectIndex: not enough data for min time", "indirectIndex: not enough data for max time"]

/-- A chain of reads with their checks: the first one outside gives an error, and all of them inside give `y`. -/
def Reads (iMax : Int) (rs : List (Int × Int)) (x y : Except String Scan) : Prop :=
  (∀ r, rs.find? (outside iMax) = some r → ∃ msg ∈ returned,
    x = .error (if iMax ≤ r.2 ∧ r.2 < 2 ^ 31 then msg else "slice bounds out of range")) ∧
  (rs.find? (outside iMax) = none → x = y)

variable {b : List Byte} {iMax : Int} {o : ℕ} {s : Scan}

theorem inside_of_mem {rs : List (Int × Int)} {r : Int × Int} (h : rs.find? (outside iMax) = none) (hr : r ∈ rs) :
    0 ≤ r.1 ∧ r.2 < iMax := by
  simpa [outside] using find?_eq_none.mp h r hr

theorem recordEnd_bounds (b : List Byte) (o : ℕ) :
    o + 5 + keyLenAt b o ≤ recordEnd b o ∧ recordEnd b o < o + 2 ^ 21 := by
  have hk : keyLenAt b o < 2 ^ 16 := BitVec.isLt _
  have hn : countAt b o < 2 ^ 16 := BitVec.isLt _
  rw [recordEnd]
  omega

section Round

variable (hpos : 0 ≤ iMax) (hmax : iMax ≤ b.length) (hlt : iMax < 2 ^ 31)
include hpos hmax hlt

theorem Reads.cons {msg : String} (hmsg : msg ∈ returned) {f : List Byte → Except String Scan} {u v u' v' : Int}
    {y : Except String Scan} {rs : List (Int × Int)} (k : ℕ) (hk : v = u + k) (hu : u' = u) (hv : v' = v)
    (h0 : -2 ^ 31 ≤ u) (h32 : v < 2 ^ 32) (h : Reads iMax rs (f ((b.drop u.toNat).take k)) y) :
    Reads iMax ((u', v') :: rs) (if int32 v ≥ iMax then .error msg else slice b (int32 u) (int32 v) >>= f) y := by
  subst hu hv
  rw [Reads]
  by_cases hin : 0 ≤ u' ∧ v' < iMax
  · rw [find?_cons_of_neg (by simpa [outside] using hin), int32_eq (by omega) (by omega), int32_eq h0 (by omega),
      if_neg (by omega), slice, if_pos ⟨hin.1, by omega, by omega⟩, drop_take, show v'.toNat - u'.toNat = k by omega]
    exact h
  rw [find?_cons_of_pos (by rw [outside, decide_eq_false hin]; rfl)]
  refine ⟨?_, fun hnone => nomatch hnone⟩
  rintro r ⟨⟩
  refine ⟨msg, hmsg, ?_⟩
  by_cases hsmall : v' < 2 ^ 31
  · rw [int32_eq (by omega) hsmall, int32_eq h0 (by omega)]
    by_cases hcheck : iMax ≤ v'
    · rw [if_pos hcheck, if_pos ⟨hcheck, hsmall⟩]
    · rw [if_neg hcheck, if_neg (fun h => hcheck h.1), slice, if_neg (by omega)]
      rfl
  · -- the end has overflowed, and its check sees a negative number
    rw [int32_wrap (x := v') (by omega) h32, if_neg (by omega), if_neg (fun h => hsmall h.2), slice, if_neg (by omega)]
    rfl

/-- **A round** at any bytes. -/
theorem scanKey_spec (ho : o < 2 ^ 31) (hs : s.i = o) :
    Reads iMax (reads b o) (scanKey b iMax s) (.ok
      { i := int32 (recordEnd b o)
        offsets := s.offsets ++ [(o : Int)]
        minTime := min (uint64 (b.drop (o + (5 + keyLenAt b o)))).toInt s.minTime
        maxTime := max (uint64 (b.drop (recordEnd b o - 20))).toInt s.maxTime }) := by
  have hend : recordEnd b o = o + (5 + keyLenAt b o + 28 * countAt b o) := rfl
  have hle := (recordEnd_bounds b o).2
  have hi : s.i = int32 o := by rw [hs, int32_of_lt (by omega) (by omega)]
  have hkey : (uint16 (b.drop o)).toNat = keyLenAt b o := rfl
  have hcount : (uint16 (b.drop ((o : Int) + (3 + (keyLenAt b o : Int))).toNat)).toNat = countAt b o := rfl
  have hfirst : ((o : Int) + (3 + (keyLenAt b o : Int)) + 2).toNat = o + (5 + keyLenAt b o) := by omega
  have hlast : ((o : Int) + (3 + (keyLenAt b o : Int)) + 2 + ((countAt b o : Int) - 1) * 28 + 8).toNat =
      recordEnd b o - 20 := by omega
  have hnext : (o : Int) + (3 + (keyLenAt b o : Int)) + 2 + ((countAt b o : Int) - 1) * 28 + 28 = recordEnd b o := by
    omega
  unfold scanKey
  simp only [hi, int32_int32_add]
  refine Reads.cons hpos hmax hlt (by decide) 2 rfl rfl rfl (by omega) (by omega) ?_
  simp only [uint16_take, Int.toNat_natCast, hkey]
  refine Reads.cons hpos hmax hlt (by decide) 2 rfl (by omega) (by omega) (by omega) (by omega) ?_
  simp only [uint16_take, hcount]
  refine Reads.cons hpos hmax hlt (by decide) 8 rfl (by omega) (by omega) (by omega) (by omega) ?_
  refine Reads.cons hpos hmax hlt (by decide) 8 (by omega) (by omega) (by omega) (by omega) (by omega) ?_
  simp only [uint64_take, hfirst, hlast, hnext]
  rw [← hi, hs]
  exact ⟨fun _ h => (nomatch h), fun _ => rfl⟩

end Round

/-- Where the position has overflowed the next read panics. -/
theorem scanKeys_wrapped (hpos : 0 ≤ iMax) {e : ℕ} (hi : s.i = int32 e) (he : 2 ^ 31 ≤ e) (hmax : e < 2 ^ 32 - 2)
    (fuel : ℕ) : scanKeys b iMax (fuel + 1) s = .error "slice bounds out of range" := by
  rw [int32_wrap (by omega) (by omega)] at hi
  have hkey : scanKey b iMax s = .error "slice bounds out of range" := by
    unfold scanKey
    simp only
    rw [int32_eq (by omega) (by omega), if_neg (by omega), slice, if_neg (by omega)]
    rfl
  rw [scanKeys, if_pos (by omega), hkey]
  rfl

/-! ## Opening -/

/-- `UnmarshalBinary` returns an error, or every offset points at a record that is inside as a whole. -/
def OpensSafely (b : List Byte) : Prop :=
  match unmarshalBinary b with
  | .ok d => ∀ ofs ∈ d.offsets, recordEnd b ofs.toNat ≤ b.length
  | .error e => e ∈ returned

/-- From `o` on, the first read of a round that is not inside ends behind the bytes and below `2 ^ 31`; without one the
record is inside, and the next round follows. -/
def checkedFrom (b : List Byte) : ℕ → ℕ → Bool
  | 0, _ => true
  | fuel + 1, o =>
    if b.length ≤ o then true
    else
      match (reads b o).find? (outside b.length) with
      | some r => b.length ≤ r.2 ∧ r.2 < 2 ^ 31
      | none => recordEnd b o ≤ b.length && checkedFrom b fuel (recordEnd b o)

def ScansSafely (b : List Byte) : Except String Scan → Prop
  | .ok s => ∀ x ∈ s.offsets, recordEnd b x.toNat ≤ b.length
  | .error e => e ∈ returned

/-- At every offset that the loop has found is a key. -/
def Found (b : List Byte) (s : Scan) : Prop := ∀ x ∈ s.offsets, ∃ p : ℕ, x = p ∧ p + 2 + keyLenAt b p ≤ b.length

/-- **The loop of `UnmarshalBinary`.** -/
theorem scanKeys_spec (hb : b.length < 2 ^ 31) (fuel : ℕ) : ∀ {o : ℕ} {s : Scan}, o ≤ b.length → b.length < fuel + o →
    s.i = o → Found b s → ScansSafely b (.ok s) → (o = b.length → s.offsets ≠ []) →
      (ScansSafely b (scanKeys b b.length fuel s) ↔ checkedFrom b fuel o = true) ∧
        ∀ s', scanKeys b b.length fuel s = .ok s' → Found b s' ∧ s'.offsets ≠ [] := by
  induction fuel with
  | zero => omega
  | succ fuel ih =>
    intro o s ho hfuel hs hfound hsafe hne
    rw [scanKeys, checkedFrom]
    by_cases hlt : o < b.length
    swap
    · rw [if_neg (by omega)]
      refine ⟨iff_of_true hsafe (if_pos (by omega)), ?_⟩
      rintro s' ⟨⟩
      exact ⟨hfound, hne (by omega)⟩
    rw [if_pos (by omega), if_neg (by omega)]
    obtain ⟨houtside, hinside⟩ := scanKey_spec (b := b) (by omega) le_rfl (by omega) (by omega) hs
    rcases hfind : (reads b o).find? (outside b.length) with _ | r
    · obtain ⟨s₁, heq, hi, hoffsets⟩ : ∃ s₁, scanKey b b.length s = .ok s₁ ∧ s₁.i = int32 (recordEnd b o) ∧
          s₁.offsets = s.offsets ++ [(o : Int)] := ⟨_, hinside hfind, rfl, rfl⟩
      obtain ⟨hpos, hmax⟩ := recordEnd_bounds b o
      have hfound₁ : Found b s₁ := by
        have hread := inside_of_mem hfind (r := (o + 5 + keyLenAt b o, o + 13 + keyLenAt b o)) (by simp [reads])
        rw [Found, hoffsets]
        exact forall_mem_append.mpr ⟨hfound, forall_mem_singleton.mpr ⟨o, rfl, by omega⟩⟩
      have hne₁ : s₁.offsets ≠ [] := by simp [hoffsets]
      rw [heq]
      simp only [bind, Except.bind]
      by_cases hend : recordEnd b o ≤ b.length
      · have hsafe₁ : ScansSafely b (.ok s₁) := by
          rw [ScansSafely, hoffsets]
          exact forall_mem_append.mpr ⟨hsafe, forall_mem_singleton.mpr hend⟩
        rw [int32_of_lt (by omega) (by omega)] at hi
        obtain ⟨hiff, hrest⟩ := ih hend (by omega) hi hfound₁ hsafe₁ fun _ => hne₁
        simp only [hend, decide_true, Bool.true_and]
        exact ⟨hiff, hrest⟩
      -- the record is cut; the loop ends behind it, or the position has overflowed
      obtain ⟨fuel, rfl⟩ : ∃ k, fuel = k + 1 := ⟨fuel - 1, by omega⟩
      rw [iff_false_right (by simp [hend])]
      by_cases hwrap : recordEnd b o < 2 ^ 31
      · rw [int32_of_lt (by omega) (by omega)] at hi
        rw [scanKeys, if_neg (by omega)]
        refine ⟨fun h => hend (h o (by simp [hoffsets])), ?_⟩
        rintro s' ⟨⟩
        exact ⟨hfound₁, hne₁⟩
      · rw [scanKeys_wrapped (by omega) hi (by omega) (by omega)]
        exact ⟨(by decide : "slice bounds out of range" ∉ returned), fun _ h => nomatch h⟩
    · obtain ⟨msg, hmsg, heq⟩ := houtside r hfind
      rw [heq]
      refine ⟨?_, fun _ h => nomatch h⟩
      simp only [bind, Except.bind, ScansSafely, decide_eq_true_eq]
      split_ifs with hcheck
      · exact iff_of_true hmsg hcheck
      · exact iff_of_false (by decide) hcheck

/-- **Opening an index is safe** exactly if every round is checked. -/
theorem opensSafely_iff (b : List Byte) (hb : b.length < 2 ^ 31) :
    OpensSafely b ↔ checkedFrom b (b.length + 1) 0 = true := by
  by_cases hpos : b.length = 0
  · obtain rfl := length_eq_zero_iff.mp hpos
    exact iff_of_true (by simp [OpensSafely, unmarshalBinary]) rfl
  obtain ⟨hiff, hfound⟩ := scanKeys_spec (s := ⟨0, [], maxInt64, 0⟩) hb (b.length + 1) (Nat.zero_le _) (by omega) rfl
    (forall_mem_nil _) (forall_mem_nil _) fun h => absurd h.symm hpos
  rw [← hiff, OpensSafely, unmarshalBinary, if_neg hpos, int32_of_lt (by omega) (by omega)]
  rcases hscan : scanKeys b b.length (b.length + 1) ⟨0, [], maxInt64, 0⟩ with e | s
  · rfl
  obtain ⟨hkeys, hne⟩ := hfound s hscan
  have hread : ∀ x ∈ s.offsets, ∃ q, readKey (b.drop x.toNat) = .ok q := by
    intro x hx
    obtain ⟨p, rfl, hle⟩ := hkeys x hx
    rw [Int.toNat_natCast, readKey, if_neg (by rw [length_drop]; omega)]
    simp only
    rw [← keyLenAt, if_neg (by rw [length_drop]; omega)]
    exact ⟨_, rfl⟩
  obtain ⟨q, hq⟩ := hread _ (head_mem hne)
  obtain ⟨q', hq'⟩ := hread _ (getLast_mem hne)
  simp only [bind, Except.bind, head?_eq_some_head hne, getLast?_eq_some_getLast hne, hq, hq']
  refine forall_mem_map.trans (forall₂_congr fun x hx => ?_)
  obtain ⟨p, rfl, hle⟩ := hkeys x hx
  rw [BitVec.ofInt_natCast, BitVec.toNat_ofNat, Nat.mod_eq_of_lt (by omega), Int.toNat_natCast]

/-- A key with one entry and a cut one behind it give an error. -/
theorem opensSafely_cut : OpensSafely ([0, 1, 97, 0, 0, 1] ++ replicate 28 0 ++ [0, 1, 98, 0]) :=
  (opensSafely_iff _ (by decide)).mpr (by decide +kernel)

/-- A record without entries near the start is read before its first byte, and a last entry that lacks 11 bytes is
accepted. -/
theorem opens_unsafely : ¬OpensSafely (replicate 14 0) ∧ ¬OpensSafely ([0, 1, 97, 0, 0, 1] ++ replicate 17 0) := by
  constructor
  · exact (by decide : "slice bounds out of range" ∉ returned)
  · intro h
    exact absurd (h 0 (by decide)) (by decide)

end IndirectIndex

end Influxdb.Tsm1.Disk
