import Mathlib.Data.Fintype.Basic
import Mathlib.Data.List.GetD
import Mathlib.Data.List.TakeWhile
import Mathlib.Tactic.FinCases
import Influxdb.Encoding.Simple8b
import Influxdb.Lib.Iter

/-!
# Simple8bCodec — what is packed can be unpacked

`encode` and `encodeNext` put the first values of a list into a word that `decode` takes out again
(`Packs`).  The words of `EncodeAll` and those of an `Encoder` then decode to the values that were written,
with `CountBytes`, `DecodeBytesBigEndian` and a `Decoder`.
-/

namespace Influxdb.Simple8b

open List Nat

variable {src : List Word} {xs : List Word} {e : Encoder} {v : Word} {n : ℕ} {remaining : List Word} {d : Decoder}
variable {sel : Fin 16}

/-! ## The table -/

theorem selector_fields (sel : Fin 16) (h : 2 ≤ sel.val) : (selector.get sel).unpack =
      unpackBits (selector.get sel).n (selector.get sel).bit (BitVec.ofNat 64 (2 ^ (selector.get sel).bit - 1)) ∧
    (selector.get sel).pack = packBits sel (selector.get sel).bit ∧
    0 < (selector.get sel).bit ∧ (selector.get sel).bit * (selector.get sel).n ≤ 60 ∧ 0 < (selector.get sel).n := by
  fin_cases sel
  · exact absurd h (by decide)
  · exact absurd h (by decide)
  all_goals exact ⟨rfl, rfl, by decide, by decide, by decide⟩

theorem bit_lt (h : 2 ≤ sel.val) : (selector.get sel).bit < 64 := by
  obtain ⟨-, -, -, hle, hpos⟩ := selector_fields sel h
  have := mul_le_mul_left (selector.get sel).bit hpos
  omega

theorem length_unpackBits (n bit : ℕ) (mask v : Word) : (unpackBits n bit mask v).length = n := by
  rw [unpackBits, length_map, length_range]

theorem packing_length (sel : Fin 16) (v : Word) :
    ((selector.get sel).unpack v).length = (selector.get sel).n ∧ 0 < (selector.get sel).n := by
  by_cases h : 2 ≤ sel.val
  · obtain ⟨hunpack, -, -, -, hpos⟩ := selector_fields sel h
    rw [hunpack, length_unpackBits]
    exact ⟨rfl, hpos⟩
  · obtain rfl | rfl : sel = 0 ∨ sel = 1 := by omega
    · exact ⟨length_replicate, by decide⟩
    · exact ⟨length_replicate, by decide⟩

@[simp] theorem length_decode (v : Word) : (decode v).length = (packingOf v).n :=
  (packing_length ⟨(v >>> 60).toNat, sel_lt v⟩ v).1

theorem packingOf_pos (v : Word) : 0 < (packingOf v).n := (packing_length ⟨(v >>> 60).toNat, sel_lt v⟩ v).2

/-! ## One word -/

theorem decode_of_sel (sel : Fin 16) (h : (v >>> 60).toNat = sel) : decode v = (selector.get sel).unpack v := by
  have : (⟨(v >>> 60).toNat, sel_lt v⟩ : Fin selector.length) = sel := Fin.ext h
  rw [decode, packingOf, this]

/-- **Fields** of a word that is packed can be unpacked. -/
theorem decode_packBits (hsel : 2 ≤ sel.val) (hlen : xs.length = (selector.get sel).n)
    (hxs : ∀ x ∈ xs, x.toNat < 2 ^ (selector.get sel).bit) : decode (packBits sel (selector.get sel).bit xs) = xs := by
  obtain ⟨hunpack, -, hbit, hle, -⟩ := selector_fields sel hsel
  rw [← hlen] at hle
  have hnat : (BitVec.ofNat 64 sel.val).toNat = sel.val := by
    rw [BitVec.toNat_ofNat]
    omega
  have hfit : (BitVec.ofNat 64 sel.val).toNat * 2 ^ 60 < 2 ^ 64 := by
    rw [hnat]
    have := sel.isLt
    omega
  have htop := top_orFields hbit hxs hle (by omega) hfit
  rw [decode_of_sel sel (by rw [packBits, htop, hnat]), hunpack]
  refine ext_getElem (by rw [length_unpackBits, hlen]) fun i h1 h2 => ?_
  simp only [unpackBits, getElem_map, getElem_range]
  refine field_orFields hbit hxs hle (by omega) hfit ?_ h2
  rw [BitVec.toNat_ofNat]
  exact mod_eq_of_lt (lt_of_le_of_lt (sub_le _ _) (Nat.pow_lt_pow_right (by omega) (bit_lt hsel)))

/-- The word `v` holds the first `n` values of `src`. -/
def Packs (src : List Word) (v : Word) (n : ℕ) : Prop := 0 < n ∧ n ≤ src.length ∧ decode v = src.take n

theorem packs_ones (hn : 0 < n) (hlen : n ≤ src.length)
    (hones : ∀ x ∈ src.take n, x = 1) (hv : decode v = replicate n 1) : Packs src v n := by
  refine ⟨hn, hlen, ?_⟩
  rw [hv, eq_comm, eq_replicate_iff]
  exact ⟨length_take_of_le hlen, hones⟩

theorem packs_fields (hsel : 2 ≤ sel.val) (hlen : (selector.get sel).n ≤ src.length)
    (hxs : ∀ x ∈ src.take (selector.get sel).n, x.toNat < 2 ^ (selector.get sel).bit) :
    Packs src (packBits sel (selector.get sel).bit (src.take (selector.get sel).n)) (selector.get sel).n :=
  ⟨(packing_length sel 0).2, hlen, decode_packBits hsel (length_take_of_le hlen) hxs⟩

theorem toNat_one_shiftLeft {bits : ℕ} (h : bits < 64) : ((1 : Word) <<< bits).toNat = 2 ^ bits := by
  have hlt : 2 ^ bits < 2 ^ 64 := Nat.pow_lt_pow_right (by omega) h
  rw [BitVec.toNat_shiftLeft, shiftLeft_eq]
  show 1 * 2 ^ bits % 2 ^ 64 = 2 ^ bits
  rw [one_mul, mod_eq_of_lt hlt]

theorem canPack_ones (h : canPack src n 0 = true) : n ≤ src.length ∧ ∀ x ∈ src.take n, x = 1 := by
  unfold canPack at h
  split_ifs at h with h1 h2
  · refine ⟨by omega, fun x hx => ?_⟩
    simpa using all_eq_true.mp h x (mem_of_mem_take hx)
  · exact absurd rfl h2

theorem canPack_iff {n bits : ℕ} (hpos : 0 < bits) (hlt : bits < 64) :
    canPack src n bits = true ↔ n ≤ src.length ∧ ∀ x ∈ src.take n, x.toNat < 2 ^ bits := by
  have hmax : ((1 : Word) <<< bits - 1).toNat = 2 ^ bits - 1 := by
    have hone := toNat_one_shiftLeft hlt
    have hbits : 0 < 2 ^ bits := Nat.two_pow_pos bits
    have hword : ((1 : Word) <<< bits).toNat < 18446744073709551616 := ((1 : Word) <<< bits).isLt
    rw [BitVec.toNat_sub]
    show (18446744073709551616 - 1 + ((1 : Word) <<< bits).toNat) % 18446744073709551616 = _
    omega
  have hle : ∀ x, ¬ x > (1 : Word) <<< bits - 1 ↔ x.toNat < 2 ^ bits := fun x => by
    have hbits : 0 < 2 ^ bits := Nat.two_pow_pos bits
    rw [gt_iff_lt, BitVec.lt_def, hmax]
    omega
  unfold canPack
  split_ifs with h1 h2
  · exact ⟨fun h => absurd h (by decide), fun h => absurd h.1 (by omega)⟩
  · exact absurd h2 (by omega)
  · rw [all_eq_true]
    refine ⟨fun h => ⟨by omega, fun x hx => (hle x).mp (by simpa using h x hx)⟩, fun h x hx => ?_⟩
    simpa using (hle x).mpr (h.2 x hx)

theorem take_one_lt (hmax : ∀ x ∈ src, x ≤ maxValue) : ∀ x ∈ src.take 1, x.toNat < 2 ^ 60 := by
  intro x hx
  have h := hmax x (mem_of_mem_take hx)
  rw [BitVec.le_def] at h
  exact lt_of_le_of_lt h (by decide)

/-- **`Encode`** packs some of the values. -/
theorem encode_spec (hne : src ≠ []) (hmax : ∀ x ∈ src, x ≤ maxValue) :
    ∃ v n, encode src = .ok (v, n) ∧ Packs src v n := by
  unfold encode
  by_cases h240 : canPack src 240 0 = true
  · obtain ⟨hlen, hones⟩ := canPack_ones h240
    exact ⟨_, _, if_pos h240, packs_ones (by decide) hlen hones rfl⟩
  rw [if_neg h240]
  by_cases h120 : canPack src 120 0 = true
  · obtain ⟨hlen, hones⟩ := canPack_ones h120
    exact ⟨_, _, if_pos h120, packs_ones (by decide) hlen hones rfl⟩
  rw [if_neg h120]
  cases hfind : (selector.drop 2).find? fun p => canPack src p.n p.bit with
  | none =>
    have h1 : canPack src 1 60 = true := (canPack_iff (by decide) (by decide)).mpr
      ⟨length_pos_iff.mpr hne, take_one_lt hmax⟩
    have hmem : (⟨1, 60, unpack1, pack1⟩ : Packing) ∈ selector.drop 2 := by simp [selector]
    exact absurd h1 (find?_eq_none.mp hfind _ hmem)
  | some p =>
    obtain ⟨i, hi, rfl⟩ := mem_iff_getElem.mp (mem_of_find?_eq_some hfind)
    have hlt : 2 + i < 16 := by
      rw [length_drop] at hi
      have : selector.length = 16 := rfl
      omega
    have hget : (selector.drop 2)[i] = selector.get (⟨2 + i, hlt⟩ : Fin 16) := getElem_drop
    obtain ⟨-, hpack, hbit, -, -⟩ := selector_fields ⟨2 + i, hlt⟩ (by simp)
    have hcan := find?_some hfind
    rw [hget] at hcan ⊢
    obtain ⟨hlen, hxs⟩ := (canPack_iff hbit (bit_lt (by simp))).mp hcan
    refine ⟨_, _, rfl, ?_⟩
    rw [hpack]
    exact packs_fields (by simp) hlen hxs

/-! ## All values -/

theorem numBits_get (k : Fin 14) :
    numBits.get k = ((selector.get (k.natAdd 2 : Fin 16)).n, (selector.get (k.natAdd 2 : Fin 16)).bit) := by
  fin_cases k <;> rfl

theorem encodeCode_some : ∀ code (l : List (ℕ × ℕ)),
    encodeCode remaining code l = some (v, n) → ∃ k, ∃ hk, n = l[k].1 ∧ n ≤ remaining.length ∧
      (∀ x ∈ remaining.take n, x < (1 : Word) <<< (l[k].2 % 64)) ∧
      v = orFields (· * l[k].2 % 256 % 64) (BitVec.ofNat 64 (code + k + 2) <<< 60) (remaining.take n)
  | code, (intN, bitN) :: rest, h => by
    rw [encodeCode] at h
    split_ifs at h with h1 h2
    iterate 2
      obtain ⟨k, hk, hfacts⟩ := encodeCode_some (code + 1) rest h
      exact ⟨k + 1, by simpa using hk, by simpa [add_assoc, add_comm 1] using hfacts⟩
    · cases h
      refine ⟨0, by simp, rfl, by omega, fun x hx => ?_, rfl⟩
      by_contra hge
      exact h2 (any_eq_true.mpr ⟨x, hx, by simpa using not_lt.mp hge⟩)

theorem encodeCode_ne_none (intN bitN : ℕ) (hlen : intN ≤ remaining.length)
    (hxs : ∀ x ∈ remaining.take intN, x < (1 : Word) <<< (bitN % 64)) : ∀ code {l : List (ℕ × ℕ)},
    (intN, bitN) ∈ l → encodeCode remaining code l ≠ none
  | code, (n, b) :: rest, hmem => by
    rw [encodeCode]
    split_ifs with h1 h2
    · refine encodeCode_ne_none intN bitN hlen hxs (code + 1) ((mem_cons.mp hmem).resolve_left fun h => ?_)
      cases h
      omega
    · refine encodeCode_ne_none intN bitN hlen hxs (code + 1) ((mem_cons.mp hmem).resolve_left fun h => ?_)
      cases h
      obtain ⟨x, hx, hge⟩ := any_eq_true.mp h2
      exact absurd (hxs x hx) (not_lt.mpr (by simpa using hge))
    · exact Option.some_ne_none _

theorem leadingOnes_prefix (remaining : List Word) :
    (remaining.take (if remaining.length ≥ 240 then 240 else 120)).takeWhile (· = 1) <+: remaining := by
  have hones := takeWhile_prefix (· = (1 : Word)) (l := remaining.take (if remaining.length ≥ 240 then 240 else 120))
  have htake := take_prefix (if remaining.length ≥ 240 then 240 else 120) remaining
  exact hones.trans htake

theorem leadingOnes_spec (hn : n ≤ leadingOnes remaining) : ∀ x ∈ remaining.take n, x = 1 := by
  intro x hx
  unfold leadingOnes at hn
  have htake : remaining.take n =
      ((remaining.take (if remaining.length ≥ 240 then 240 else 120)).takeWhile (· = 1)).take n := by
    have hpre := leadingOnes_prefix remaining
    conv_rhs => rw [prefix_iff_eq_take.mp hpre, take_take, min_eq_left hn]
  rw [htake] at hx
  simpa using mem_takeWhile_imp (mem_of_mem_take hx)

theorem packs_code {sel : Fin 16} (hsel : 2 ≤ sel.val) (hlen : (selector.get sel).n ≤ src.length)
    (hxs : ∀ x ∈ src.take (selector.get sel).n, x < (1 : Word) <<< ((selector.get sel).bit % 64)) :
    Packs src (orFields (· * (selector.get sel).bit % 256 % 64) (BitVec.ofNat 64 sel <<< 60)
      (src.take (selector.get sel).n)) (selector.get sel).n := by
  have hbits := bit_lt hsel
  obtain ⟨-, -, -, hle, -⟩ := selector_fields sel hsel
  have hshift : ∀ j < (src.take (selector.get sel).n).length,
      j * (selector.get sel).bit % 256 % 64 = j * (selector.get sel).bit := fun j hj => by
    rw [length_take_of_le hlen] at hj
    have := mul_le_mul_left (selector.get sel).bit hj.le
    rw [mul_comm j]
    omega
  rw [orFields_congr _ hshift]
  refine packs_fields hsel hlen fun x hx => ?_
  have := hxs x hx
  rwa [mod_eq_of_lt hbits, BitVec.lt_def, toNat_one_shiftLeft hbits] at this

theorem encodeNext_spec (hne : remaining ≠ []) (hmax : ∀ x ∈ remaining, x ≤ maxValue) :
    ∃ v n, encodeNext remaining = some (v, n) ∧ Packs remaining v n := by
  unfold encodeNext
  by_cases h240 : remaining.length ≥ 120 ∧ leadingOnes remaining = 240
  · have hpre := leadingOnes_prefix remaining
    have hlen : 240 ≤ remaining.length := h240.2 ▸ hpre.length_le
    exact ⟨_, _, if_pos h240, packs_ones (by decide) hlen (leadingOnes_spec h240.2.ge) rfl⟩
  rw [if_neg h240]
  by_cases h120 : remaining.length ≥ 120 ∧ leadingOnes remaining ≥ 120
  · exact ⟨_, _, if_pos h120, packs_ones (by decide) h120.1 (leadingOnes_spec h120.2) rfl⟩
  rw [if_neg h120]
  cases hcode : encodeCode remaining 0 numBits with
  | none =>
    refine absurd hcode (encodeCode_ne_none 1 60 (length_pos_iff.mpr hne) ?_ 0 (by decide))
    intro x hx
    rw [BitVec.lt_def, toNat_one_shiftLeft (by decide)]
    exact take_one_lt hmax x hx
  | some r =>
    obtain ⟨v, n⟩ := r
    obtain ⟨k, hk, rfl, hlen, hxs, rfl⟩ := encodeCode_some 0 numBits hcode
    refine ⟨_, _, rfl, ?_⟩
    have hget : numBits[k] = _ := numBits_get ⟨k, hk⟩
    rw [hget] at hlen hxs ⊢
    rw [zero_add, add_comm k 2]
    exact packs_code (by simp) hlen hxs

theorem encodeNext_le (h : encodeNext remaining = some (v, n)) : 0 < n ∧ ∀ x ∈ remaining.take n, x ≤ maxValue := by
  have hcodes : ∀ p ∈ numBits, 0 < p.1 ∧ (1 : Word) <<< (p.2 % 64) ≤ maxValue + 1 := by decide
  unfold encodeNext at h
  split_ifs at h with h240 h120
  · cases h
    exact ⟨by decide, fun x hx => leadingOnes_spec h240.2.ge x hx ▸ by decide⟩
  · cases h
    exact ⟨by decide, fun x hx => leadingOnes_spec h120.2 x hx ▸ by decide⟩
  · obtain ⟨k, hk, rfl, -, hxs, -⟩ := encodeCode_some 0 numBits h
    obtain ⟨hpos, hle⟩ := hcodes _ (getElem_mem hk)
    exact ⟨hpos, fun x hx => Nat.le_of_lt_succ ((hxs x hx).trans_le hle)⟩

/-- The words for the values that are left. -/
def encodeRest : ℕ → List Word → Except String (List Word)
  | 0, _ => .ok []
  | fuel + 1, remaining =>
    if remaining.length > 0 then
      match encodeNext remaining with
      | some (v, n) => do
        let dst ← encodeRest fuel (remaining.drop n)
        return v :: dst
      | none => .error "value out of bounds"
    else .ok []

/-- **In place**: a word holds at least one value, so that no word is written over a value that is still to be read. -/
theorem encodeAllLoop_eq {fuel i j : ℕ} {dst : List Word} (hle : j ≤ i) :
    encodeAllLoop fuel dst i j = (encodeRest fuel (dst.drop i)).map (dst.take j ++ ·) := by
  induction fuel generalizing dst i j with
  | zero => simp [encodeAllLoop, encodeRest, Except.map]
  | succ fuel ih =>
    rw [encodeAllLoop, encodeRest, length_drop]
    split_ifs with hi hi'
    · match hnext : encodeNext (dst.drop i) with
      | none => rfl
      | some (v, n) =>
        obtain ⟨hpos, -⟩ := encodeNext_le hnext
        have htake : (dst.set j v).take (j + 1) = dst.take j ++ [v] := by
          rw [take_add_one, take_set_of_le (le_refl j), getElem?_set_self (by omega)]
          rfl
        simp only
        rw [ih (by omega), drop_set_of_lt (by omega), drop_drop, htake]
        cases encodeRest fuel (dst.drop (i + n)) with
        | error e => rfl
        | ok ws => simp [Except.map, bind, Except.bind, pure, Except.pure]
    · omega
    · omega
    · simp [Except.map]

theorem encodeAll_eq (src : List Word) : encodeAll src = encodeRest src.length src := by
  rw [encodeAll, encodeAllLoop_eq le_rfl, drop_zero]
  cases encodeRest src.length src <;> rfl

theorem encodeRest_spec : ∀ fuel remaining, remaining.length ≤ fuel →
    (∀ x ∈ remaining, x ≤ maxValue) → ∃ ws, encodeRest fuel remaining = .ok ws ∧ ws.flatMap decode = remaining
  | 0, remaining, hlen, _ => by
    rw [length_eq_zero_iff.mp (le_zero.mp hlen)]
    exact ⟨[], rfl, rfl⟩
  | fuel + 1, remaining, hlen, hmax => by
    rw [encodeRest]
    by_cases hne : remaining = []
    · subst hne
      exact ⟨[], rfl, rfl⟩
    · obtain ⟨v, n, hnext, hpos, hle, hdecode⟩ := encodeNext_spec hne hmax
      obtain ⟨ws, hws, hflat⟩ := encodeRest_spec fuel (remaining.drop n) (by rw [length_drop]; omega)
        fun x hx => hmax x (mem_of_mem_drop hx)
      refine ⟨v :: ws, ?_, ?_⟩
      · rw [if_pos (length_pos_iff.mpr hne), hnext]
        simp only
        rw [hws]
        rfl
      · rw [flatMap_cons, hdecode, hflat, take_append_drop]

/-- **`EncodeAll`** packs all of the values. -/
theorem encodeAll_spec (hmax : ∀ x ∈ src, x ≤ maxValue) : ∃ ws, encodeAll src = .ok ws ∧ ws.flatMap decode = src :=
  encodeAll_eq src ▸ encodeRest_spec src.length src le_rfl hmax

/-! ## Counting and unpacking -/

variable (ws : List Word)

theorem length_flatMap_decode : ∀ n : ℕ,
    ws.foldl (fun count v => count + (packingOf v).n) n = n + (ws.flatMap decode).length := by
  induction ws with
  | nil => simp
  | cons v ws ih =>
    intro n
    rw [foldl_cons, ih, flatMap_cons, length_append, length_decode, add_assoc]

theorem packingOf_le (v : Word) : (packingOf v).n ≤ 240 := by
  have h : ∀ sel, (selector.get sel).n ≤ 240 := by decide
  exact h ⟨(v >>> 60).toNat, sel_lt v⟩

theorem length_flatMap_decode_le : (ws.flatMap decode).length ≤ 240 * ws.length := by
  induction ws with
  | nil => exact le_rfl
  | cons v ws ih =>
    have := packingOf_le v
    rw [flatMap_cons, length_append, length_decode, length_cons]
    omega

theorem countBytes_putWords : countBytes (putWords ws) = .ok (ws.flatMap decode).length := by
  unfold countBytes
  rw [words_putWords, length_putWords, if_neg (by omega), length_flatMap_decode, zero_add]

theorem decodeBytesBigEndian_putWords : decodeBytesBigEndian (putWords ws) = .ok (ws.flatMap decode) := by
  rw [decodeBytesBigEndian, length_putWords, if_neg (by omega), words_putWords]

/-! ## The decoder -/

namespace Decoder

def left (d : Decoder) : List Word := (d.buf.take d.n).drop (d.i + 1)

theorem next_of_lt (hlen : d.n ≤ d.buf.length) (h : d.i + 1 < d.n) : next d = (true, { d with i := d.i + 1 }) ∧
      d.left = ({ d with i := d.i + 1 } : Decoder).read.1 :: ({ d with i := d.i + 1 } : Decoder).left := by
  refine ⟨?_, ?_⟩
  · simp [next, not_le.mpr h, h]
  · have hi : d.i + 1 < (d.buf.take d.n).length := by rwa [length_take_of_le hlen]
    have hread : ({ d with i := d.i + 1 } : Decoder).read.1 = d.buf[d.i + 1] :=
      getD_eq_getElem _ _ (lt_of_lt_of_le h hlen)
    rw [left, drop_eq_getElem_cons hi, getElem_take, hread]
    rfl

theorem next_of_word (h : d.n ≤ d.i + 1) (hbytes : 8 ≤ d.bytes.length) :
    let e := ({ d with i := d.i + 1 } : Decoder).readWord
    next d = (true, e) ∧ e.bytes = d.bytes.drop 8 ∧ e.n ≤ e.buf.length ∧
      decode (uint64 d.bytes) = e.read.1 :: e.left := by
  have hpos := packingOf_pos (uint64 d.bytes)
  have hlen := length_decode (uint64 d.bytes)
  have he : ({ d with i := d.i + 1 } : Decoder).readWord =
      { bytes := d.bytes.drop 8
        buf := decode (uint64 d.bytes) ++ d.buf.drop (packingOf (uint64 d.bytes)).n
        i := 0
        n := (packingOf (uint64 d.bytes)).n } := if_neg (not_lt.mpr hbytes)
  refine ⟨?_, ?_, ?_, ?_⟩
  · simp [next, h, he, hpos]
  · rw [he]
  · rw [he, length_append]
    simp only
    omega
  · rw [he, left, read]
    simp only
    rw [take_left' hlen, List.getD_append _ _ _ _ (by omega)]
    obtain ⟨x, l, hx⟩ := exists_cons_of_length_pos (hlen ▸ hpos)
    rw [hx]
    rfl

theorem next_of_end (h : d.n ≤ d.i + 1) (hbytes : d.bytes.length < 8) : next d = (false, { d with i := d.i + 1 }) := by
  have he : ({ d with i := d.i + 1 } : Decoder).readWord = { d with i := d.i + 1 } := if_pos hbytes
  simp [next, h, he, not_le.mpr hbytes, not_lt.mpr h]

theorem left_eq_nil (h : d.n ≤ d.i + 1) : d.left = [] := by
  refine drop_eq_nil_of_le (le_trans ?_ h)
  rw [length_take]
  exact min_le_left _ _

theorem collects_left (d : Decoder) (hlen : d.n ≤ d.buf.length) :
    ∃ s', Collects next read d (d.left ++ (words d.bytes).flatMap decode) s' := by
  induction hk : (d.left ++ (words d.bytes).flatMap decode).length using Nat.strongRecOn generalizing d with
  | ind k ih =>
    subst hk
    by_cases hi : d.i + 1 < d.n
    · obtain ⟨hnext, hleft⟩ := next_of_lt hlen hi
      obtain ⟨s', hrest⟩ := ih _ (by rw [hleft]; simp) { d with i := d.i + 1 } hlen rfl
      rw [hleft]
      exact ⟨s', collects_of_true hnext rfl hrest⟩
    · rw [left_eq_nil (not_lt.mp hi), nil_append] at ih ⊢
      by_cases hbytes : 8 ≤ d.bytes.length
      · obtain ⟨hnext, hrem, hlen', hdecode⟩ := next_of_word (not_lt.mp hi) hbytes
        rw [words_of_le hbytes, flatMap_cons, hdecode, ← hrem, cons_append] at ih ⊢
        obtain ⟨s', hrest⟩ := ih _ (by simp) _ hlen' rfl
        exact ⟨s', collects_of_true hnext rfl hrest⟩
      · rw [words_of_lt (not_le.mp hbytes)]
        exact ⟨_, collects_of_false (next_of_end (not_lt.mp hi) (not_le.mp hbytes))⟩

/-- **Decoder.** The values of all words. -/
theorem collects (d : Decoder) (b : List Byte) :
    ∃ s', Collects next read (d.setBytes b) ((words b).flatMap decode) s' := by
  obtain ⟨s', h⟩ := collects_left (d.setBytes b) (zero_le _)
  have hleft : (d.setBytes b).left = [] := left_eq_nil (zero_le _)
  rw [hleft] at h
  exact ⟨s', h⟩

end Decoder

/-! ## The encoder -/

namespace Encoder

/-- The encoder holds the values `xs`: the words it has written and what is in `buf`. -/
def Holds (e : Encoder) (xs : List Word) : Prop :=
  (∃ ws, e.bytes = putWords ws ∧ ws.flatMap decode ++ e.buf.drop e.h = xs) ∧ e.h ≤ e.buf.length ∧
    (e.buf ≠ [] → e.h < e.buf.length)

theorem holds_newEncoder : newEncoder.Holds [] := ⟨⟨[], rfl, rfl⟩, le_rfl, fun h => absurd rfl h⟩

variable (h : e.Holds xs)
include h

theorem Holds.flush (hmax : ∀ x ∈ xs, x ≤ maxValue) (hne : e.buf ≠ []) : ∃ e', e.flush = .ok e' ∧ e'.Holds xs ∧
      (e'.buf.drop e'.h).length < (e.buf.drop e.h).length := by
  obtain ⟨⟨ws, hbytes, rfl⟩, hle, hlt⟩ := h
  have hdrop : e.buf.drop e.h ≠ [] := by
    rw [Ne, drop_eq_nil_iff]
    exact not_le.mpr (hlt hne)
  obtain ⟨v, n, hencode, hpos, hn, hdecode⟩ := encode_spec hdrop (forall_mem_append.mp hmax).2
  rw [length_drop] at hn
  have hvalues : (ws ++ [v]).flatMap decode ++ e.buf.drop (e.h + n) = ws.flatMap decode ++ e.buf.drop e.h := by
    rw [flatMap_append, flatMap_singleton, hdecode, append_assoc, ← drop_drop, take_append_drop]
  have hwords : e.bytes ++ putUint64 v = putWords (ws ++ [v]) := by
    rw [hbytes, putWords_append, putWords_cons, putWords_nil, append_nil]
  unfold Encoder.flush
  rw [if_neg (by rwa [length_eq_zero_iff]), hencode]
  by_cases hend : e.h + n = e.buf.length
  · refine ⟨⟨[], 0, e.bytes ++ putUint64 v⟩, ?_, ⟨⟨ws ++ [v], hwords, ?_⟩, le_rfl, fun h => absurd rfl h⟩, ?_⟩
    · simp [bind, Except.bind, hend, pure, Except.pure]
    · rw [← hvalues, hend, drop_length]
      rfl
    · exact length_pos_iff.mpr hdrop
  · refine ⟨⟨e.buf, e.h + n, e.bytes ++ putUint64 v⟩, ?_, ⟨⟨ws ++ [v], hwords, hvalues⟩, ?_, fun _ => ?_⟩, ?_⟩
    · simp [bind, Except.bind, hend, pure, Except.pure]
    · show e.h + n ≤ e.buf.length
      omega
    · show e.h + n < e.buf.length
      omega
    · show (e.buf.drop (e.h + n)).length < _
      rw [length_drop, length_drop]
      have := hlt hne
      omega

theorem Holds.shift : ({ e with buf := e.buf.drop e.h, h := 0 } : Encoder).Holds xs := by
  obtain ⟨hws, -, -⟩ := h
  exact ⟨hws, zero_le _, fun hne => length_pos_iff.mpr hne⟩

theorem Holds.append (v : Word) : ({ e with buf := e.buf ++ [v] } : Encoder).Holds (xs ++ [v]) := by
  obtain ⟨⟨ws, hbytes, rfl⟩, hle, -⟩ := h
  refine ⟨⟨ws, hbytes, ?_⟩, ?_, fun _ => ?_⟩
  · rw [drop_append_of_le_length hle, append_assoc]
  · simp only [length_append]
    omega
  · simp only [length_append, length_singleton]
    omega

theorem Holds.write (hmax : ∀ x ∈ xs, x ≤ maxValue) : ∃ e', e.write v = .ok e' ∧ e'.Holds (xs ++ [v]) := by
  obtain ⟨e₁, hflush, h₁⟩ : ∃ e₁, e.flushFull = .ok e₁ ∧ e₁.Holds xs := by
    by_cases hfull : e.buf.length ≥ cap
    · have hne : e.buf ≠ [] := length_pos_iff.mp (lt_of_lt_of_le (by decide) hfull)
      obtain ⟨e₁, hflush, h₁, -⟩ := h.flush hmax hne
      exact ⟨e₁, by rw [flushFull, if_pos hfull, hflush], h₁⟩
    · exact ⟨e, if_neg hfull, h⟩
  unfold Encoder.write
  rw [hflush]
  by_cases hfull : e₁.buf.length ≥ cap
  · exact ⟨_, by simp only [bind, Except.bind, if_pos hfull]; rfl, h₁.shift.append v⟩
  · exact ⟨_, by simp only [bind, Except.bind, if_neg hfull]; rfl, h₁.append v⟩

theorem Holds.writeAll : ∀ {vs : List Word},
    (∀ x ∈ xs ++ vs, x ≤ maxValue) → ∃ e', vs.foldlM Encoder.write e = .ok e' ∧ e'.Holds (xs ++ vs) := by
  intro vs
  induction vs generalizing e xs with
  | nil => exact fun _ => ⟨e, rfl, by rwa [append_nil]⟩
  | cons v vs ih =>
    intro hmax
    obtain ⟨e₁, hwrite, h₁⟩ := h.write (v := v) (forall_mem_append.mp hmax).1
    obtain ⟨e', hrest, hholds⟩ := ih h₁ (by simpa using hmax)
    refine ⟨e', ?_, by simpa using hholds⟩
    rw [foldlM_cons, hwrite]
    exact hrest

omit h

theorem bytesLoop_spec (xs : List Word) (hmax : ∀ x ∈ xs, x ≤ maxValue) : ∀ fuel e, e.Holds xs →
    (e.buf.drop e.h).length < fuel → ∃ e', bytesLoop fuel e = .ok e' ∧ e'.Holds xs ∧ e'.buf = []
  | fuel + 1, e, h, hfuel => by
    rw [bytesLoop]
    by_cases hne : e.buf = []
    · exact ⟨e, by rw [if_neg (by simp [hne])], h, hne⟩
    · obtain ⟨e₁, hflush, h₁, hlt⟩ := h.flush hmax hne
      obtain ⟨e', hloop, hholds, hnil⟩ := bytesLoop_spec xs hmax fuel e₁ h₁ (by omega)
      refine ⟨e', ?_, hholds, hnil⟩
      rw [if_pos (length_pos_iff.mpr hne), hflush]
      exact hloop

/-- **Encoder.** The bytes are words that hold the values. -/
theorem Holds.getBytes (h : e.Holds xs) (hmax : ∀ x ∈ xs, x ≤ maxValue) :
    ∃ ws e', e.getBytes = .ok (putWords ws, e') ∧ ws.flatMap decode = xs := by
  obtain ⟨e', hloop, ⟨⟨ws, hbytes, hvalues⟩, -, -⟩, hnil⟩ := bytesLoop_spec xs hmax (e.buf.length + 1) e h
    (by rw [length_drop]; omega)
  refine ⟨ws, e', ?_, ?_⟩
  · rw [Encoder.getBytes, hloop, ← hbytes]
    rfl
  · rw [← hvalues, hnil, drop_nil, append_nil]

end Encoder

end Influxdb.Simple8b
