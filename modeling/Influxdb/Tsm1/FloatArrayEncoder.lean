import Influxdb.Tsm1.FloatArrayDecoder
import Influxdb.Tsm1.Frame

/-!
# FloatArrayEncoder — the batch encoder of floats

`Holds b n bs` says that the `n` bits `bs` have been written to the bytes `b` and that there are only zeros
behind them.  Every write of the batch encoder appends the bits that the other encoder writes, whatever was
in its buffer, so the bytes are the same.
-/

namespace Influxdb.Tsm1

open List

variable {vs : List Word}

/-- The bits `bs` have been written; behind them there are zeros. -/
structure Holds (b : List Byte) (n : ℕ) (bs : List Bool) : Prop where
  length : bs.length = n
  bits : ∀ i, (bytesToBits b).getD i false = bs.getD i false

variable {b : List Byte} {n l : ℕ} {bs : List Bool} {v : Word}

/-! ## One write -/

theorem Holds.zeros (h : Holds b n bs) (k : ℕ) : Holds (b ++ replicate k 0) n bs := by
  refine ⟨h.length, fun i => ?_⟩
  rw [← h.bits, bytesToBits_append, getD_append]
  split_ifs with hi
  · rfl
  · have hbyte : ∀ j, (replicate k (0 : Byte)).getD j 0 = 0 := getElem?_getD_replicate_default_eq 0 k
    rw [getD_bytesToBits, hbyte, getD_eq_default _ _ (not_lt.mp hi)]
    simp

theorem Holds.growTo (h : Holds b n bs) (k : ℕ) : Holds (growTo b k) n bs ∧ k < (Tsm1.growTo b k).length := by
  refine ⟨h.zeros _, ?_⟩
  rw [Tsm1.growTo, length_append, length_replicate]
  omega

theorem Holds.growOne (h : Holds b n bs) {k : ℕ} (hk : k ≤ b.length) :
    Holds (growOne b k) n bs ∧ k < (Tsm1.growOne b k).length := by
  unfold Tsm1.growOne
  split_ifs with hge
  · refine ⟨h.zeros 1, ?_⟩
    rw [length_append, length_singleton]
    omega
  · exact ⟨h, not_le.mp hge⟩

theorem Holds.shrink {k : ℕ} (h : Holds b (n + k) (bs ++ (toBits v).take k)) (hn : bs.length = n) (hl : l ≤ k) (hk : k ≤ 64)
    (hv : ∀ i, l ≤ i → v.getMsbD i = false) : Holds b (n + l) (bs ++ (toBits v).take l) := by
  refine ⟨by rw [length_append, length_take, length_toBits]; omega, fun i => ?_⟩
  rw [h.bits, getD_append, getD_append]
  split_ifs with hi
  · rfl
  · rw [getD_take, getD_take, getD_toBits]
    by_cases hlt : i - bs.length < l
    · rw [decide_eq_true hlt, decide_eq_true (lt_of_lt_of_le hlt hl)]
    · rw [hv _ (not_lt.mp hlt), Bool.and_false, Bool.and_false]

theorem orAt_spec {i : ℕ} (hi : i < b.length) (x : Byte) : ∃ b', orAt b i x = .ok b' ∧ b'.length = b.length ∧
    ∀ j, (bytesToBits b').getD j false = ((bytesToBits b).getD j false || (decide (j / 8 = i) && x.getMsbD (j % 8))) := by
  refine ⟨_, if_pos hi, length_set, fun j => ?_⟩
  rw [getD_bytesToBits, getD_bytesToBits]
  by_cases hj : j / 8 = i
  · subst hj
    have hset : (b.set (j / 8) (b.getD (j / 8) 0 ||| x)).getD (j / 8) 0 = b.getD (j / 8) 0 ||| x := by
      rw [getD_eq_getElem _ _ (by rwa [length_set]), getElem_set_self]
    rw [hset, BitVec.getMsbD_or, decide_eq_true rfl, Bool.true_and]
  · have hset : (b.set i (b.getD i 0 ||| x)).getD (j / 8) 0 = b.getD (j / 8) 0 := by
      rw [getD_eq_getElem?_getD, getElem?_set_ne (Ne.symm hj), ← getD_eq_getElem?_getD]
    rw [hset, decide_eq_false hj, Bool.false_and, Bool.or_false]

theorem Holds.orAt (h : Holds b n bs) (hn : n / 8 < b.length) (v : Word) :
    ∃ b', orAt b (n / 8) ((v >>> 56 >>> (n % 8)).setWidth 8) = .ok b' ∧ b'.length = b.length ∧
      Holds b' (n + (8 - n % 8)) (bs ++ (toBits v).take (8 - n % 8)) := by
  obtain ⟨b', hor, hlen, hbits⟩ := orAt_spec hn ((v >>> 56 >>> (n % 8)).setWidth 8)
  have hbs := h.length
  refine ⟨b', hor, hlen, ⟨by rw [length_append, length_take, length_toBits]; omega, fun j => ?_⟩⟩
  rw [hbits, h.bits, getD_append, getD_take, getD_toBits, hbs]
  have hbyte : (decide (j / 8 = n / 8) && ((v >>> 56 >>> (n % 8)).setWidth 8).getMsbD (j % 8)) =
      (decide (n ≤ j) && (decide (j - n < 8 - n % 8) && v.getMsbD (j - n))) := by
    rw [BitVec.getMsbD_setWidth, BitVec.getMsbD_ushiftRight, BitVec.getMsbD_ushiftRight]
    by_cases hj : j / 8 = n / 8
    · by_cases hle : n ≤ j
      · have hindex : j % 8 + 64 - 8 - n % 8 - 56 = j - n := by omega
        rw [hindex, decide_eq_true hj, decide_eq_true hle, decide_eq_true (show j - n < 8 - n % 8 by omega),
          decide_eq_true (show 8 - 64 ≤ j % 8 by omega), decide_eq_true (show j % 8 + 64 - 8 < 64 by omega),
          decide_eq_false (show ¬ j % 8 + 64 - 8 < n % 8 by omega),
          decide_eq_true (show j % 8 + 64 - 8 - n % 8 < 64 by omega),
          decide_eq_false (show ¬ j % 8 + 64 - 8 - n % 8 < 56 by omega)]
        simp
      · rw [decide_eq_false hle, decide_eq_true (show j % 8 + 64 - 8 - n % 8 < 56 by omega)]
        simp
    · by_cases hle : n ≤ j
      · rw [decide_eq_false hj, decide_eq_false (show ¬ j - n < 8 - n % 8 by omega)]
        simp
      · rw [decide_eq_false hj, decide_eq_false hle]
        simp
  rw [hbyte]
  split_ifs with hlt
  · rw [decide_eq_false (show ¬ n ≤ j by omega), Bool.false_and, Bool.or_false]
  · rw [getD_eq_default _ _ (by omega), decide_eq_true (show n ≤ j by omega), Bool.true_and, Bool.false_or]

theorem Holds.putUint64 (h : Holds b n bs) (haligned : n % 8 = 0) (hn : n / 8 + 8 ≤ b.length) (v : Word) :
    ∃ b', writeAt b (n / 8) (putUint64 v) = .ok b' ∧ b'.length = b.length ∧ Holds b' (n + 64) (bs ++ toBits v) := by
  have hbs := h.length
  have hput := length_putUint64 v
  refine ⟨_, if_pos (by rw [hput]; exact hn), ?_, ⟨by rw [length_append, length_toBits, hbs], fun j => ?_⟩⟩
  · simp only [length_append, length_take, length_drop, hput]
    omega
  · have htake : (bytesToBits (b.take (n / 8))).length = n := by
      rw [length_bytesToBits, length_take]
      omega
    have hn8 : 8 * (n / 8) = n := by omega
    rw [bytesToBits_append, bytesToBits_append, bytesToBits_putUint64, append_assoc, getD_append, htake, getD_append,
      getD_append, hbs, length_toBits]
    split_ifs with h1 h2
    · rw [bytesToBits_take, hn8, getD_take, decide_eq_true h1, Bool.true_and, h.bits]
    · rfl
    · have hindex : 8 * (n / 8 + (Influxdb.putUint64 v).length) + (j - n - 64) = j := by omega
      rw [bytesToBits_drop, getD_drop, hindex, h.bits, getD_eq_default _ _ (by omega),
        getD_eq_default _ _ (by rw [length_toBits]; omega)]

/-! ## The fields of a value -/

theorem take_append_shiftLeft (v : Word) {j k : ℕ} (h : j + k ≤ 64) :
    (toBits v).take j ++ (toBits (v <<< j)).take k = (toBits v).take (j + k) := by
  have hlen : ((toBits v).take j).length = j := by
    rw [length_take, length_toBits]
    omega
  refine bits_ext (by simp only [length_append, length_take, length_toBits]; omega) fun i hi => ?_
  simp only [length_append, length_take, length_toBits] at hi
  rw [getD_append, hlen, getD_take, getD_take, getD_take, getD_toBits, getD_toBits, BitVec.getMsbD_shiftLeft]
  split_ifs with hlt
  · rw [decide_eq_true hlt, decide_eq_true (show i < j + k by omega)]
  · have hindex : i - j + j = i := by omega
    rw [hindex, decide_eq_true (show i - j < k by omega), decide_eq_true (show i < j + k by omega)]

theorem take_toBits_shiftLeft (y : Word) (hl : l ≤ 64) : (toBits (y <<< (64 - l))).take l = lowBits l y := by
  refine bits_ext (by rw [length_take, length_toBits, length_lowBits]; omega) fun i hi => ?_
  rw [length_take, length_toBits] at hi
  have hindex : 64 - 1 - (i + (64 - l)) = l - 1 - i := by omega
  rw [getD_take, getD_toBits, BitVec.getMsbD_shiftLeft, getD_lowBits _ (by omega), BitVec.getMsbD_eq_getLsbD, hindex,
    decide_eq_true (show i < l by omega), decide_eq_true (show i + (64 - l) < 64 by omega)]
  rfl

theorem getMsbD_shiftLeft_of_le (y : Word) {i : ℕ} (hl : l ≤ 64) (hi : l ≤ i) : (y <<< (64 - l)).getMsbD i = false := by
  rw [BitVec.getMsbD_shiftLeft, BitVec.getMsbD_of_ge _ _ (by omega)]

/-- A field that was written in two parts. -/
theorem Holds.join {k m : ℕ} (h : Holds b (n + k + m) (bs ++ (toBits v).take k ++ (toBits (v <<< k)).take m))
    (hn : (bs ++ (toBits v).take k).length = n + k) (hk : k ≤ l) (hl : l ≤ 64) (hm : m ≤ 64) (hlm : l ≤ k + m)
    (hv : ∀ i, l ≤ i → v.getMsbD i = false) : Holds b (n + l) (bs ++ (toBits v).take l) := by
  obtain ⟨j, rfl⟩ := Nat.exists_eq_add_of_le hk
  have hshrink := h.shrink (l := j) hn (by omega) hm fun i hi => by
    rw [BitVec.getMsbD_shiftLeft]
    exact hv _ (by omega)
  rwa [append_assoc, take_append_shiftLeft _ hl, Nat.add_assoc] at hshrink

theorem Holds.writeShort (h : Holds b n bs) (hn : n / 8 < b.length) (hl : l ≤ 8) (hv : ∀ i, l ≤ i → v.getMsbD i = false) :
    ∃ b', writeShort b n l v = .ok (b', n + l) ∧ Holds b' (n + l) (bs ++ (toBits v).take l) ∧ (n + l) / 8 < b'.length := by
  obtain ⟨hgrow, hlen⟩ := h.growOne (k := (n + l) / 8) (by omega)
  obtain ⟨b₁, hor₁, hlen₁, h₁⟩ := hgrow.orAt (by omega) v
  have hbs := h.length
  unfold Tsm1.writeShort
  simp only [bind, Except.bind, hor₁]
  split_ifs with hm
  · exact ⟨b₁, rfl, h₁.shrink hbs (by omega) (by omega) hv, by rw [hlen₁]; exact hlen⟩
  · -- the next byte begins inside of the field
    have haligned : (n + (8 - n % 8)) % 8 = 0 := by omega
    obtain ⟨b₂, hor₂, hlen₂, h₂⟩ := h₁.orAt (by rw [hlen₁]; omega) (v <<< (8 - n % 8))
    rw [hor₂]
    have hcount : n + (8 - n % 8) + (l - (8 - n % 8)) = n + l := by omega
    exact ⟨b₂, by rw [hcount]; rfl, h₂.join h₁.length (by omega) (by omega) (by omega) (by omega) hv,
      by rw [hlen₂, hlen₁]; exact hlen⟩

theorem Holds.writeRest (written : ℕ) (h : Holds b (n + written) (bs ++ (toBits v).take written))
    (haligned : (n + written) % 8 = 0) (hroom : (n + l) / 8 < b.length) (hwritten : written ≤ l) (hl : l ≤ 64)
    (hv : ∀ i, l ≤ i → v.getMsbD i = false) :
    ∃ b', writeRest b (n + written) l v written = .ok (b', n + l) ∧ Holds b' (n + l) (bs ++ (toBits v).take l) ∧
      (n + l) / 8 < b'.length := by
  obtain ⟨b₁, hb₁, h₁, hlen₁, hroom₁⟩ : ∃ b₁, (if (n + written) / 8 + 8 ≥ b.length then b ++ replicate 8 0 else b) = b₁ ∧
      Holds b₁ (n + written) (bs ++ (toBits v).take written) ∧ (n + written) / 8 + 8 ≤ b₁.length ∧
      (n + l) / 8 < b₁.length := by
    split_ifs with hgrow
    · refine ⟨_, rfl, h.zeros 8, ?_⟩
      rw [length_append, length_replicate]
      omega
    · exact ⟨b, rfl, h, by omega, hroom⟩
  obtain ⟨b₂, hput, hlen₂, h₂⟩ := h₁.putUint64 haligned hlen₁ (v <<< written)
  have hcount : n + written + (l - written) = n + l := by omega
  unfold Tsm1.writeRest
  rw [hb₁]
  simp only [bind, Except.bind, hput, hcount]
  refine ⟨b₂, rfl, ?_, by rw [hlen₂]; exact hroom₁⟩
  have htake : toBits (v <<< written) = (toBits (v <<< written)).take 64 :=
    (take_of_length_le (by rw [length_toBits])).symm
  rw [htake] at h₂
  exact h₂.join h₁.length hwritten hl le_rfl (by omega) hv

theorem Holds.writeLong (h : Holds b n bs) (hl : l ≤ 64) (hv : ∀ i, l ≤ i → v.getMsbD i = false) :
    ∃ b', writeLong b n l v = .ok (b', n + l) ∧ Holds b' (n + l) (bs ++ (toBits v).take l) ∧ (n + l) / 8 < b'.length := by
  obtain ⟨hgrow, hroom⟩ := h.growTo ((n + l) / 8)
  have hbs := h.length
  unfold Tsm1.writeLong
  by_cases hm : n % 8 > 0
  · obtain ⟨b₁, hor, hlen, h₁⟩ := hgrow.orAt (by omega) v
    rw [if_pos hm]
    simp only [bind, Except.bind, hor]
    by_cases hfits : l ≤ 8 - n % 8
    · have hwritten : (if l < 8 - n % 8 then l else 8 - n % 8) = l := by
        split_ifs <;> omega
      rw [hwritten, if_pos (by omega)]
      exact ⟨b₁, rfl, h₁.shrink hbs hfits (by omega) hv, by rw [hlen]; exact hroom⟩
    · have hwritten : (if l < 8 - n % 8 then l else 8 - n % 8) = 8 - n % 8 := if_neg (by omega)
      rw [hwritten, if_neg (by omega)]
      exact Holds.writeRest (8 - n % 8) h₁ (by omega) (by rw [hlen]; exact hroom) (by omega) hl hv
  · rw [if_neg hm]
    refine Holds.writeRest 0 ?_ (by omega) hroom (Nat.zero_le _) hl hv
    rw [take_zero, append_nil]
    exact hgrow

theorem Holds.controlBit (h : Holds b n bs) (hn : n / 8 < b.length) :
    ∃ b', Tsm1.orAt b (n / 8) ((128 : Byte) >>> (n % 8)) = .ok b' ∧ b'.length = b.length ∧ Holds b' (n + 1) (bs ++ [true]) := by
  obtain ⟨b', hor, hlen, h'⟩ := h.orAt hn ((1 : Word) <<< 63)
  have hbyte : ∀ m : Fin 8, (((1 : Word) <<< 63) >>> 56 >>> m.val).setWidth 8 = (128 : Byte) >>> m.val := by decide
  have hmod := hbyte ⟨n % 8, Nat.mod_lt n (by decide)⟩
  rw [hmod] at hor
  refine ⟨b', hor, hlen, ?_⟩
  exact h'.shrink (l := 1) h.length (by omega) (by omega) (fun i hi => getMsbD_shiftLeft_of_le 1 (l := 1) (by decide) hi)

/-! ## Values -/

theorem Holds.zeroBit (h : Holds b n bs) : Holds b (n + 1) (bs ++ [false]) := by
  refine ⟨by rw [length_append, length_singleton, h.length], fun i => ?_⟩
  rw [h.bits, getD_append]
  split_ifs with hi
  · rfl
  · rw [getD_eq_default _ _ (not_lt.mp hi)]
    cases i - bs.length <;> rfl

theorem Holds.writeWindow {w : FloatWindow} (h : Holds b n bs) (x : Word) :
    ∃ b', Tsm1.writeLong b n w.sigbits (x >>> w.trailing <<< (64 - w.sigbits)) = .ok (b', n + w.sigbits) ∧
      Holds b' (n + w.sigbits) (bs ++ windowBits w x) ∧ (n + w.sigbits) / 8 < b'.length := by
  have hsig : w.sigbits ≤ 64 := by
    rw [FloatWindow.sigbits]
    omega
  have hspec := h.writeLong hsig fun i hi => getMsbD_shiftLeft_of_le (x >>> w.trailing) hsig hi
  rwa [take_toBits_shiftLeft _ hsig] at hspec

theorem Holds.writeNat (h : Holds b n bs) (hn : n / 8 < b.length) (hl : l ≤ 8) (y : Word) :
    ∃ b', Tsm1.writeShort b n l (y <<< (64 - l)) = .ok (b', n + l) ∧ Holds b' (n + l) (bs ++ lowBits l y) ∧
      (n + l) / 8 < b'.length := by
  have hspec := h.writeShort hn hl fun i hi => getMsbD_shiftLeft_of_le y (by omega) hi
  rwa [take_toBits_shiftLeft _ (by omega)] at hspec

namespace FloatArrayEncoder

def window (e : FloatArrayEncoder) : FloatWindow := ⟨e.prevLeading, e.prevTrailing⟩

variable {e : FloatArrayEncoder}

theorem startDelta_spec (h : Holds b n bs) : ∃ b', startDelta b n = .ok (b', n + 1) ∧ Holds b' (n + 1) (bs ++ [true]) ∧
    n / 8 < b'.length := by
  obtain ⟨hgrow, hroom⟩ := h.growTo (n / 8)
  obtain ⟨b', hor, hlen, h'⟩ := hgrow.controlBit hroom
  refine ⟨b', ?_, h', by rw [hlen]; exact hroom⟩
  simp only [startDelta, bind, Except.bind, hor]
  rfl

theorem step_spec (h : Holds e.b e.n bs) (v : Word) : ∃ e', e.step v = .ok e' ∧
    Holds e'.b e'.n (bs ++ deltaBits e.window (v ^^^ e.prev)) ∧ e'.prev = v ∧
    e'.window = nextWindow e.window (v ^^^ e.prev) ∧ (v ≠ e.prev → e'.n / 8 < e'.b.length) := by
  unfold step
  rw [deltaBits, nextWindow]
  by_cases hx : v ^^^ e.prev = 0
  · rw [if_pos hx, if_pos hx, if_pos (.inl hx)]
    exact ⟨_, rfl, h.zeroBit, rfl, rfl, fun hv => absurd (BitVec.xor_eq_zero_iff.mp hx) hv⟩
  rw [if_neg hx, if_neg hx]
  obtain ⟨b₁, hstart, h₁, hroom₁⟩ := startDelta_spec h
  obtain ⟨h₂, hroom₂⟩ := h₁.growOne (k := (e.n + 1 + 2) / 8) (by omega)
  simp only [bind, Except.bind, hstart]
  generalize v ^^^ e.prev = x at hx ⊢
  have hcond : (e.prevLeading ≠ noWindow ∧ clampLeading (leadingZeros64 x) ≥ e.prevLeading ∧
    trailingZeros64 x ≥ e.prevTrailing) ↔ Reuses e.window x := Iff.rfl
  simp only [hcond]
  by_cases hreuse : Reuses e.window x
  · obtain ⟨b₃, hlong, h₃, hroom₃⟩ := h₂.zeroBit.writeWindow (w := e.window) x
    simp only [window, FloatWindow.sigbits] at hlong
    rw [if_pos hreuse, if_pos hreuse, if_pos (.inr hreuse), hlong]
    refine ⟨_, rfl, ?_, rfl, rfl, fun _ => hroom₃⟩
    rwa [append_assoc, append_assoc] at h₃
  · obtain ⟨b₃, hor, hlen₃, h₃⟩ := h₂.controlBit (by omega)
    obtain ⟨b₄, hfive, h₄, hroom₄⟩ := h₃.writeNat (l := 5) (by rw [hlen₃]; omega) (by decide)
      (BitVec.ofNat 64 (clampLeading (leadingZeros64 x)))
    obtain ⟨b₅, hsix, h₅, hroom₅⟩ := h₄.writeNat (l := 6) hroom₄ (by decide)
      (BitVec.ofNat 64 (64 - clampLeading (leadingZeros64 x) - trailingZeros64 x))
    obtain ⟨b₆, hlong, h₆, hroom₆⟩ := h₅.writeWindow (w := FloatWindow.ofWord x) x
    simp only [FloatWindow.ofWord, FloatWindow.sigbits] at hlong
    rw [if_neg hreuse, if_neg hreuse, if_neg (not_or.mpr ⟨hx, hreuse⟩)]
    simp only [hor, hfive, hsix, hlong]
    refine ⟨_, rfl, ?_, rfl, rfl, fun _ => hroom₆⟩
    simp only [append_assoc, cons_append] at h₆
    exact h₆

theorem foldlM_step (vs : List Word) (h : Holds e.b e.n bs) (hvs : ∀ v ∈ vs, v ≠ uvnan) (hprev : e.prev ≠ uvnan) :
    ∃ e' bs', vs.foldlM step e = .ok e' ∧ Holds e'.b e'.n bs' ∧ e'.prev ≠ uvnan ∧
      ∀ more, bs' ++ streamBits e'.window e'.prev more = bs ++ streamBits e.window e.prev (vs ++ more) := by
  induction vs generalizing e bs with
  | nil => exact ⟨e, bs, rfl, h, hprev, fun _ => rfl⟩
  | cons v vs ih =>
    obtain ⟨e₁, hstep, h₁, rfl, hwindow, -⟩ := step_spec h v
    obtain ⟨e', bs', hrest, h', hprev', hmore⟩ := ih h₁ (forall_mem_cons.mp hvs).2
      (hvs _ mem_cons_self)
    refine ⟨e', bs', ?_, h', hprev', fun more => ?_⟩
    · rw [foldlM_cons, hstep]
      exact hrest
    · rw [hmore, cons_append, streamBits, append_assoc, hwindow]

end FloatArrayEncoder

theorem Holds.take_eq (h : Holds b n (toBits (floatCompressedGorilla <<< 4) ++ encodedBits vs))
    (hroom : (n + 7) / 8 ≤ b.length) : b.take ((n + 7) / 8) = encodedBytes vs := by
  have hn := h.length
  rw [length_append, length_toBits] at hn
  have hencoded : bytesToBits (encodedBytes vs) = toBits (floatCompressedGorilla <<< 4) ++ padded (encodedBits vs) := by
    rw [encodedBytes, bytesToBits_cons, bytesToBits_bitsToBytes (length_padded _)]
  refine bytesToBits_injective (bits_ext ?_ fun i hi => ?_)
  · rw [hencoded, length_bytesToBits, length_take_of_le hroom, length_append, length_toBits, padded,
      length_append, length_replicate]
    omega
  · rw [length_bytesToBits, length_take_of_le hroom] at hi
    rw [bytesToBits_take, getD_take, decide_eq_true hi, Bool.true_and, h.bits, hencoded, padded, ← append_assoc,
      getD_append _ (replicate _ false)]
    split_ifs with hlt
    · rfl
    · rw [getD_eq_default _ _ (not_lt.mp hlt)]
      exact (getElem?_getD_replicate_default_eq false _ _).symm

theorem ne_uvnan (hnan : ∀ v ∈ vs, isNaN v = false) : ∀ v ∈ vs, v ≠ uvnan := by
  rintro v hv rfl
  exact absurd (hnan _ hv) (by decide)

theorem length_floatBuffer (buf : Slice) : (floatBuffer buf).length = 9 := by
  unfold floatBuffer
  split_ifs with h
  · exact length_replicate
  · exact length_take_of_le (not_lt.mp h)

theorem holds_first (first : Word) : Holds ((floatCompressedGorilla <<< 4) :: putUint64 first) (8 + 64)
    (toBits (floatCompressedGorilla <<< 4) ++ toBits first) := by
  refine ⟨by rw [length_append, length_toBits, length_toBits], fun i => ?_⟩
  rw [bytesToBits_cons, bytesToBits_putUint64]

theorem encode_values (hvs : ∀ v ∈ vs, v ≠ uvnan) :
    ∃ e, (if vs.length = 0 then [] else vs.tail ++ [uvnan]).foldlM FloatArrayEncoder.step
        ⟨(floatCompressedGorilla <<< 4) :: putUint64 (vs.headD uvnan), 8 + 64, vs.headD uvnan, noWindow, 0⟩ = .ok e ∧
      Holds e.b e.n (toBits (floatCompressedGorilla <<< 4) ++ encodedBits vs) ∧ (e.n + 7) / 8 ≤ e.b.length := by
  cases vs with
  | nil =>
    refine ⟨_, rfl, holds_first uvnan, ?_⟩
    show 9 ≤ ((floatCompressedGorilla <<< 4) :: putUint64 uvnan).length
    rw [length_cons, length_putUint64]
  | cons first rest =>
    obtain ⟨e₁, bs, hfold, h₁, hprev, hmore⟩ := FloatArrayEncoder.foldlM_step
      (e := ⟨(floatCompressedGorilla <<< 4) :: putUint64 first, 8 + 64, first, noWindow, 0⟩) rest (holds_first first)
      (forall_mem_cons.mp hvs).2 (hvs first mem_cons_self)
    obtain ⟨e₂, hstep, h₂, -, -, hroom⟩ := FloatArrayEncoder.step_spec h₁ uvnan
    have hbits := hmore [uvnan]
    rw [streamBits, streamBits, append_nil, append_assoc] at hbits
    refine ⟨e₂, ?_, ?_, ?_⟩
    · rw [if_neg (by simp), tail_cons, headD_cons, foldlM_append, hfold]
      simp only [bind, Except.bind, foldlM_cons, foldlM_nil, hstep]
      rfl
    · rwa [hbits] at h₂
    · have := hroom hprev.symm
      omega

/-- **The batch encoder** writes the bits of the values. -/
theorem floatArrayEncodeAll_eq (add : Word → Word → Word) (hnan : ∀ v ∈ vs, isNaN v = false)
    (buf : Slice) : floatArrayEncodeAll add vs buf =
      if isNaN (vs.tail.foldl add 0) then .error "unsupported value: NaN" else .ok (encodedBytes vs) := by
  have hhead : ¬ (vs.length > 0 ∧ isNaN (vs.headD 0) = true) := by
    cases vs with
    | nil => simp
    | cons first rest => simp [hnan first mem_cons_self]
  obtain ⟨e, hfold, h, hroom⟩ := encode_values (ne_uvnan hnan)
  have hlength : (if e.n % 8 > 0 then e.n / 8 + 1 else e.n / 8) = (e.n + 7) / 8 := by
    split_ifs <;> omega
  unfold floatArrayEncodeAll
  simp only [if_neg hhead]
  rw [writeFirst (by rw [length_floatBuffer]), drop_eq_nil_of_le (by rw [length_floatBuffer]), append_nil]
  simp only [bind, Except.bind, hfold, hlength]
  rw [if_pos hroom, h.take_eq hroom]

/-! ## Round trip -/

/-- **Floats.** For values none of which is a NaN, and whatever was in the buffer, the encoder and the decoder: the
batch encoder fails only when the sum of the values behind the first is a NaN, its bytes are those of the other
encoder, and both decoders read the values back. -/
theorem floats_round_trip (add : Word → Word → Word) (vs : List Word) (hnan : ∀ v ∈ vs, isNaN v = false) (buf : Slice)
    (e : FloatEncoder) (d : FloatDecoder) : ∃ b, floatArrayEncodeAll add vs buf =
        (if isNaN (vs.tail.foldl add 0) then .error "unsupported value: NaN" else .ok b) ∧
      (vs.foldl FloatEncoder.write e.reset).flush.getBytes = (b, none) ∧ floatArrayDecodeAll b = .ok vs ∧
      ∃ d₀ d', d.setBytes b = (d₀, none) ∧ Collects FloatDecoder.next FloatDecoder.read d₀ vs d' ∧ d'.err = none := by
  have hvs := ne_uvnan hnan
  exact ⟨encodedBytes vs, floatArrayEncodeAll_eq add hnan buf, e.getBytes_eq hnan, floatArrayDecodeAll_encodedBytes hvs,
    d.collects_encodedBytes hvs⟩

/-- Addition of zeros and infinities; two infinities of different signs give a NaN. -/
def addInfinities (x y : Word) : Word :=
  if x = 0 then y else if y = 0 ∨ x = y then x else 0x7FF8000000000001

theorem floats_round_trip_infinities : ∃ b,
    floatArrayEncodeAll addInfinities [0x7FF0000000000000, 0, 0xFFF0000000000000] (Slice.ofList [1, 2, 3]) = .ok b ∧
    ([0x7FF0000000000000, 0, 0xFFF0000000000000].foldl FloatEncoder.write
      FloatEncoder.newFloatEncoder.reset).flush.getBytes = (b, none) ∧
    floatArrayDecodeAll b = .ok [0x7FF0000000000000, 0, 0xFFF0000000000000] ∧
    ∃ d₀ d', FloatDecoder.zero.setBytes b = (d₀, none) ∧
      Collects FloatDecoder.next FloatDecoder.read d₀ [0x7FF0000000000000, 0, 0xFFF0000000000000] d' ∧ d'.err = none :=
  floats_round_trip addInfinities [0x7FF0000000000000, 0, 0xFFF0000000000000]
    (by
      intro v hv
      simp only [mem_cons, not_mem_nil, or_false] at hv
      rcases hv with rfl | rfl | rfl <;> rfl)
    (Slice.ofList [1, 2, 3]) FloatEncoder.newFloatEncoder FloatDecoder.zero

end Influxdb.Tsm1
