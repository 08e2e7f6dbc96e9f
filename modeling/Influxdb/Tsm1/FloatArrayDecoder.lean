import Influxdb.Tsm1.FloatCodec

/-!
# FloatArrayDecoder — the batch decoder of floats

The batch decoder reads bits through a word that is rotated and refilled at several places.  It reads the same
bits as the other decoder.
-/

namespace Influxdb.Tsm1

open List Option FloatWindow BitCache
open BitVec (getLsbD_and ofNat)

variable {p q : List Bool} {vs : List Word}

/-! ## The rotating cache -/

theorem subUint8_of_le {a b : ℕ} (h : b ≤ a) (ha : a < 256) : subUint8 a b = a - b := by
  rw [subUint8]
  omega

theorem getLsbD_bitMask {n i : ℕ} (hpos : 0 < n) (hn : n ≤ 64) (hi : i < 64) :
    (bitMask n).getLsbD i = decide (i < n) := by
  unfold bitMask
  split_ifs with h
  · have hn : n = 64 := by omega
    rw [BitVec.getLsbD_allOnes, hn]
  · have hmod : n % 64 = n := by omega
    rw [BitVec.getLsbD_ofNat, hmod, Nat.testBit_two_pow_sub_one, decide_eq_true hi, Bool.true_and]

theorem getLsbD_rotateLeft (x : Word) {n j : ℕ} (hn : n ≤ 64) (hj : j < n) :
    (x.rotateLeft n).getLsbD j = x.getMsbD (n - 1 - j) := by
  have h64 : 64 - 1 - (64 - 1 - j) = j := by omega
  have hmsb : (x.rotateLeft n).getMsbD (64 - 1 - j) = (x.rotateLeft n).getLsbD j := by
    rw [BitVec.getMsbD_eq_getLsbD, h64, decide_eq_true (by omega), Bool.true_and]
  have hindex : (n + (64 - 1 - j)) % 64 = n - 1 - j := by omega
  rw [← hmsb, BitVec.getMsbD_rotateLeft, hindex, decide_eq_true (by omega), Bool.true_and]

theorem take_toBits_rotateLeft (x : Word) {n k : ℕ} (hn : n ≤ k) (hk : k ≤ 64) :
    (toBits (x.rotateLeft n)).take (k - n) = ((toBits x).take k).drop n := by
  refine bits_ext (by simp only [length_take, length_drop, length_toBits]; omega) fun i hi => ?_
  rw [length_take, length_toBits] at hi
  have hindex : (n + i) % 64 = n + i := by omega
  rw [getD_take, getD_toBits, BitVec.getMsbD_rotateLeft, hindex, getD_drop, getD_take, getD_toBits,
    decide_eq_true (show i < k - n by omega), decide_eq_true (show i < 64 by omega),
    decide_eq_true (show n + i < k by omega), Bool.true_and]

theorem eq_ofBits {x : Word} {l : List Bool} (hlen : l.length ≤ 64)
    (h : ∀ j < 64, x.getLsbD j = (decide (j < l.length) && l.getD (l.length - 1 - j) false)) : x = ofBits l := by
  refine BitVec.eq_of_getLsbD_eq fun j hj => ?_
  rw [h j hj, getLsbD_ofBits hlen]

namespace BitCache

/-- The bits that have not been read. -/
def rest (s : BitCache) : List Bool := (toBits s.cachedVal).take s.validBits ++ bytesToBits s.b

variable {s : BitCache} {n : ℕ} {l : List Bool}

theorem length_rest (h : s.validBits ≤ 64) : s.rest.length = s.validBits + 8 * s.b.length := by
  rw [rest, length_append, length_take, length_toBits, length_bytesToBits]
  omega

theorem refill_spec {b : List Byte} (hb : b ≠ []) : ∃ s, refill b = some s ∧ 0 < s.validBits ∧ s.validBits ≤ 64 ∧
    s.rest = bytesToBits b ∧ (s.validBits = 64 ∨ s.b = []) := by
  have hpos := length_pos_of_ne_nil hb
  unfold refill
  by_cases h : b.length ≥ 8
  · rw [if_pos h]
    refine ⟨_, rfl, Nat.succ_pos 63, le_rfl, ?_, .inl rfl⟩
    rw [rest, take_of_length_le (by rw [length_toBits]), toBits_uint64 h, ← bytesToBits_append,
      take_append_drop]
  · rw [if_neg h, if_pos hpos]
    rw [foldl_bytes (by omega)]
    refine ⟨_, rfl, by simp only; omega, by simp only; omega, ?_, .inr rfl⟩
    have hlen := length_bytesToBits b
    rw [rest, bytesToBits_nil, append_nil]
    refine bits_ext (by simp only [length_take, length_toBits]; omega) fun i hi => ?_
    simp only [length_take, length_toBits] at hi
    have hmod : b.length * 8 % 64 = b.length * 8 := by omega
    have hindex : (64 + i - b.length * 8) % 64 = 64 + i - b.length * 8 := by omega
    have hbit : 8 * b.length - 1 - (64 - 1 - (64 + i - b.length * 8)) = i := by omega
    rw [getD_take, getD_toBits, BitVec.getMsbD_rotateRight, hmod, if_pos (by omega), hindex, BitVec.getMsbD_eq_getLsbD,
      getLsbD_ofBits (by omega), hlen, hbit, decide_eq_true (show i < b.length * 8 by omega),
      decide_eq_true (show i < 64 by omega), decide_eq_true (show 64 + i - b.length * 8 < 64 by omega),
      decide_eq_true (show 64 - 1 - (64 + i - b.length * 8) < 8 * b.length by omega)]
    simp

theorem rest_rotateLeft (hle : n ≤ s.validBits) (hvalid : s.validBits ≤ 64) :
    ({ s with cachedVal := s.cachedVal.rotateLeft n, validBits := subUint8 s.validBits n } : BitCache).rest =
      s.rest.drop n := by
  have hlength : n ≤ ((toBits s.cachedVal).take s.validBits).length := by
    rw [length_take, length_toBits]
    omega
  rw [rest, rest, drop_append_of_le_length hlength]
  rw [subUint8_of_le hle (by omega), take_toBits_rotateLeft _ hle hvalid]

/-- **Reading bits** takes them from the front. -/
theorem readBits_spec (hvalid : s.validBits ≤ 64) (hpos : 0 < n) (hn : n ≤ 64) (hrest : n ≤ s.rest.length) :
    ∃ x s', s.readBits n = some (x, s') ∧ x &&& bitMask n = ofBits (s.rest.take n) ∧ s'.validBits ≤ 64 ∧
      s'.rest = s.rest.drop n := by
  have htake : (s.rest.take n).length = n := length_take_of_le hrest
  have hcached : ((toBits s.cachedVal).take s.validBits).length = s.validBits := by
    rw [length_take, length_toBits]
    omega
  unfold readBits
  by_cases hle : n ≤ s.validBits
  · rw [if_pos hle]
    refine ⟨_, _, rfl, eq_ofBits (by omega) fun j hj => ?_, ?_, rest_rotateLeft hle hvalid⟩
    · rw [htake, getLsbD_and, getLsbD_bitMask hpos hn hj]
      by_cases hlt : j < n
      · rw [getLsbD_rotateLeft _ hn hlt, getD_take, rest, getD_append, hcached, if_pos (by omega), getD_take, getD_toBits,
          decide_eq_true hlt, decide_eq_true (show n - 1 - j < n by omega),
          decide_eq_true (show n - 1 - j < s.validBits by omega)]
        simp
      · simp [hlt]
    · show subUint8 s.validBits n ≤ 64
      rw [subUint8_of_le hle (by omega)]
      omega
  · have hb : s.b ≠ [] := by
      intro hb
      rw [length_rest hvalid, hb, length_nil] at hrest
      omega
    obtain ⟨t, hrefill, -, hvalid', hrest', hfull⟩ := refill_spec hb
    have hall : s.rest = (toBits s.cachedVal).take s.validBits ++ t.rest := by rw [hrest', rest]
    have hle' : n - s.validBits ≤ t.validBits := by
      rw [hall, length_append, hcached, length_rest hvalid'] at hrest
      rcases hfull with hfull | hfull
      · omega
      · rw [hfull, length_nil] at hrest
        omega
    -- the bits of both words, whether or not there are any in the first
    obtain ⟨bits, hpair, hbits⟩ : ∃ bits : Word,
        (if s.validBits > 0 then (subUint8 n s.validBits, s.cachedVal.rotateLeft n) else (n, 0)) =
          (n - s.validBits, bits) ∧
        ∀ j, n - s.validBits ≤ j → j < n → bits.getLsbD j = s.cachedVal.getMsbD (n - 1 - j) := by
      split_ifs with h0
      · rw [subUint8_of_le (by omega) (by omega)]
        exact ⟨_, rfl, fun j _ hj => getLsbD_rotateLeft _ hn hj⟩
      · refine ⟨0, by rw [Nat.eq_zero_of_not_pos h0, Nat.sub_zero], fun j h1 h2 => ?_⟩
        omega
    rw [if_neg hle, hpair]
    simp only [hrefill, bind_eq_bind, bind_some]
    refine ⟨_, _, rfl, eq_ofBits (by omega) fun j hj => ?_, ?_, ?_⟩
    · rw [htake, getLsbD_and, BitVec.getLsbD_or, getLsbD_and, getLsbD_and, BitVec.getLsbD_not,
        getLsbD_bitMask (by omega) (by omega) hj, getLsbD_bitMask hpos hn hj, getD_take, hall, getD_append, hcached,
        decide_eq_true hj]
      by_cases hlt : j < n
      · by_cases hlow : j < n - s.validBits
        · have hindex : n - 1 - j - s.validBits = n - s.validBits - 1 - j := by omega
          rw [getLsbD_rotateLeft _ (by omega) hlow, if_neg (by omega), rest, getD_append, if_pos (by
              rw [length_take, length_toBits]
              omega), getD_take, getD_toBits, hindex, decide_eq_true hlt, decide_eq_true hlow,
            decide_eq_true (show n - 1 - j < n by omega),
            decide_eq_true (show n - s.validBits - 1 - j < t.validBits by omega)]
          simp
        · rw [hbits j (by omega) hlt, if_pos (by omega), getD_take, getD_toBits, decide_eq_true hlt,
            decide_eq_false hlow, decide_eq_true (show n - 1 - j < n by omega),
            decide_eq_true (show n - 1 - j < s.validBits by omega)]
          simp
      · simp [hlt]
    · show subUint8 t.validBits (n - s.validBits) ≤ 64
      rw [subUint8_of_le hle' (by omega)]
      omega
    · have hnil : ((toBits s.cachedVal).take s.validBits).drop n = [] := drop_eq_nil_of_le (by omega)
      rw [rest_rotateLeft hle' hvalid', hall, drop_append, hcached, hnil, nil_append]

theorem readBit_spec {bit : Bool} (hvalid : s.validBits ≤ 64) (hrest : s.rest = bit :: l) :
    ∃ s', s.readBit = some (bit, s') ∧ s'.validBits ≤ 64 ∧ s'.rest = l := by
  obtain ⟨t, ht, hpos, hvalid', hrest'⟩ : ∃ t, s.fill = some t ∧ 0 < t.validBits ∧ t.validBits ≤ 64 ∧
      t.rest = bit :: l := by
    unfold fill
    split_ifs with h0
    · exact ⟨s, rfl, h0, hvalid, hrest⟩
    · have hzero : s.rest = bytesToBits s.b := by
        rw [rest, Nat.eq_zero_of_not_pos h0, take_zero, nil_append]
      have hb : s.b ≠ [] := by
        intro hb
        rw [hzero, hb] at hrest
        exact absurd hrest (by simp)
      obtain ⟨t, h1, h2, h3, h4, -⟩ := refill_spec hb
      exact ⟨t, h1, h2, h3, by rw [h4, ← hzero, hrest]⟩
  have hbit : t.cachedVal.getMsbD 0 = bit := by
    have hget : t.rest.getD 0 false = bit := by rw [hrest', getD_cons_zero]
    rwa [rest, getD_append, if_pos (by rw [length_take, length_toBits]; omega), getD_take, getD_toBits,
      decide_eq_true hpos, Bool.true_and] at hget
  have hmask : decide (t.cachedVal.rotateLeft 1 &&& 1 > 0) = (t.cachedVal.rotateLeft 1).getLsbD 0 := by
    have hone : (1 : Word) = BitVec.twoPow 64 0 := by decide
    rw [hone, BitVec.and_twoPow]
    cases (t.cachedVal.rotateLeft 1).getLsbD 0 <;> rfl
  refine ⟨_, ?_, ?_, (rest_rotateLeft (n := 1) hpos hvalid').trans (by rw [hrest', drop_succ_cons, drop_zero])⟩
  · unfold readBit
    simp only [ht, bind_eq_bind, bind_some]
    rw [hmask, getLsbD_rotateLeft _ (by decide) (by decide), hbit]
    rfl
  · show subUint8 t.validBits 1 ≤ 64
    rw [subUint8_of_le hpos (by omega)]
    omega

theorem readBits_append (hvalid : s.validBits ≤ 64) (hrest : s.rest = p ++ l) (hpos : 0 < p.length)
    (hn : p.length ≤ 64) : ∃ x s', s.readBits p.length = some (x, s') ∧ x &&& bitMask p.length = ofBits p ∧
      s'.validBits ≤ 64 ∧ s'.rest = l := by
  obtain ⟨x, s', hread, hx, hvalid', hrest'⟩ := readBits_spec hvalid hpos hn (by rw [hrest, length_append]; omega)
  rw [hrest, take_left] at hx
  rw [hrest, drop_left] at hrest'
  exact ⟨x, s', hread, hx, hvalid', hrest'⟩

end BitCache

/-! ## The batch decoder -/

theorem ofBits_append_ushiftRight (hlen : p.length + q.length ≤ 64) : ofBits (p ++ q) >>> q.length = ofBits p := by
  refine eq_ofBits (by omega) fun j hj => ?_
  have hindex : p.length + q.length - 1 - (q.length + j) = p.length - 1 - j := by omega
  rw [BitVec.getLsbD_ushiftRight, getLsbD_ofBits (by rw [length_append]; omega), length_append, getD_append,
    hindex]
  by_cases h : j < p.length
  · rw [if_pos (by omega), decide_eq_true h, decide_eq_true (show q.length + j < p.length + q.length by omega)]
  · rw [decide_eq_false h, decide_eq_false (show ¬ q.length + j < p.length + q.length by omega)]
    rfl

theorem ofBits_append_and_bitMask (hpos : 0 < q.length) (hlen : p.length + q.length ≤ 64) :
    ofBits (p ++ q) &&& bitMask q.length = ofBits q := by
  refine eq_ofBits (by omega) fun j hj => ?_
  rw [getLsbD_and, getLsbD_bitMask hpos (by omega) hj, getLsbD_ofBits (by rw [length_append]; omega),
    length_append, getD_append]
  by_cases h : j < q.length
  · have hindex : p.length + q.length - 1 - j - p.length = q.length - 1 - j := by omega
    rw [if_neg (by omega), hindex, decide_eq_true h, decide_eq_true (show j < p.length + q.length by omega),
      Bool.and_true]
  · rw [decide_eq_false h, Bool.and_false]
    rfl

namespace FloatArrayDecoder

def HasWindow (d : FloatArrayDecoder) (w : FloatWindow) : Prop := d.trailingN = w.trailing ∧ d.meaningfulN = w.sigbits

/-- The decoder is between two values, with the bits `l` to read. -/
structure Reading (d : FloatArrayDecoder) (w : FloatWindow) (l : List Bool) : Prop where
  valid : d.br.validBits ≤ 64
  rest : d.br.rest = l
  window : w.leading ≠ noWindow → w.Valid ∧ d.HasWindow w

variable {d : FloatArrayDecoder} {w : FloatWindow} {x : Word} {l : List Bool}

theorem readWindow_spec (hw : w.Valid) (hvalid : d.br.validBits ≤ 64)
    (hrest : d.br.rest = lowBits 5 (ofNat 64 w.leading) ++ (lowBits 6 (ofNat 64 w.sigbits) ++ l)) :
    ∃ br, d.readWindow true = some { d with br := br, trailingN := w.trailing, meaningfulN := w.sigbits } ∧
      br.validBits ≤ 64 ∧ br.rest = l := by
  have hlt := hw.lt
  have hleading := hw.leading
  have hsig : 0 < w.sigbits ∧ w.sigbits ≤ 64 := by
    rw [sigbits]
    omega
  set p := lowBits 5 (ofNat 64 w.leading) with hp
  set q := lowBits 6 (ofNat 64 w.sigbits) with hq
  have hplen : p.length = 5 := length_lowBits _ _
  have hqlen : q.length = 6 := length_lowBits _ _
  have hlen : (p ++ q).length = 11 := by rw [length_append, hplen, hqlen]
  rw [← append_assoc] at hrest
  obtain ⟨y, br, hread, hy, hvalid', hrest'⟩ := readBits_append hvalid hrest (by omega) (by omega)
  rw [hlen] at hread hy
  have h7ff : (0x7ff : Word) = bitMask 11 := by decide
  have h3f : (0x3f : Word) = bitMask q.length := by rw [hqlen]; decide
  have h1f : (0x1f : Word) = bitMask p.length := by rw [hplen]; decide
  have hmeaningful : (y &&& 0x7ff &&& 0x3f).toNat = w.sigbits % 64 := by
    rw [h7ff, hy, h3f, ofBits_append_and_bitMask (by omega) (by omega), hq, ofBits_lowBits_ofNat (by decide),
      BitVec.toNat_ofNat]
    omega
  have hlead : ((y &&& 0x7ff) >>> 6 &&& 0x1f).toNat = w.leading := by
    have hshift := ofBits_append_ushiftRight (p := p) (q := q) (by omega)
    have hmask := ofBits_append_and_bitMask (p := []) (q := p) (by omega) (by rw [length_nil]; omega)
    rw [hqlen] at hshift
    rw [h7ff, hy, hshift, h1f]
    rw [nil_append] at hmask
    rw [hmask, hp, ofBits_lowBits_ofNat (by decide), BitVec.toNat_ofNat]
    omega
  refine ⟨br, ?_, hvalid', hrest'⟩
  unfold readWindow
  rw [if_neg (by simp)]
  simp only [hread, bind_eq_bind, bind_some, hmeaningful, hlead]
  by_cases h64 : w.sigbits = 64
  · have htrailing : w.trailing = 0 := by
      rw [sigbits] at h64
      omega
    rw [h64, htrailing]
    rfl
  · have hmod : w.sigbits % 64 = w.sigbits := by omega
    have htrailing : subUint8 (subUint8 64 w.leading) w.sigbits = w.trailing := by
      have hsub : subUint8 64 w.leading = 64 - w.leading := subUint8_of_le (by omega) (by decide)
      rw [hsub, sigbits, subUint8_of_le (by omega) (by omega)]
      omega
    rw [hmod, if_pos hsig.1, htrailing]
    rfl

theorem readDelta_spec (hw : w.Valid) (hwindow : d.HasWindow w) (hfits : w.Fits x) (hvalid : d.br.validBits ≤ 64)
    (hrest : d.br.rest = windowBits w x ++ l) :
    ∃ br, d.readDelta = some { d with br := br, val := d.val ^^^ x } ∧ br.validBits ≤ 64 ∧ br.rest = l := by
  have hlt := hw.lt
  have hlen : (windowBits w x).length = w.sigbits := length_lowBits _ _
  have hsig : 0 < w.sigbits ∧ w.sigbits ≤ 64 := by
    rw [sigbits]
    omega
  obtain ⟨y, br, hread, hy, hvalid', hrest'⟩ := readBits_append hvalid hrest (by omega) (by omega)
  rw [hlen] at hread hy
  refine ⟨br, ?_, hvalid', hrest'⟩
  have hmod : w.trailing % 64 = w.trailing := by omega
  unfold readDelta
  rw [hwindow.1, hwindow.2, hread, hmod]
  simp only [bind_eq_bind, bind_some]
  rw [hy, windowBits, ofBits_lowBits hsig.2 fun i hi => hfits.getLsbD_ushiftRight hi, hfits.shiftLeft_ushiftRight]
  rfl

theorem step_spec {v : Word} (h : Reading d w (deltaBits w (v ^^^ d.val) ++ l)) :
    ∃ changed d', d.step = some (changed, d') ∧ d'.val = v ∧ (changed = false → v = d.val) ∧
      Reading d' (nextWindow w (v ^^^ d.val)) l := by
  have hrest := h.rest
  rw [deltaBits] at hrest
  unfold step
  rw [nextWindow]
  by_cases hx : v ^^^ d.val = 0
  · have hv : v = d.val := BitVec.xor_eq_zero_iff.mp hx
    rw [if_pos hx] at hrest
    obtain ⟨br, hbit, hvalid, hl⟩ := readBit_spec h.valid hrest
    refine ⟨false, { d with br := br }, ?_, hv.symm, fun _ => hv, hvalid, hl, ?_⟩
    · simp only [hbit, bind_eq_bind, bind_some]
      rfl
    · rw [if_pos (.inl hx)]
      exact h.window
  · rw [if_neg hx] at hrest
    by_cases hreuse : Reuses w (v ^^^ d.val)
    · rw [if_pos hreuse, cons_append, cons_append] at hrest
      obtain ⟨r₁, hbit₁, hvalid₁, hrest₁⟩ := readBit_spec h.valid hrest
      obtain ⟨r₂, hbit₂, hvalid₂, hrest₂⟩ := readBit_spec hvalid₁ hrest₁
      obtain ⟨hw, hwindow⟩ := h.window hreuse.1
      obtain ⟨br, hdelta, hvalid, hl⟩ := readDelta_spec (d := { d with br := r₂ }) hw hwindow hreuse.2 hvalid₂ hrest₂
      refine ⟨true, { d with br := br, val := v }, ?_, rfl, fun h => absurd h (by decide), hvalid, hl, ?_⟩
      · simp only [hbit₁, hbit₂, bind_eq_bind, bind_some, if_true]
        rw [readWindow, if_pos (by decide), bind_some, hdelta, bind_some, FloatDecoder.xor_xor_cancel]
        rfl
      · rw [if_pos (.inr hreuse)]
        exact fun _ => ⟨hw, hwindow⟩
    · rw [if_neg hreuse, cons_append, cons_append, append_assoc, append_assoc] at hrest
      obtain ⟨r₁, hbit₁, hvalid₁, hrest₁⟩ := readBit_spec h.valid hrest
      obtain ⟨r₂, hbit₂, hvalid₂, hrest₂⟩ := readBit_spec hvalid₁ hrest₁
      have hw := ofWord_valid hx
      obtain ⟨r₃, hwindow, hvalid₃, hrest₃⟩ := readWindow_spec (d := { d with br := r₂ }) hw hvalid₂ hrest₂
      obtain ⟨br, hdelta, hvalid, hl⟩ := readDelta_spec
        (d := ⟨r₃, d.val, (ofWord (v ^^^ d.val)).trailing, (ofWord (v ^^^ d.val)).sigbits⟩)
        hw ⟨rfl, rfl⟩ (ofWord_fits _) hvalid₃ hrest₃
      refine ⟨true, ⟨br, v, (ofWord (v ^^^ d.val)).trailing, (ofWord (v ^^^ d.val)).sigbits⟩,
        ?_, rfl, fun h => absurd h (by decide), hvalid, hl, ?_⟩
      · simp only [hbit₁, hbit₂, bind_eq_bind, bind_some, if_true, hwindow]
        rw [hdelta, bind_some, FloatDecoder.xor_xor_cancel]
        rfl
      · rw [if_neg (not_or.mpr ⟨hx, hreuse⟩)]
        exact fun _ => ⟨hw, rfl, rfl⟩

/-- **Values** behind the first one. -/
theorem Reading.run_eq (hvs : ∀ v ∈ vs, v ≠ uvnan) (hval : d.val ≠ uvnan)
    (h : Reading d w (streamBits w d.val (vs ++ [uvnan]) ++ l)) {fuel : ℕ} (hfuel : vs.length < fuel) (dst : List Word) :
    run fuel d dst = .ok (dst ++ vs) := by
  induction vs generalizing d w fuel dst with
  | nil =>
    obtain ⟨fuel, rfl⟩ : ∃ k, fuel = k + 1 := ⟨fuel - 1, by rw [length_nil] at hfuel; omega⟩
    rw [nil_append, streamBits, streamBits, append_nil] at h
    obtain ⟨changed, d', hstep, hv, hchanged, -⟩ := step_spec h
    have hchanged : changed = true := by
      by_contra hne
      exact hval (hchanged (Bool.eq_false_iff.mpr hne)).symm
    rw [run, hstep]
    simp only
    rw [if_pos ⟨hchanged, hv⟩, append_nil]
  | cons v vs ih =>
    obtain ⟨fuel, rfl⟩ : ∃ k, fuel = k + 1 := ⟨fuel - 1, by rw [length_cons] at hfuel; omega⟩
    rw [cons_append, streamBits, append_assoc] at h
    obtain ⟨changed, d', hstep, rfl, -, hreading⟩ := step_spec h
    rw [length_cons] at hfuel
    have hv := hvs d'.val mem_cons_self
    rw [run, hstep]
    simp only
    rw [if_neg (fun h => hv h.2), ih (forall_mem_cons.mp hvs).2 hv hreading (by omega), append_assoc, singleton_append]

end FloatArrayDecoder

theorem length_streamBits (w : FloatWindow) (prev : Word) (vs : List Word) :
    vs.length ≤ (streamBits w prev vs).length := by
  induction vs generalizing w prev with
  | nil => exact Nat.zero_le _
  | cons v vs ih =>
    have hdelta : 0 < (deltaBits w (v ^^^ prev)).length := by
      unfold deltaBits
      split_ifs <;> simp
    have := ih (nextWindow w (v ^^^ prev)) v
    rw [streamBits, length_append, length_cons]
    omega

/-- **The batch decoder** reads the values again. -/
theorem floatArrayDecodeAll_encodedBytes (hvs : ∀ v ∈ vs, v ≠ uvnan) :
    floatArrayDecodeAll (encodedBytes vs) = .ok vs := by
  obtain ⟨v, more, hencoded⟩ := FloatDecoder.exists_encodedBits vs
  have hbits := bytesToBits_encodedBytes vs
  rw [padded, hencoded, append_assoc] at hbits
  have hlength := congrArg length hbits
  rw [length_bytesToBits, length_append, length_toBits, length_drop] at hlength
  have hval : uint64 ((encodedBytes vs).drop 1) = v := by
    rw [uint64_eq_ofBits, bytesToBits_take, hbits, take_left' (length_toBits v), ofBits_toBits]
  have hrest := bytesToBits_drop ((encodedBytes vs).drop 1) 8
  rw [hbits, drop_left' (length_toBits v)] at hrest
  unfold floatArrayDecodeAll
  rw [if_neg (by omega)]
  simp only
  rw [hval]
  cases vs with
  | nil =>
    have hv : v = uvnan := toBits_injective (append_inj_left hencoded (by simp)).symm
    rw [if_pos hv]
  | cons first rest =>
    obtain ⟨hv, rfl⟩ := append_inj hencoded (by simp)
    obtain rfl := toBits_injective hv
    have hstream := length_streamBits none first (rest ++ [uvnan])
    rw [length_append, length_singleton] at hstream
    have hbytes := congrArg length hrest
    rw [length_bytesToBits, length_append] at hbytes
    obtain ⟨br, hrefill, -, hvalid, hbr, -⟩ := refill_spec (b := ((encodedBytes (first :: rest)).drop 1).drop 8)
      (ne_nil_of_length_pos (by omega))
    have hreading : FloatArrayDecoder.Reading ⟨br, first, 0, 64⟩ none
        (streamBits none first (rest ++ [uvnan]) ++ _) :=
      ⟨hvalid, hbr.trans hrest, fun h => absurd rfl h⟩
    have hfirst := hvs first mem_cons_self
    rw [if_neg hfirst, hrefill]
    simp only
    rw [hreading.run_eq (forall_mem_cons.mp hvs).2 hfirst (by omega), singleton_append]

end Influxdb.Tsm1
