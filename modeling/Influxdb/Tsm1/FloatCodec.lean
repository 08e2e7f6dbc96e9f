import Influxdb.Lib.Iter
import Influxdb.Tsm1.Float

/-!
# FloatCodec — encoded floats can be decoded

`streamBits` says which bits stand for the values behind the first one.  The encoder writes them and the
decoder reads them, one value at a time.
-/

namespace Influxdb.Tsm1

open List
open BitVec (ofNat toNat_ofNat)

variable {e : FloatEncoder} {x : Word} {v : Word} {i : ℕ} {vs : List Word} {r : BitReader}

/-! ## Windows -/

theorem clampLeading_eq (leading : ℕ) : clampLeading leading = leading % 32 := by
  have h : leading &&& 0x1F = leading % 32 := Nat.and_two_pow_sub_one_eq_mod leading 5
  unfold clampLeading
  rw [h, if_neg (by omega)]

section Zeros

variable {x : Word}

theorem getMsbD_of_lt_leading (h : i < leadingZeros64 x) : x.getMsbD i = false := by
  rw [← getD_toBits]
  exact getD_of_lt_zeros h

theorem getLsbD_of_lt_trailing (h : i < trailingZeros64 x) : x.getLsbD i = false := by
  by_cases hi : i < 64
  · rw [← getD_reverse_toBits x hi]
    exact getD_of_lt_zeros h
  · exact BitVec.getLsbD_of_ge _ _ (by omega)

theorem leading_add_trailing_lt (hx : x ≠ 0) : leadingZeros64 x + trailingZeros64 x < 64 := by
  have hone : x.getMsbD (leadingZeros64 x) = true := by
    rw [← getD_toBits]
    exact getD_zeros (true_mem_toBits hx)
  have hlt : leadingZeros64 x < 64 := by
    by_contra hge
    rw [BitVec.getMsbD_of_ge _ _ (by omega)] at hone
    exact absurd hone (by decide)
  by_contra hge
  rw [BitVec.getMsbD_eq_getLsbD, decide_eq_true hlt, Bool.true_and, getLsbD_of_lt_trailing (by omega)] at hone
  exact absurd hone (by decide)

end Zeros

/-- A window of leading and trailing zeros. -/
structure FloatWindow where
  leading : ℕ
  trailing : ℕ

namespace FloatWindow

/-- The number of significant bits. -/
def sigbits (w : FloatWindow) : ℕ := 64 - w.leading - w.trailing

/-- No window, before the first one. -/
def none : FloatWindow := ⟨noWindow, 0⟩

def ofWord (x : Word) : FloatWindow := ⟨clampLeading (leadingZeros64 x), trailingZeros64 x⟩

def Fits (w : FloatWindow) (x : Word) : Prop :=
  w.leading ≤ clampLeading (leadingZeros64 x) ∧ w.trailing ≤ trailingZeros64 x

instance (w : FloatWindow) (x : Word) : Decidable (w.Fits x) := instDecidableAnd

/-- A window that has been used. -/
structure Valid (w : FloatWindow) : Prop where
  leading : w.leading < 32
  lt : w.leading + w.trailing < 64

variable {w : FloatWindow} {x : Word}

theorem ofWord_valid (hx : x ≠ 0) : (ofWord x).Valid := by
  have h := leading_add_trailing_lt hx
  have hclamp := clampLeading_eq (leadingZeros64 x)
  refine ⟨?_, ?_⟩
  · show clampLeading (leadingZeros64 x) < 32
    omega
  · show clampLeading (leadingZeros64 x) + trailingZeros64 x < 64
    omega

theorem ofWord_fits (x : Word) : (ofWord x).Fits x := ⟨le_rfl, le_rfl⟩

theorem Fits.leading_le (h : w.Fits x) : w.leading ≤ leadingZeros64 x := by
  have h1 := h.1
  have h2 := clampLeading_eq (leadingZeros64 x)
  omega

theorem Fits.getLsbD_ushiftRight (h : w.Fits x) (hi : w.sigbits ≤ i) : (x >>> w.trailing).getLsbD i = false := by
  have hle := h.leading_le
  rw [sigbits] at hi
  rw [BitVec.getLsbD_ushiftRight]
  by_cases hlt : w.trailing + i < 64
  · have hindex : 64 - 1 - (64 - 1 - (w.trailing + i)) = w.trailing + i := by omega
    have hmsb := getMsbD_of_lt_leading (x := x) (i := 64 - 1 - (w.trailing + i)) (by omega)
    rwa [BitVec.getMsbD_eq_getLsbD, hindex, decide_eq_true (by omega), Bool.true_and] at hmsb
  · exact BitVec.getLsbD_of_ge _ _ (by omega)

theorem Fits.shiftLeft_ushiftRight (h : w.Fits x) : x >>> w.trailing <<< w.trailing = x := by
  refine BitVec.eq_of_getLsbD_eq fun i hi => ?_
  rw [BitVec.getLsbD_shiftLeft, BitVec.getLsbD_ushiftRight, decide_eq_true hi, Bool.true_and]
  by_cases hlt : i < w.trailing
  · rw [decide_eq_true hlt, getLsbD_of_lt_trailing (lt_of_lt_of_le hlt h.2)]
    rfl
  · have hindex : w.trailing + (i - w.trailing) = i := by omega
    rw [decide_eq_false hlt, hindex]
    rfl

end FloatWindow

/-! ## The bits of a value -/

variable (w : FloatWindow)

/-- The bits of a word that is not zero, in a window. -/
def windowBits (x : Word) : List Bool := lowBits w.sigbits (x >>> w.trailing)

def Reuses (x : Word) : Prop := w.leading ≠ noWindow ∧ w.Fits x

instance (w : FloatWindow) (x : Word) : Decidable (Reuses w x) := instDecidableAnd

/-- The bits that stand for a value, by its difference from the one before. -/
def deltaBits (x : Word) : List Bool :=
  if x = 0 then [false]
  else if Reuses w x then true :: false :: windowBits w x
  else true :: true :: (lowBits 5 (BitVec.ofNat 64 (FloatWindow.ofWord x).leading) ++
    (lowBits 6 (BitVec.ofNat 64 (FloatWindow.ofWord x).sigbits) ++ windowBits (FloatWindow.ofWord x) x))

def nextWindow (x : Word) : FloatWindow := if x = 0 ∨ Reuses w x then w else FloatWindow.ofWord x

/-- The bits that stand for the values behind `prev`. -/
def streamBits : FloatWindow → Word → List Word → List Bool
  | _, _, [] => []
  | w, prev, v :: vs => deltaBits w (v ^^^ prev) ++ streamBits (nextWindow w (v ^^^ prev)) v vs

/-! ## Encoding -/

namespace FloatEncoder

def window (e : FloatEncoder) : FloatWindow := ⟨e.leading, e.trailing⟩

theorem writeDelta_of_reuses (h : Reuses e.window x) :
    e.writeDelta x = { e with bits := e.bits ++ false :: windowBits e.window x } := by
  have hcond : e.leading ≠ noWindow ∧ clampLeading (leadingZeros64 x) ≥ e.leading ∧
    trailingZeros64 x ≥ e.trailing := h
  unfold writeDelta
  rw [if_pos hcond]
  simp [writeBit, writeBits, windowBits, FloatWindow.sigbits, window]

theorem writeDelta_of_not_reuses (h : ¬ Reuses e.window x) : e.writeDelta x = { e with
        leading := (FloatWindow.ofWord x).leading
        trailing := (FloatWindow.ofWord x).trailing
        bits := e.bits ++ true :: (lowBits 5 (ofNat 64 (FloatWindow.ofWord x).leading) ++
          (lowBits 6 (ofNat 64 (FloatWindow.ofWord x).sigbits) ++ windowBits (FloatWindow.ofWord x) x)) } := by
  have hcond : ¬ (e.leading ≠ noWindow ∧ clampLeading (leadingZeros64 x) ≥ e.leading ∧
    trailingZeros64 x ≥ e.trailing) := h
  unfold writeDelta
  rw [if_neg hcond]
  simp [writeBit, writeBits, windowBits, FloatWindow.sigbits, FloatWindow.ofWord]

theorem write_eq (hnan : isNaN v = true → e.finished = true) (hfirst : e.first = false) : e.write v = { e with
        val := v
        leading := (nextWindow e.window (v ^^^ e.val)).leading
        trailing := (nextWindow e.window (v ^^^ e.val)).trailing
        bits := e.bits ++ deltaBits e.window (v ^^^ e.val) } := by
  unfold write
  rw [if_neg (by rintro ⟨h1, h2⟩; exact h2 (hnan h1)), if_neg (by simp [hfirst])]
  simp only
  by_cases hx : v ^^^ e.val = 0
  · rw [if_pos hx, deltaBits, if_pos hx, nextWindow, if_pos (.inl hx)]
    rfl
  · have hwindow : (e.writeBit true).window = e.window := rfl
    rw [if_neg hx, deltaBits, if_neg hx, nextWindow]
    by_cases hreuse : Reuses e.window (v ^^^ e.val)
    · rw [writeDelta_of_reuses (hwindow ▸ hreuse), if_pos (.inr hreuse), if_pos hreuse]
      simp [writeBit, window]
    · rw [writeDelta_of_not_reuses (hwindow ▸ hreuse), if_neg (not_or.mpr ⟨hx, hreuse⟩), if_neg hreuse]
      simp [writeBit]

theorem foldl_write_eq (vs : List Word) (hnan : ∀ v ∈ vs, isNaN v = false) (hfirst : e.first = false) :
    (vs.foldl write e).err = e.err ∧ (vs.foldl write e).first = false ∧ (vs.foldl write e).finished = e.finished ∧
      ∀ more, (vs.foldl write e).bits ++ streamBits (vs.foldl write e).window (vs.foldl write e).val more =
        e.bits ++ streamBits e.window e.val (vs ++ more) := by
  induction vs generalizing e with
  | nil => exact ⟨rfl, hfirst, rfl, fun _ => rfl⟩
  | cons v vs ih =>
    obtain ⟨hv, hnan⟩ := forall_mem_cons.mp hnan
    have hwrite := write_eq (e := e) (fun h => absurd (hv.symm.trans h) Bool.false_ne_true) hfirst
    obtain ⟨h1, h2, h3, h4⟩ := ih (e := e.write v) hnan (by rw [hwrite]; exact hfirst)
    rw [foldl_cons]
    refine ⟨h1.trans (by rw [hwrite]), h2, h3.trans (by rw [hwrite]), fun more => ?_⟩
    rw [h4 more, hwrite, cons_append, streamBits, append_assoc]
    rfl

end FloatEncoder

/-- The bits of values: the first one, the others and the NaN that ends them. -/
def encodedBits : List Word → List Bool
  | [] => toBits uvnan
  | first :: rest => toBits first ++ streamBits FloatWindow.none first (rest ++ [uvnan])

/-- Bits up to the end of the byte. -/
def padded (l : List Bool) : List Bool := l ++ List.replicate ((8 - l.length % 8) % 8) false

def encodedBytes (vs : List Word) : List Byte := (floatCompressedGorilla <<< 4) :: bitsToBytes (padded (encodedBits vs))

theorem length_padded (l : List Bool) : (padded l).length % 8 = 0 := by
  rw [padded, length_append, length_replicate]
  omega

theorem bytesToBits_encodedBytes (vs : List Word) :
    bytesToBits ((encodedBytes vs).drop 1) = padded (encodedBits vs) := bytesToBits_bitsToBytes (length_padded _)

theorem lowBits_eq_toBits (v : Word) : lowBits 64 v = toBits v := by
  refine bits_ext (by rw [length_lowBits, length_toBits]) fun i hi => ?_
  rw [length_lowBits] at hi
  rw [getD_lowBits v hi, getD_toBits, BitVec.getMsbD_eq_getLsbD, decide_eq_true hi, Bool.true_and]

namespace FloatEncoder

theorem write_first (hnan : isNaN v = true → e.finished = true) (hfirst : e.first = true) :
    e.write v = { e with val := v, first := false, bits := e.bits ++ toBits v } := by
  unfold write
  rw [if_neg (by rintro ⟨h1, h2⟩; exact h2 (hnan h1)), if_pos hfirst, writeBits, lowBits_eq_toBits]

/-- **The encoder** writes the bits of the values. -/
theorem getBytes_eq (e : FloatEncoder) (hnan : ∀ v ∈ vs, isNaN v = false) :
    (vs.foldl write e.reset).flush.getBytes = (encodedBytes vs, none) := by
  cases vs with
  | nil =>
    rw [foldl_nil, flush, if_neg (by simp [reset]), write_first (fun _ => rfl) rfl]
    rfl
  | cons first rest =>
    obtain ⟨hv, hnan⟩ := forall_mem_cons.mp hnan
    have hfirst : e.reset.write first = ⟨first, none, noWindow, 0, toBits first, false, false⟩ := by
      rw [write_first (fun h => absurd (hv.symm.trans h) Bool.false_ne_true) rfl]
      rfl
    obtain ⟨herr, hf, hfin, hmore⟩ := foldl_write_eq rest (e := e.reset.write first) hnan (by rw [hfirst])
    rw [foldl_cons]
    generalize rest.foldl write (e.reset.write first) = e' at herr hf hfin hmore
    rw [hfirst] at herr hfin hmore
    have hbits := hmore [uvnan]
    rw [streamBits, streamBits, append_nil] at hbits
    have hencoded : e'.bits ++ deltaBits e'.window (uvnan ^^^ e'.val) = encodedBits (first :: rest) := hbits
    have hlast := write_eq (e := { e' with finished := true }) (v := uvnan) (fun _ => rfl) hf
    rw [flush, if_neg (by simp [hfin]), hlast]
    show ((floatCompressedGorilla <<< 4) ::
      bitsToBytes (padded (e'.bits ++ deltaBits e'.window (uvnan ^^^ e'.val))), e'.err) = _
    rw [hencoded, herr]
    rfl

end FloatEncoder

/-! ## Decoding -/

theorem BitReader.readBits_lowBits {n : ℕ} {l : List Bool} (h : r.Inv)
    (hrest : r.rest = lowBits n x ++ l) (hpos : 0 < n) (hle : n ≤ 64) :
    ∃ r', r.readBits n = .ok (ofBits (lowBits n x), r') ∧ r'.Inv ∧ r'.rest = l := by
  have hlen := length_lowBits n x
  obtain ⟨r', hread, hinv, hrest'⟩ := readBits_spec h hpos hle (by rw [hrest, length_append, hlen]; omega)
  rw [hrest, take_left' hlen] at hread
  rw [hrest, drop_left' hlen] at hrest'
  exact ⟨r', hread, hinv, hrest'⟩

theorem ofBits_lowBits_ofNat {n k : ℕ} (hn : n ≤ 64) : ofBits (lowBits n (ofNat 64 k)) = ofNat 64 (k % 2 ^ n) := by
  have hlow : lowBits n (ofNat 64 k) = lowBits n (ofNat 64 (k % 2 ^ n)) := by
    refine bits_ext (by rw [length_lowBits, length_lowBits]) fun i hi => ?_
    rw [length_lowBits] at hi
    rw [getD_lowBits _ hi, getD_lowBits _ hi, BitVec.getLsbD_ofNat, BitVec.getLsbD_ofNat, Nat.testBit_mod_two_pow,
      decide_eq_true (show n - 1 - i < n by omega), Bool.true_and]
  rw [hlow, ofBits_lowBits hn]
  intro i hi
  rw [BitVec.getLsbD_ofNat, Nat.testBit_mod_two_pow, decide_eq_false (show ¬ i < n by omega)]
  simp

namespace FloatDecoder

theorem nextBit_spec {bit : Bool} {l : List Bool} (h : r.Inv) (hrest : r.rest = bit :: l) :
    ∃ r', nextBit r = .ok (bit, r') ∧ r'.Inv ∧ r'.rest = l := by
  unfold nextBit
  split_ifs with hfast
  · obtain ⟨r', hread, hspec⟩ := BitReader.readBitFast_spec h hrest hfast
    exact ⟨r', by rw [hread], hspec⟩
  · exact BitReader.readBit_spec h hrest

def HasWindow (d : FloatDecoder) (w : FloatWindow) : Prop :=
  d.leading = BitVec.ofNat 64 w.leading ∧ d.trailing = BitVec.ofNat 64 w.trailing

/-- The decoder is between two values, with the bits `l` to read. -/
structure Reading (d : FloatDecoder) (w : FloatWindow) (l : List Bool) : Prop where
  err : d.err = none
  finished : d.finished = false
  first : d.first = false
  inv : d.br.Inv
  rest : d.br.rest = l
  window : w.leading ≠ noWindow → w.Valid ∧ d.HasWindow w

variable {d : FloatDecoder} {w : FloatWindow} {x : Word} {l : List Bool}

theorem readWindow_spec (hw : w.Valid) (hinv : d.br.Inv)
    (hrest : d.br.rest = lowBits 5 (ofNat 64 w.leading) ++ (lowBits 6 (ofNat 64 w.sigbits) ++ l)) :
    ∃ br, d.readWindow = .ok { d with
        leading := ofNat 64 w.leading
        trailing := ofNat 64 w.trailing
        br := br } ∧ br.Inv ∧ br.rest = l := by
  have hlt := hw.lt
  have hleading := hw.leading
  obtain ⟨r₁, hread₁, hinv₁, hrest₁⟩ := BitReader.readBits_lowBits hinv hrest (by decide) (by decide)
  obtain ⟨r₂, hread₂, hinv₂, hrest₂⟩ := BitReader.readBits_lowBits hinv₁ hrest₁ (by decide) (by decide)
  rw [ofBits_lowBits_ofNat (by decide), Nat.mod_eq_of_lt (by omega)] at hread₁
  rw [ofBits_lowBits_ofNat (by decide)] at hread₂
  refine ⟨r₂, ?_, hinv₂, hrest₂⟩
  have hmbits : (if ofNat 64 (w.sigbits % 2 ^ 6) = 0 then (64 : Word) else ofNat 64 (w.sigbits % 2 ^ 6)) =
      ofNat 64 w.sigbits := by
    have hsig : 0 < w.sigbits ∧ w.sigbits ≤ 64 := by
      rw [FloatWindow.sigbits]
      omega
    by_cases h64 : w.sigbits = 64
    · rw [h64]
      rfl
    · rw [Nat.mod_eq_of_lt (by omega), if_neg]
      intro h
      have := congrArg BitVec.toNat h
      rw [toNat_ofNat, Nat.mod_eq_of_lt (by omega)] at this
      simp at this
      omega
  have htrailing : (64 : Word) - ofNat 64 w.leading - ofNat 64 w.sigbits = ofNat 64 w.trailing := by
    have h64 : (64 : Word).toNat = 64 := rfl
    rw [FloatWindow.sigbits]
    refine BitVec.eq_of_toNat_eq ?_
    simp only [BitVec.toNat_sub, toNat_ofNat, h64]
    omega
  unfold readWindow
  simp only [bind, Except.bind, hread₁, hread₂]
  rw [hmbits, htrailing]
  rfl

theorem readDelta_spec (hw : w.Valid) (hwindow : d.HasWindow w) (hfits : w.Fits x) (hinv : d.br.Inv)
    (hrest : d.br.rest = windowBits w x ++ l) :
    ∃ br, d.readDelta = (if d.val ^^^ x = uvnan then .ok (false, { d with br := br, finished := true })
      else .ok (true, { d with br := br, val := d.val ^^^ x })) ∧ br.Inv ∧ br.rest = l := by
  have hlt := hw.lt
  have hsig : 0 < w.sigbits ∧ w.sigbits ≤ 64 := by
    rw [FloatWindow.sigbits]
    omega
  obtain ⟨r, hread, hinv', hrest'⟩ := BitReader.readBits_lowBits hinv hrest hsig.1 hsig.2
  rw [ofBits_lowBits hsig.2 fun i hi => hfits.getLsbD_ushiftRight hi] at hread
  refine ⟨r, ?_, hinv', hrest'⟩
  have hmbits : (64 - d.leading - d.trailing).toNat = w.sigbits := by
    have h64 : (64 : Word).toNat = 64 := rfl
    rw [hwindow.1, hwindow.2, FloatWindow.sigbits]
    simp only [BitVec.toNat_sub, toNat_ofNat, h64]
    omega
  have htrailing : d.trailing.toNat = w.trailing := by
    rw [hwindow.2, toNat_ofNat]
    omega
  unfold readDelta
  simp only [bind, Except.bind]
  rw [hmbits, hread]
  simp only
  rw [htrailing, hfits.shiftLeft_ushiftRight]
  rfl

theorem xor_xor_cancel (v y : Word) : y ^^^ (v ^^^ y) = v := by
  rw [BitVec.xor_comm v y, ← BitVec.xor_assoc, BitVec.xor_self, BitVec.zero_xor]

theorem readValue_of_delta (h : Reading d w (deltaBits w x ++ l)) (hx : x ≠ 0) :
    ∃ d', d.readValue = (if d.val ^^^ x = uvnan then .ok (false, { d' with finished := true })
      else .ok (true, { d' with val := d.val ^^^ x })) ∧ Reading d' (nextWindow w x) l := by
  have hrest := h.rest
  rw [deltaBits, if_neg hx] at hrest
  unfold readValue
  rw [nextWindow]
  by_cases hreuse : Reuses w x
  · rw [if_pos hreuse, cons_append, cons_append] at hrest
    obtain ⟨r₁, hbit₁, hinv₁, hrest₁⟩ := nextBit_spec h.inv hrest
    obtain ⟨r₂, hbit₂, hinv₂, hrest₂⟩ := nextBit_spec hinv₁ hrest₁
    obtain ⟨hw, hwindow⟩ := h.window hreuse.1
    obtain ⟨br, hdelta, hinv, hl⟩ := readDelta_spec (d := { d with br := r₂ }) hw hwindow hreuse.2 hinv₂ hrest₂
    refine ⟨{ d with br := br }, ?_, h.err, h.finished, h.first, hinv, hl, fun _ => ?_⟩
    · simp only [bind, Except.bind, hbit₁, hbit₂, if_true]
      exact hdelta
    · rw [if_pos (.inr hreuse)]
      exact ⟨hw, hwindow⟩
  · rw [if_neg hreuse, cons_append, cons_append, append_assoc, append_assoc] at hrest
    obtain ⟨r₁, hbit₁, hinv₁, hrest₁⟩ := nextBit_spec h.inv hrest
    obtain ⟨r₂, hbit₂, hinv₂, hrest₂⟩ := nextBit_spec hinv₁ hrest₁
    have hw := FloatWindow.ofWord_valid hx
    obtain ⟨r₃, hwindow, hinv₃, hrest₃⟩ := readWindow_spec (d := { d with br := r₂ }) hw hinv₂ hrest₂
    set d₁ : FloatDecoder := { d with
      leading := ofNat 64 (FloatWindow.ofWord x).leading
      trailing := ofNat 64 (FloatWindow.ofWord x).trailing }
    obtain ⟨br, hdelta, hinv, hl⟩ := readDelta_spec (d := { d₁ with br := r₃ }) hw ⟨rfl, rfl⟩ (FloatWindow.ofWord_fits x)
      hinv₃ hrest₃
    refine ⟨{ d₁ with br := br }, ?_, h.err, h.finished, h.first, hinv, hl, fun _ => ?_⟩
    · simp only [bind, Except.bind, hbit₁, hbit₂, if_true, hwindow]
      exact hdelta
    · rw [if_neg (not_or.mpr ⟨hx, hreuse⟩)]
      exact ⟨hw, rfl, rfl⟩

theorem next_of_reading {r : Bool × FloatDecoder} (h : Reading d w l) (hread : d.readValue = .ok r) : d.next = r := by
  rw [next, if_neg (by simp [h.err, h.finished]), if_neg (by simp [h.first])]
  simp only [hread]

theorem next_of_value (h : Reading d w (deltaBits w (v ^^^ d.val) ++ l)) (hv : v ≠ uvnan) :
    ∃ d', d.next = (true, d') ∧ d'.val = v ∧ Reading d' (nextWindow w (v ^^^ d.val)) l := by
  by_cases hx : v ^^^ d.val = 0
  · have hrest := h.rest
    rw [deltaBits, if_pos hx] at hrest
    obtain ⟨r, hbit, hinv, hl⟩ := nextBit_spec h.inv hrest
    refine ⟨{ d with br := r }, ?_, ?_, ⟨h.err, h.finished, h.first, hinv, hl, ?_⟩⟩
    · refine next_of_reading h ?_
      simp only [readValue, bind, Except.bind, hbit]
      rfl
    · exact (BitVec.xor_eq_zero_iff.mp hx).symm
    · rw [nextWindow, if_pos (.inl hx)]
      exact h.window
  · obtain ⟨d', hread, hreading⟩ := readValue_of_delta h hx
    rw [xor_xor_cancel, if_neg hv] at hread
    exact ⟨_, next_of_reading h hread, rfl, { hreading with }⟩

theorem next_of_uvnan (h : Reading d w (deltaBits w (uvnan ^^^ d.val) ++ l)) (hval : d.val ≠ uvnan) :
    ∃ d', d.next = (false, d') ∧ d'.err = none := by
  have hx : uvnan ^^^ d.val ≠ 0 := fun hx => hval (BitVec.xor_eq_zero_iff.mp hx).symm
  obtain ⟨d', hread, hreading⟩ := readValue_of_delta h hx
  rw [xor_xor_cancel, if_pos rfl] at hread
  exact ⟨_, next_of_reading h hread, hreading.err⟩

/-- **Values** behind the first one. -/
theorem Reading.collects (hvs : ∀ v ∈ vs, v ≠ uvnan) (hval : d.val ≠ uvnan)
    (h : Reading d w (streamBits w d.val (vs ++ [uvnan]) ++ l)) : ∃ d', Collects next read d vs d' ∧ d'.err = none := by
  induction vs generalizing d w with
  | nil =>
    rw [nil_append, streamBits, streamBits, append_nil] at h
    obtain ⟨d', hnext, herr⟩ := next_of_uvnan h hval
    exact ⟨d', collects_of_false hnext, herr⟩
  | cons v vs ih =>
    rw [cons_append, streamBits, append_assoc] at h
    obtain ⟨d₁, hnext, rfl, hreading⟩ := next_of_value h (hvs v mem_cons_self)
    obtain ⟨d', hrest, herr⟩ := ih (forall_mem_cons.mp hvs).2 (hvs _ mem_cons_self) hreading
    exact ⟨d', collects_of_true hnext (u := d₁) rfl hrest, herr⟩

theorem exists_encodedBits (vs : List Word) : ∃ (v : Word) (more : List Bool), encodedBits vs = toBits v ++ more := by
  cases vs with
  | nil => exact ⟨uvnan, [], (append_nil _).symm⟩
  | cons first rest => exact ⟨first, _, rfl⟩

/-- **The decoder** reads the values again. -/
theorem collects_encodedBytes (d : FloatDecoder) (hvs : ∀ v ∈ vs, v ≠ uvnan) :
    ∃ d₀ d', d.setBytes (encodedBytes vs) = (d₀, none) ∧ Collects next read d₀ vs d' ∧ d'.err = none := by
  obtain ⟨hinv, hrest⟩ := BitReader.reset_spec d.br ((encodedBytes vs).drop 1)
  rw [bytesToBits_encodedBytes] at hrest
  obtain ⟨v, more, hencoded⟩ := exists_encodedBits vs
  rw [padded, hencoded, append_assoc] at hrest
  obtain ⟨br, hread, hinv', hrest'⟩ := BitReader.readBits_spec hinv (k := 64) (by decide) le_rfl
    (by rw [hrest, length_append, length_toBits]; omega)
  rw [hrest, take_left' (length_toBits v), ofBits_toBits] at hread
  rw [hrest, drop_left' (length_toBits v)] at hrest'
  have hset : d.setBytes (encodedBytes vs) = (⟨v, 0, 0, br, true, false, none⟩, none) := by
    rw [setBytes, if_neg (by simp [encodedBytes])]
    simp only [hread]
  cases vs with
  | nil =>
    have hv : v = uvnan := toBits_injective (append_inj_left hencoded (by simp)).symm
    refine ⟨_, ⟨v, 0, 0, br, false, true, none⟩, hset, collects_of_false ?_, rfl⟩
    rw [next, if_neg (by simp), if_pos rfl]
    rw [if_pos hv]
  | cons first rest =>
    obtain ⟨hv, rfl⟩ := append_inj hencoded (by simp)
    obtain rfl := toBits_injective hv
    have hfirst : first ≠ uvnan := hvs first mem_cons_self
    have hreading : Reading ⟨first, 0, 0, br, false, false, none⟩ FloatWindow.none
        (streamBits FloatWindow.none first (rest ++ [uvnan]) ++ _) :=
      ⟨rfl, rfl, rfl, hinv', hrest', fun h => absurd rfl h⟩
    obtain ⟨d', hcollects, herr⟩ := hreading.collects (forall_mem_cons.mp hvs).2 hfirst
    refine ⟨_, d', hset, collects_of_true (t := ⟨first, 0, 0, br, false, false, none⟩) ?_ rfl hcollects, herr⟩
    rw [next, if_neg (by simp), if_pos rfl]
    rw [if_neg hfirst]

end FloatDecoder

end Influxdb.Tsm1
