import Influxdb.Lib.Except
import Influxdb.Tsm1.Block
import Influxdb.Tsm1.TimestampCodec

/-!
# PooledDecoders — decoders that are used again

What a block decodes to must not depend on the blocks its decoders have seen before.  For every kind of decoder a
relation says which states look alike: after `Init` and `SetBytes` of the same bytes any two time, float, integer
and string decoders do, so these blocks always decode as with new decoders.  `BooleanDecoder.SetBytes` keeps the
error of an earlier block, and for no bytes at all the position and the bits too; the main theorem says exactly
when that does not show.
-/

namespace Influxdb.Tsm1

open BooleanDecoder TimeDecoder List

/-! ## Time decoders -/

namespace TimeDecoder

/-- The same to a caller: the run length and the delta only count for run-length encoded timestamps. -/
structure Alike (d d' : TimeDecoder) : Prop where
  v : d.v = d'.v
  i : d.i = d'.i
  ts : d.ts = d'.ts
  err : d.err = d'.err
  encoding : d.encoding = d'.encoding
  run : d.err = none → d.encoding = timeCompressedRLE → d.n = d'.n ∧ d.rleDelta = d'.rleDelta

theorem Alike.next {d d' : TimeDecoder} (h : d.Alike d') : d.next.1 = d'.next.1 ∧ d.next.2.Alike d'.next.2 := by
  obtain ⟨v, i, n, ts, dec, err, rleDelta, encoding⟩ := d
  obtain ⟨v', i', n', ts', dec', err', rleDelta', encoding'⟩ := d'
  obtain ⟨hv, hi, hts, herr, henc, hrun⟩ := h
  subst hv hi hts herr henc
  unfold TimeDecoder.next
  by_cases he : err = none
  · by_cases hr : encoding = timeCompressedRLE
    · obtain ⟨rfl, rfl⟩ := hrun he hr
      simp only [he, hr, ne_eq, not_true_eq_false, if_false, if_true]
      split_ifs
      · exact ⟨rfl, rfl, rfl, rfl, rfl, rfl, fun _ _ => ⟨rfl, rfl⟩⟩
      · exact ⟨rfl, rfl, rfl, rfl, rfl, rfl, fun _ _ => ⟨rfl, rfl⟩⟩
    · simp only [he, hr, ne_eq, not_true_eq_false, if_false]
      split_ifs
      · exact ⟨rfl, rfl, rfl, rfl, rfl, rfl, fun _ h => absurd h hr⟩
      · exact ⟨rfl, rfl, rfl, rfl, rfl, rfl, fun _ h => absurd h hr⟩
  · simp only [he, ne_eq, not_false_eq_true, if_true]
    exact ⟨trivial, rfl, rfl, rfl, rfl, rfl, fun h => absurd h he⟩

theorem init_alike (d d' : TimeDecoder) {b : List Byte} (hb : b.length ≠ 0) : (d.init b).Alike (d'.init b) := by
  rw [init_eq d hb, init_eq d' hb]
  unfold switchEncoding
  split_ifs with h0 h1 h2
  · exact ⟨rfl, rfl, rfl, rfl, rfl, fun _ h => absurd (h0.symm.trans h) (by decide)⟩
  · by_cases hlen : b.length < 9
    · rw [decodePacked, decodePacked, if_pos hlen, if_pos hlen]
      exact ⟨rfl, rfl, rfl, rfl, rfl, by simp⟩
    · obtain ⟨dec, hdec⟩ := (d.start (b.headD 0 >>> 4)).decodePacked_eq hlen
      obtain ⟨dec', hdec'⟩ := (d'.start (b.headD 0 >>> 4)).decodePacked_eq hlen
      rw [hdec, hdec']
      exact ⟨rfl, rfl, rfl, rfl, rfl, fun _ h => absurd (h1.symm.trans h) (by decide)⟩
  · unfold decodeRLE
    dsimp only
    split_ifs
    -- the first three are errors
    iterate 3 exact ⟨rfl, rfl, rfl, rfl, rfl, by simp⟩
    exact ⟨rfl, rfl, rfl, rfl, rfl, fun _ _ => ⟨rfl, rfl⟩⟩
  · exact ⟨rfl, rfl, rfl, rfl, rfl, by simp⟩

theorem init_nil_err (d : TimeDecoder) : (d.init []).err = none := rfl

end TimeDecoder

/-! ## A block with any decoders -/

section Blocks

variable {D V : Type*} {c : ValueDecoder D V} {R : D → D → Prop} {tdec tdec' : TimeDecoder} {vdec vdec' : D}
  {tb vb : List Byte} {sz : ℕ} {typ : Byte} {block : List Byte}

theorem decodePairs_alike (hv : Simulation c.next c.read R) (n : ℕ) (ht : tdec.Alike tdec') (hr : R vdec vdec') :
    (decodePairs c n tdec vdec).1 = (decodePairs c n tdec' vdec').1 ∧
      (decodePairs c n tdec vdec).2.1.Alike (decodePairs c n tdec' vdec').2.1 ∧
      R (decodePairs c n tdec vdec).2.2 (decodePairs c n tdec' vdec').2.2 := by
  induction n generalizing tdec tdec' vdec vdec' with
  | zero => exact ⟨rfl, ht, hr⟩
  | succ n ih =>
    obtain ⟨htn, hta⟩ := ht.next
    have hvn := hv.next_eq hr
    have hva := hv.next_rel hr
    have hread := hv.read_eq hr
    have hrest := hv.read_rel hr
    rcases h1 : tdec.next with ⟨b, t⟩
    rcases h2 : tdec'.next with ⟨b', t'⟩
    rcases h3 : c.next vdec with ⟨a, d⟩
    rcases h4 : c.next vdec' with ⟨a', d'⟩
    rw [h1, h2] at htn hta
    rw [h3, h4] at hvn hva hread hrest
    subst htn hvn
    rw [decodePairs, decodePairs, h1, h2]
    cases b with
    | false => exact ⟨rfl, hta, hr⟩
    | true =>
      simp only [h3, h4]
      cases a with
      | false => exact ⟨rfl, hta, hva⟩
      | true =>
        obtain ⟨hl, hrel⟩ := ih hta (hrest rfl)
        refine ⟨?_, hrel⟩
        show (t.v, _) :: _ = (t'.v, _) :: _
        rw [hta.v, hread rfl]
        exact congrArg _ hl

/-- `SetBytes` of the same bytes gives the same error, and else decoders that look alike. -/
structure ValueDecoder.Reusable (c : ValueDecoder D V) (R : D → D → Prop) : Prop where
  simulation : Simulation c.next c.read R
  error : ∀ {d d'}, R d d' → c.error d = c.error d'
  setBytes_eq : ∀ d d' b, (c.setBytes d b).2 = (c.setBytes d' b).2
  setBytes_rel : ∀ d d' b, (c.setBytes d b).2 = none → R (c.setBytes d b).1 (c.setBytes d' b).1

theorem openBlock_nil (h : openBlock typ block = .ok ([], vb, sz)) : sz = 0 := by
  unfold openBlock at h
  split_ifs at h
  obtain ⟨⟨tb, vb'⟩, -, h⟩ := bind_eq_ok h
  obtain ⟨m, hc, h⟩ := bind_eq_ok h
  split_ifs at h
  cases h
  cases hc
  rfl

theorem decodeBytes_alike (hsz : tb = [] → sz = 0) (hv : Simulation c.next c.read R)
    (herror : ∀ {d d'}, R d d' → c.error d = c.error d') (heq : (c.setBytes vdec vb).2 = (c.setBytes vdec' vb).2)
    (hrel : (c.setBytes vdec vb).2 = none → R (c.setBytes vdec vb).1 (c.setBytes vdec' vb).1) :
    (decodeBytes c tb vb sz tdec vdec).1 = (decodeBytes c tb vb sz tdec' vdec').1 := by
  unfold decodeBytes
  rcases h1 : c.setBytes vdec vb with ⟨d, err⟩
  rcases h2 : c.setBytes vdec' vb with ⟨d', err'⟩
  rw [h1, h2] at heq hrel
  subst heq
  cases err with
  | some err => rfl
  | none =>
    simp only
    by_cases htb : tb = []
    · obtain rfl := hsz htb
      subst htb
      rw [decodePairs, decodePairs]
      simp only [init_nil_err, ne_eq, not_true_eq_false, if_false, herror (hrel rfl)]
    · have ht := init_alike tdec tdec' (mt length_eq_zero_iff.mp htb)
      obtain ⟨hl, hta, hr⟩ := decodePairs_alike hv sz ht (hrel rfl)
      rw [hl, hta.err, herror hr]

theorem ValueDecoder.Reusable.decodeTypedBlock_eq (h : c.Reusable R) (typ : Byte) (block : List Byte)
    (tdec tdec' : TimeDecoder) (vdec vdec' : D) :
    (decodeTypedBlock c typ block tdec vdec).1 = (decodeTypedBlock c typ block tdec' vdec').1 := by
  unfold decodeTypedBlock
  rcases ho : openBlock typ block with err | ⟨tb, vb, sz⟩
  · rfl
  · refine decodeBytes_alike ?_ h.simulation h.error (h.setBytes_eq _ _ _) (h.setBytes_rel _ _ _)
    rintro rfl
    exact openBlock_nil ho

end Blocks

/-! ## Float, integer and string decoders -/

theorem simulation_eq {α σ : Type*} (next : σ → Bool × σ) (read : σ → α × σ) : Simulation next read Eq where
  next_eq h := by rw [h]
  next_rel h := by rw [h]
  read_eq h _ := by rw [h]
  read_rel h _ := by rw [h]

variable (decompress : List Byte → Except String (List Byte))

theorem stringDecoder_reusable : (stringDecoder decompress).Reusable Eq where
  simulation := simulation_eq _ _
  error h := by rw [h]
  setBytes_eq d d' b := by
    simp only [stringDecoder, StringDecoder.setBytes]
    split_ifs
    · rfl
    · cases decompress (b.drop 1) <;> rfl
  setBytes_rel d d' b h := by
    simp only [stringDecoder, StringDecoder.setBytes] at h ⊢
    split_ifs at h ⊢ with hb
    · rfl
    · cases hd : decompress (b.drop 1) with
      | error err =>
        rw [hd] at h
        nomatch h
      | ok data => rfl

/-- The same but for the reader of a decoder that has no values. -/
def FloatDecoder.Alike (d d' : FloatDecoder) : Prop :=
  d = d' ∨ (∃ br, d' = { d with br := br }) ∧ (d.finished = true ∨ d.first = true ∧ d.val = uvnan)

theorem FloatDecoder.Alike.next {d d' : FloatDecoder} (h : d.Alike d') :
    d.next.1 = d'.next.1 ∧ d.next.2.Alike d'.next.2 ∧ (d.next.1 = true → d.next = d'.next) := by
  rcases h with rfl | ⟨⟨br, rfl⟩, h⟩
  · exact ⟨rfl, .inl rfl, fun _ => rfl⟩
  · unfold FloatDecoder.next
    dsimp only
    split_ifs with h1 h2 h3
    · exact ⟨rfl, .inr ⟨⟨br, rfl⟩, h⟩, fun h => nomatch h⟩
    · exact ⟨rfl, .inr ⟨⟨br, rfl⟩, .inl rfl⟩, fun h => nomatch h⟩
    · exact absurd h (by simp_all)
    · exact absurd h (by simp_all)

theorem floatDecoder_reusable : floatDecoder.Reusable FloatDecoder.Alike where
  simulation :=
    { next_eq := fun h => h.next.1
      next_rel := fun h => h.next.2.1
      read_eq := fun h htrue => by rw [show floatDecoder.next _ = _ from h.next.2.2 htrue]; rfl
      read_rel := fun h htrue => by rw [show floatDecoder.next _ = _ from h.next.2.2 htrue]; exact .inl rfl }
  error h := by
    rcases h with rfl | ⟨⟨br, rfl⟩, -⟩
    · rfl
    · rfl
  setBytes_eq d d' b := by
    simp only [floatDecoder, FloatDecoder.setBytes]
    split_ifs
    · rfl
    · have hreset : d.br.reset (b.drop 1) = d'.br.reset (b.drop 1) := rfl
      rw [hreset]
      cases (d'.br.reset (b.drop 1)).readBits 64 <;> rfl
  setBytes_rel d d' b h := by
    simp only [floatDecoder, FloatDecoder.setBytes] at h ⊢
    split_ifs at h ⊢ with hb
    · exact .inr ⟨⟨_, rfl⟩, .inr ⟨rfl, rfl⟩⟩
    · have hreset : d.br.reset (b.drop 1) = d'.br.reset (b.drop 1) := rfl
      rw [hreset] at h ⊢
      cases hr : (d'.br.reset (b.drop 1)).readBits 64 with
      | error err =>
        rw [hr] at h
        nomatch h
      | ok r => exact .inl rfl

namespace IntegerDecoder

variable {d d' : IntegerDecoder}

/-- The same but for values behind those of the current word. -/
structure Alike (d d' : IntegerDecoder) : Prop where
  fields : ∃ vs, d' = { d with values := vs }
  pos : 0 ≤ d.i
  values : d.encoding = intCompressedRLE ∨ ∀ j : ℕ, (j : Int) < d.n → d.values.getD j 0 = d'.values.getD j 0

theorem fetch_alike (d : IntegerDecoder) (values vs : List Word) :
    (d.fetch vs).Alike ({ d with values := values }.fetch vs) := by
  refine ⟨⟨_, rfl⟩, le_rfl, .inr fun j hj => ?_⟩
  have hlt : j < vs.length := by simpa [fetch] using hj
  simp only [fetch]
  rw [List.getD_append _ _ _ _ hlt, List.getD_append _ _ _ _ hlt]

theorem Alike.decodeMore (h : d.Alike d') : d.decodeMore.Alike d'.decodeMore := by
  obtain ⟨⟨vs, rfl⟩, hpos, hvalues⟩ := h
  unfold IntegerDecoder.decodeMore switchEncoding
  split_ifs with h0 h1 h2
  · unfold decodeUncompressed
    split_ifs
    iterate 2 exact ⟨⟨_, rfl⟩, hpos, hvalues⟩
    exact fetch_alike _ _ _
  · unfold decodePacked
    split_ifs
    iterate 2 exact ⟨⟨_, rfl⟩, hpos, hvalues⟩
    all_goals exact fetch_alike _ _ _
  · unfold decodeRLE
    dsimp only
    split_ifs
    iterate 4 exact ⟨⟨_, rfl⟩, hpos, hvalues⟩
    exact ⟨⟨_, rfl⟩, le_rfl, .inl h2⟩
  · exact ⟨⟨_, rfl⟩, hpos, hvalues⟩

theorem Alike.advance (h : d.Alike d') : { d with i := d.i + 1 }.Alike { d' with i := d'.i + 1 } := by
  obtain ⟨⟨vs, rfl⟩, hpos, hvalues⟩ := h
  exact ⟨⟨_, rfl⟩, by simp only; omega, hvalues⟩

theorem Alike.next (h : d.Alike d') : d.next.1 = d'.next.1 ∧ d.next.2.Alike d'.next.2 := by
  have hmore := h.advance.decodeMore
  obtain ⟨⟨vs, rfl⟩, hpos, hvalues⟩ := id h
  unfold IntegerDecoder.next
  dsimp only at hmore ⊢
  split_ifs with hend hword
  · exact ⟨rfl, h⟩
  · obtain ⟨vs', hfields⟩ := hmore.fields
    refine ⟨?_, hmore⟩
    rw [hfields]
  · exact ⟨rfl, h.advance⟩

theorem next_lt {d : IntegerDecoder} (h : d.next.1 = true) : d.next.2.i < d.next.2.n := by
  unfold IntegerDecoder.next at h ⊢
  by_cases hend : d.i ≥ d.n ∧ d.bytes.length = 0
  · rw [if_pos hend] at h
    nomatch h
  · rw [if_neg hend] at h ⊢
    exact of_decide_eq_true (Bool.and_eq_true_iff.mp h).2

theorem Alike.read (h : d.Alike d') (hlt : d.i < d.n) : d.read.1 = d'.read.1 ∧ d.read.2.Alike d'.read.2 := by
  obtain ⟨⟨vs, rfl⟩, hpos, hvalues⟩ := h
  unfold IntegerDecoder.read
  split_ifs with hr
  · exact ⟨rfl, ⟨_, rfl⟩, hpos, hvalues⟩
  · rw [hvalues.resolve_left hr d.i.toNat (by omega)]
    exact ⟨rfl, ⟨_, rfl⟩, hpos, hvalues⟩

end IntegerDecoder

theorem integerDecoder_reusable : integerDecoder.Reusable IntegerDecoder.Alike where
  simulation :=
    { next_eq := fun h => h.next.1
      next_rel := fun h => h.next.2
      read_eq := fun h htrue => (h.next.2.read (IntegerDecoder.next_lt htrue)).1
      read_rel := fun h htrue => (h.next.2.read (IntegerDecoder.next_lt htrue)).2 }
  error h := by
    obtain ⟨vs, rfl⟩ := h.fields
    rfl
  setBytes_eq _ _ _ := rfl
  setBytes_rel _ _ _ _ := ⟨⟨_, rfl⟩, le_rfl, .inr fun j hj => absurd hj (by simp [integerDecoder, IntegerDecoder.setBytes])⟩

/-! ## Boolean decoders -/

/-- The count of the booleans cannot be read. -/
def MalformedCount (vb : List Byte) : Prop := vb ≠ [] ∧ (uvarint (vb.drop 1)).2 ≤ 0

namespace BooleanDecoder

variable {e : BooleanDecoder} {vb : List Byte}

theorem setBytes_malformed (h : MalformedCount vb) :
    e.setBytes vb = { e with err := some "BooleanDecoder: invalid count" } := by
  unfold setBytes
  rw [if_neg (mt length_eq_zero_iff.mp h.1)]
  exact if_pos h.2

theorem setBytes_err (h : ¬ MalformedCount vb) : (e.setBytes vb).err = e.err := by
  unfold setBytes
  by_cases hvb : vb = []
  · rw [if_pos (length_eq_zero_iff.mpr hvb)]
  · rw [if_neg (mt length_eq_zero_iff.mp hvb)]
    simp only
    rw [if_neg (fun hn => h ⟨hvb, hn⟩)]

theorem setBytes_eq_zero (hvb : vb ≠ []) (h : ¬ MalformedCount vb) (he : e.err = none) :
    e.setBytes vb = zero.setBytes vb := by
  obtain ⟨b, i, n, err⟩ := e
  subst he
  unfold setBytes
  rw [if_neg (mt length_eq_zero_iff.mp hvb), if_neg (mt length_eq_zero_iff.mp hvb)]
  simp only
  rw [if_neg (fun hn => h ⟨hvb, hn⟩), if_neg (fun hn => h ⟨hvb, hn⟩)]
  rfl

theorem next_err : e.next.2.err = e.err := by
  unfold next
  split_ifs <;> rfl

theorem next_true_iff : e.next.1 = true ↔ e.err = none ∧ e.i + 1 < e.n := by
  unfold next
  split_ifs with h
  · exact ⟨fun hn => hn.elim, fun hn => absurd hn.1 h⟩
  · exact ⟨fun hn => ⟨not_not.mp h, of_decide_eq_true hn⟩, fun hn => decide_eq_true hn.2⟩

end BooleanDecoder

section Booleans

variable {D V : Type*} (c : ValueDecoder D V) (tdec tdec' : TimeDecoder) (vdec : D) (e : BooleanDecoder)
  {tb vb : List Byte} {sz : ℕ}

theorem decodePairs_nil_iff (n : ℕ) :
    (decodePairs c n tdec vdec).1 = [] ↔ ¬ ((0 < n ∧ tdec.next.1 = true) ∧ (c.next vdec).1 = true) := by
  cases n with
  | zero => exact ⟨fun _ h => absurd h.1.1 (lt_irrefl 0), fun _ => rfl⟩
  | succ n =>
    rw [decodePairs]
    rcases tdec.next with ⟨_ | _, t⟩
    · simp
    · rcases c.next vdec with ⟨_ | _, d⟩
      · simp
      · simp

theorem TimeDecoder.next_err : tdec.next.2.err = tdec.err := by
  unfold next
  split_ifs <;> rfl

theorem decodePairs_boolean_err (n : ℕ) : (decodePairs booleanDecoder n tdec e).2.1.err = tdec.err ∧
    (decodePairs booleanDecoder n tdec e).2.2.err = e.err := by
  induction n generalizing tdec e with
  | zero => exact ⟨rfl, rfl⟩
  | succ n ih =>
    have htime := tdec.next_err
    have herr : (booleanDecoder.next e).2.err = e.err := next_err
    rw [decodePairs]
    generalize tdec.next = r at htime ⊢
    generalize booleanDecoder.next e = q at herr ⊢
    rcases r with ⟨_ | _, t⟩
    · exact ⟨htime, rfl⟩
    · rcases q with ⟨_ | _, d⟩
      · exact ⟨htime, herr⟩
      · exact (ih _ _).imp (·.trans htime) (·.trans herr)

theorem decodeBytes_boolean : (decodeBytes booleanDecoder tb vb sz tdec e).1 =
    ((decodePairs booleanDecoder sz (tdec.init tb) (e.setBytes vb)).1,
      if (tdec.init tb).err ≠ none then (tdec.init tb).err else (e.setBytes vb).err) := by
  obtain ⟨htime, herr⟩ := decodePairs_boolean_err (tdec.init tb) (e.setBytes vb) sz
  rw [← htime, ← herr]
  rfl

/-- There is a timestamp to read a value for. -/
def HasTimestamp (tb : List Byte) (sz : ℕ) : Prop := 0 < sz ∧ (TimeDecoder.zero.init tb).next.1 = true

theorem init_err_eq : (tdec.init tb).err = (tdec'.init tb).err := by
  by_cases htb : tb = []
  · subst htb
    rfl
  · exact (init_alike tdec tdec' (mt length_eq_zero_iff.mp htb)).err

theorem hasTimestamp_iff (hsz : tb = [] → sz = 0) : (0 < sz ∧ (tdec.init tb).next.1 = true) ↔ HasTimestamp tb sz := by
  by_cases htb : tb = []
  · obtain rfl := hsz htb
    exact ⟨fun h => absurd h.1 (lt_irrefl 0), fun h => absurd h.1 (lt_irrefl 0)⟩
  · have h := (init_alike tdec .zero (mt length_eq_zero_iff.mp htb)).next.1
    rw [HasTimestamp, h]

/-- What the decoder `e` kept does not show in a block of booleans. -/
def BooleanDecoder.Hidden (e : BooleanDecoder) (tb vb : List Byte) (sz : ℕ) : Prop :=
  (TimeDecoder.zero.init tb).err ≠ none ∨ MalformedCount vb ∨
    e.err = none ∧ (vb ≠ [] ∨ ¬ HasTimestamp tb sz ∨ e.n ≤ e.i + 1)

variable {e}

theorem decodeBytes_boolean_of_hidden (hsz : tb = [] → sz = 0) (h : e.Hidden tb vb sz) :
    (decodeBytes booleanDecoder tb vb sz tdec e).1 = (decodeBytes booleanDecoder tb vb sz tdec' .zero).1 := by
  -- with the same error, no values on either side are the same
  have hnil : (tdec.init tb).err ≠ none ∨ (e.setBytes vb).err = (zero.setBytes vb).err →
      ¬ (HasTimestamp tb sz ∧ (e.setBytes vb).next.1 = true) →
      ¬ (HasTimestamp tb sz ∧ (zero.setBytes vb).next.1 = true) →
      (decodeBytes booleanDecoder tb vb sz tdec e).1 = (decodeBytes booleanDecoder tb vb sz tdec' .zero).1 := by
    intro herr h1 h2
    rw [← hasTimestamp_iff tdec hsz] at h1
    rw [← hasTimestamp_iff tdec' hsz] at h2
    rw [decodeBytes_boolean, decodeBytes_boolean, (decodePairs_nil_iff _ _ _ _).mpr h1,
      (decodePairs_nil_iff _ _ _ _).mpr h2, init_err_eq tdec' tdec]
    rcases herr with herr | herr
    · rw [if_pos herr, if_pos herr]
    · rw [herr]
  rcases h with herr | h
  · have hno : ¬ HasTimestamp tb sz := by
      rintro ⟨-, hnext⟩
      rw [TimeDecoder.next, if_pos herr] at hnext
      cases hnext
    refine hnil (.inl ?_) (fun h => hno h.1) (fun h => hno h.1)
    rwa [init_err_eq tdec .zero]
  · by_cases hmal : MalformedCount vb
    · have hno : ∀ d : BooleanDecoder, ¬ (HasTimestamp tb sz ∧ (d.setBytes vb).next.1 = true) := by
        intro d
        rw [next_true_iff, setBytes_malformed hmal]
        rintro ⟨-, h, -⟩
        cases h
      refine hnil (.inr ?_) (hno e) (hno .zero)
      rw [setBytes_malformed hmal, setBytes_malformed hmal]
    · obtain ⟨he, hrest⟩ := h.resolve_left hmal
      by_cases hvb : vb = []
      · subst hvb
        have hquiet := hrest.resolve_left (fun h => h rfl)
        refine hnil (.inr he) ?_ ?_
        · rw [next_true_iff]
          rintro ⟨htime, -, hlt⟩
          rcases hquiet with hquiet | hquiet
          · exact hquiet htime
          · exact absurd hlt (not_lt.mpr hquiet)
        · rw [next_true_iff]
          exact fun h => absurd h.2.2 (by decide)
      · refine decodeBytes_alike hsz (simulation_eq _ _) (fun h => by rw [h]) rfl fun _ => ?_
        exact setBytes_eq_zero hvb hmal he

theorem decodeBytes_boolean_of_not_hidden (hsz : tb = [] → sz = 0) (h : ¬ e.Hidden tb vb sz) :
    (decodeBytes booleanDecoder tb vb sz tdec e).1 ≠ (decodeBytes booleanDecoder tb vb sz tdec' .zero).1 := by
  simp only [BooleanDecoder.Hidden, not_or, not_not] at h
  obtain ⟨hterr, hmal, hkept⟩ := h
  intro heq
  rw [decodeBytes_boolean, decodeBytes_boolean, init_err_eq tdec .zero, init_err_eq tdec' .zero, hterr,
    if_neg (fun h => h rfl), if_neg (fun h => h rfl), setBytes_err hmal,
    setBytes_err hmal] at heq
  obtain ⟨hvals, herr⟩ := Prod.mk.inj heq
  have hvb : vb = [] ∧ HasTimestamp tb sz ∧ e.i + 1 < e.n := by
    by_contra hno
    refine hkept ⟨herr, ?_⟩
    by_contra hall
    simp only [not_or, not_not, not_le] at hall
    exact hno hall
  obtain ⟨rfl, htime, hlt⟩ := hvb
  -- a new decoder has no values, but `e` has some left
  have hzero : (decodePairs booleanDecoder sz (tdec'.init tb) (zero.setBytes [])).1 = [] := by
    rw [decodePairs_nil_iff]
    exact fun h => absurd (next_true_iff.mp h.2).2 (by decide)
  rw [hzero, decodePairs_nil_iff, hasTimestamp_iff tdec hsz] at hvals
  exact hvals ⟨htime, next_true_iff.mpr ⟨herr, hlt⟩⟩

end Booleans

/-! ## Blocks one after the other -/

/-- A block of booleans with a count that cannot be read: its decoder has an error from then on. -/
def Poisons (block : List Byte) : Prop :=
  ∃ tb vb sz, openBlock blockBoolean block = .ok (tb, vb, sz) ∧ MalformedCount vb

section Runs

variable {decompress : List Byte → Except String (List Byte)} {block : List Byte} {tb vb : List Byte} {sz : ℕ}

theorem Decoded.of_injective {V : Type*} {f : V → Value} (hf : Function.Injective f) :
    Function.Injective (Decoded.of f) := by
  intro r r' h
  have hpair : Function.Injective fun p : Word × V => (p.1, f p.2) := by
    intro p p' hp
    exact Prod.ext (Prod.mk.inj hp).1 (hf (Prod.mk.inj hp).2)
  exact Prod.ext (hpair.list_map (Prod.mk.inj h).1) (Prod.mk.inj h).2

theorem openBlock_head {typ : Byte} (h : openBlock typ block = .ok (tb, vb, sz)) :
    block.headD 0 = typ ∧ ¬ block.length ≤ 1 := by
  unfold openBlock at h
  split_ifs at h with h0 h1
  refine ⟨not_not.mp h1, fun hlen => ?_⟩
  rw [drop_eq_nil_of_le hlen] at h
  nomatch h

theorem decodeBlock_boolean (h : openBlock blockBoolean block = .ok (tb, vb, sz)) (pool : Decoders) :
    decodeBlock decompress pool block =
      (Decoded.of .boolean (decodeBytes booleanDecoder tb vb sz pool.time pool.boolean).1, { pool with
          time := (decodeBytes booleanDecoder tb vb sz pool.time pool.boolean).2.1
          boolean := (decodeBytes booleanDecoder tb vb sz pool.time pool.boolean).2.2 }) := by
  obtain ⟨hhead, hlen⟩ := openBlock_head h
  rw [decodeBlock, if_neg hlen, hhead, if_neg (by decide), if_neg (by decide), if_neg (by decide), if_pos rfl,
    decodeBooleanBlock, decodeTypedBlock, h]

/-- A block that does not open as one of booleans leaves the boolean decoder alone, and its values and error
depend on the decoders no more. -/
theorem decodeBlock_other {err : String} (h : openBlock blockBoolean block = .error err) (pool : Decoders) :
    (decodeBlock decompress pool block).1 = (decodeBlock decompress .zero block).1 ∧
      (decodeBlock decompress pool block).2.boolean = pool.boolean := by
  unfold decodeBlock
  split_ifs
  · exact ⟨rfl, rfl⟩
  · exact ⟨congrArg (Decoded.of .float) (floatDecoder_reusable.decodeTypedBlock_eq ..), rfl⟩
  · exact ⟨congrArg (Decoded.of .integer) (integerDecoder_reusable.decodeTypedBlock_eq ..), rfl⟩
  · exact ⟨congrArg (Decoded.of .unsigned) (integerDecoder_reusable.decodeTypedBlock_eq ..), rfl⟩
  · rw [decodeBooleanBlock, decodeTypedBlock, decodeTypedBlock, h]
    exact ⟨rfl, rfl⟩
  · exact ⟨congrArg (Decoded.of .string) ((stringDecoder_reusable decompress).decodeTypedBlock_eq ..), rfl⟩
  · exact ⟨rfl, rfl⟩

theorem decodeBlock_boolean_err (pool : Decoders) (block : List Byte) :
    (decodeBlock decompress pool block).2.boolean.err = none ↔ pool.boolean.err = none ∧ ¬ Poisons block := by
  rcases hopen : openBlock blockBoolean block with err | ⟨tb, vb, sz⟩
  · rw [(decodeBlock_other hopen pool).2]
    refine ⟨fun h => ⟨h, ?_⟩, fun h => h.1⟩
    rintro ⟨tb, vb, sz, hr, -⟩
    cases hopen.symm.trans hr
  · have hpoisons : Poisons block ↔ MalformedCount vb := by
      constructor
      · rintro ⟨tb', vb', sz', hopen', hmal⟩
        rw [hopen] at hopen'
        cases hopen'
        exact hmal
      · exact fun hmal => ⟨tb, vb, sz, hopen, hmal⟩
    have herr : (decodeBytes booleanDecoder tb vb sz pool.time pool.boolean).2.2.err =
        (pool.boolean.setBytes vb).err := (decodePairs_boolean_err ..).2
    rw [decodeBlock_boolean hopen, hpoisons]
    rw [herr]
    by_cases hmal : MalformedCount vb
    · rw [setBytes_malformed hmal]
      exact ⟨fun h => (nomatch h), fun h => absurd hmal h.2⟩
    · rw [setBytes_err hmal]
      exact ⟨fun h => ⟨h, hmal⟩, fun h => h.1⟩

theorem decodeBlocks_boolean_err (decompress : List Byte → Except String (List Byte)) (blocks : List (List Byte))
    (pool : Decoders) : (decodeBlocks decompress pool blocks).boolean.err = none ↔
      pool.boolean.err = none ∧ ∀ block ∈ blocks, ¬ Poisons block := by
  induction blocks generalizing pool with
  | nil => exact ⟨fun h => ⟨h, fun _ h => nomatch h⟩, fun h => h.1⟩
  | cons block blocks ih =>
    show (decodeBlocks decompress (decodeBlock decompress pool block).2 blocks).boolean.err = none ↔ _
    rw [ih, decodeBlock_boolean_err, forall_mem_cons, and_assoc]

end Runs

/-- **Pooled decoders.** After any blocks the next one gives the values and the error it gives with new decoders,
exactly if it is no block of booleans, its timestamps have an error, its own count cannot be read, or no block
before had a count that could not be read and the decoder has no boolean left where the block has no bytes for
its values. -/
theorem decodeBlock_pooled_iff (blocks : List (List Byte)) (block : List Byte) :
    (decodeBlock decompress (decodeBlocks decompress .zero blocks) block).1 = (decodeBlock decompress .zero block).1 ↔
      ∀ tb vb sz, openBlock blockBoolean block = .ok (tb, vb, sz) →
        (TimeDecoder.zero.init tb).err ≠ none ∨ MalformedCount vb ∨
          (∀ b ∈ blocks, ¬ Poisons b) ∧ (vb ≠ [] ∨ ¬ HasTimestamp tb sz ∨
            (decodeBlocks decompress .zero blocks).boolean.n ≤
              (decodeBlocks decompress .zero blocks).boolean.i + 1) := by
  rcases hopen : openBlock blockBoolean block with err | ⟨tb, vb, sz⟩
  · exact ⟨fun _ _ _ _ h => (nomatch h), fun _ => (decodeBlock_other hopen _).1⟩
  · have hsz : tb = [] → sz = 0 := by
      rintro rfl
      exact openBlock_nil hopen
    have herr := (decodeBlocks_boolean_err decompress blocks .zero).trans (and_iff_right rfl)
    have hinj : Function.Injective (Decoded.of Value.boolean) := Decoded.of_injective fun _ _ h => by cases h; rfl
    rw [decodeBlock_boolean hopen, decodeBlock_boolean hopen]
    simp only [hinj.eq_iff]
    rw [← herr]
    constructor
    · rintro heq tb vb sz ⟨⟩
      by_contra hnot
      exact decodeBytes_boolean_of_not_hidden _ _ hsz hnot heq
    · intro h
      exact decodeBytes_boolean_of_hidden _ _ hsz (h tb vb sz rfl)

/-- A block of one boolean with a truncated count, and a good one behind it. -/
theorem decodeBlock_poisoned : (decodeBlock .ok (decodeBlocks .ok .zero [[2, 9, 0, 0, 0, 0, 0, 0, 0, 0, 1, 16, 128]])
        [2, 9, 0, 0, 0, 0, 0, 0, 0, 0, 1, 16, 1, 128]).1 = ([], some "BooleanDecoder: invalid count") ∧
      (decodeBlock .ok .zero [2, 9, 0, 0, 0, 0, 0, 0, 0, 0, 1, 16, 1, 128]).1 = ([(1, .boolean true)], none) := by
  constructor
  · rfl
  · rfl

end Influxdb.Tsm1
