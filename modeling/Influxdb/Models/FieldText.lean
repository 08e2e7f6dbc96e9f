import Influxdb.Models.NoPanic
import Influxdb.Models.NumberText

/-!
# FieldText — the field section of a line

The field section is cut into fields twice: by `scanFields`, which reads it in pairs of a backslash and a byte, and by
`FieldIterator`, which looks one byte back in keys and knows only two escapes in values.  On a clean section, fields
separated by commas with keys and values that both read alike, they agree.
-/

namespace Influxdb.Models

open List FieldScan

variable {st st' fin : FieldScan} {w x y z : List Byte} {n : ℕ} {f : RawField} {c : Byte} {v r tail : List Byte}

/-! ## Runs of `scanFields` -/

/-- The loop of `scanFields` goes from one state to its end. -/
def Runs (st fin : FieldScan) : Prop := ∃ n, scanFieldsLoop n st = .ok fin

theorem runs_iff_of_step (h : scanFieldsStep st = .ok (some st')) : Runs st fin ↔ Runs st' fin := by
  constructor
  · rintro ⟨n, hn⟩
    cases n with
    | zero => cases hn
    | succ n =>
      rw [scanFieldsLoop_succ, h] at hn
      exact ⟨n, hn⟩
  · rintro ⟨n, hn⟩
    refine ⟨n + 1, ?_⟩
    rw [scanFieldsLoop_succ, h]
    exact hn

theorem Runs.cases (h : Runs st fin) :
    (scanFieldsStep st = .ok none ∧ fin = st) ∨ ∃ st', scanFieldsStep st = .ok (some st') ∧ Runs st' fin := by
  obtain ⟨n, hn⟩ := h
  cases n with
  | zero => cases hn
  | succ n =>
    rw [scanFieldsLoop_succ] at hn
    rcases hstep : scanFieldsStep st with e | (_ | st') <;> rw [hstep] at hn
    · cases hn
    · exact .inl ⟨rfl, (Except.ok.inj hn).symm⟩
    · exact .inr ⟨st', rfl, n, hn⟩

theorem Runs.final (h : Runs st fin) : ∀ c, fin.rest.head? = some c → c = space := by
  obtain ⟨n, hn⟩ := h
  induction n generalizing st with
  | zero => cases hn
  | succ n ih =>
    rcases (show Runs st fin from ⟨n + 1, hn⟩).cases with ⟨hnone, rfl⟩ | ⟨st', hstep, -⟩
    · exact scanFieldsStep_none hnone
    · rw [scanFieldsLoop_succ, hstep] at hn
      exact ih hn

theorem Runs.back (h : Runs st fin) :
    st.back.length ≤ fin.back.length ∧ fin.back.reverse ++ fin.rest = st.back.reverse ++ st.rest := by
  obtain ⟨n, hn⟩ := h
  exact scanFieldsLoop_back hn

theorem Runs.eq_of_length (h : Runs st fin) (hlen : fin.back.length = st.back.length) : fin = st := by
  rcases h.cases with ⟨-, rfl⟩ | ⟨st', hstep, hrun⟩
  · rfl
  · have hlt := scanFieldsStep_lt hstep
    have hback := congrArg List.length (scanFieldsStep_back hstep).2
    have hle := hrun.back.1
    simp only [length_append, length_reverse] at hback
    omega

theorem Runs.equals_prefix (h : Runs st fin) : st.equals <+: fin.equals := by
  obtain ⟨n, hn⟩ := h
  induction n generalizing st with
  | zero => cases hn
  | succ n ih =>
    rcases (show Runs st fin from ⟨n + 1, hn⟩).cases with ⟨-, rfl⟩ | ⟨st', hstep, -⟩
    · exact prefix_rfl
    rw [scanFieldsLoop_succ, hstep] at hn
    refine List.IsPrefix.trans ?_ (ih hn)
    obtain ⟨c, y, -, ⟨-, -, rfl⟩ | ⟨-, ⟨-, -, rfl⟩ | ⟨-, -, heq⟩ | ⟨-, -, rfl⟩ | ⟨-, -, rfl⟩⟩⟩ :=
      scanFieldsStep_cases hstep
    · exact prefix_rfl
    · exact prefix_rfl
    · obtain ⟨-, k, -, rfl⟩ := scanFieldsEquals_cases heq
      exact prefix_append _ _
    · exact prefix_rfl
    · exact prefix_rfl

/-! ## Steps over bytes -/

/-- The state with one more `=` sign counted, and some more commas. -/
def FieldScan.counted (st : FieldScan) (q k : ℕ) : FieldScan :=
  { st with equals := st.equals ++ [q], commas := st.commas + k }

/-- The state with some more commas counted. -/
def FieldScan.addCommas (st : FieldScan) (k : ℕ) : FieldScan := { st with commas := st.commas + k }

variable (st)

theorem addCommas_addCommas (k n : ℕ) : (st.addCommas k).addCommas n = st.addCommas (k + n) := by
  simp only [addCommas, Nat.add_assoc]

theorem addCommas_counted (q k n : ℕ) : (st.counted q k).addCommas n = st.counted q (k + n) := by
  simp only [counted, addCommas, Nat.add_assoc]

theorem counted_addCommas (q k : ℕ) : (st.addCommas k).counted q 0 = st.counted q k := rfl

theorem addCommas_advance (k n : ℕ) : (st.advance n).addCommas k = (st.addCommas k).advance n := rfl

theorem counted_advance (q k n : ℕ) : (st.advance n).counted q k = (st.counted q k).advance n := rfl

theorem advance_zero : st.advance 0 = st := by
  simp [advance]

theorem advance_add (m n : ℕ) : st.advance (m + n) = (st.advance m).advance n := by
  simp only [advance, take_add, reverse_append, append_assoc, drop_drop]

theorem advance_length (h : st.rest = w ++ y) : (st.advance w.length).rest = y ∧
    (st.advance w.length).back.length = st.back.length + w.length := by
  rw [advance_rest, advance_back, h, drop_left, take_left, length_append, length_reverse]
  exact ⟨rfl, Nat.add_comm _ _⟩

variable {st}

theorem scanFieldsStep_pair (h : st.rest = backslash :: c :: x) : scanFieldsStep st = .ok (some (st.advance 2)) := by
  rw [scanFieldsStep, h]
  simp only
  rw [if_pos ⟨trivial, by simp⟩]

theorem scanFieldsStep_byte (h : st.rest = c :: x) (hc : c ≠ backslash)
    (hquote : c = quote → st.equals.length ≤ st.commas)
    (hstop : st.quoted = false → c ≠ equals ∧ c ≠ comma ∧ c ≠ space) : scanFieldsStep st = .ok (some (st.advance 1)) := by
  rw [scanFieldsStep, h]
  simp only
  rw [if_neg fun hp => hc hp.1, if_neg fun hq => absurd (hquote hq.1) (by omega)]
  cases hq : st.quoted with
  | true => simp
  | false =>
    obtain ⟨he, hco, hs⟩ := hstop hq
    rw [if_neg fun h => he h.1, if_neg fun h => hco h.1, if_neg fun h => hs h.1]

theorem scanFieldsStep_quote (h : st.rest = quote :: x) (hlt : st.commas < st.equals.length) :
    scanFieldsStep st = .ok (some (({ st with quoted := !st.quoted } : FieldScan).advance 1)) := by
  rw [scanFieldsStep, h]
  simp only
  rw [if_neg (by simp [backslash]), if_pos ⟨trivial, hlt⟩]

theorem scanFieldsStep_comma (h : st.rest = comma :: x) (hq : st.quoted = false) :
    scanFieldsStep st = .ok (some ((st.addCommas 1).advance 1)) := by
  rw [scanFieldsStep, h]
  simp only
  rw [if_neg (by simp [backslash]), if_neg (by simp), if_neg (by simp), if_pos ⟨trivial, by simp [hq]⟩, ← h]
  rfl

theorem scanFieldsStep_equals (h : st.rest = equals :: x) (hq : st.quoted = false) :
    scanFieldsStep st = (scanFieldsEquals st x).map some := by
  rw [scanFieldsStep, h]
  simp only
  rw [if_neg (by simp [backslash]), if_neg (by simp), if_pos ⟨trivial, by simp [hq]⟩]
  cases scanFieldsEquals st x <;> rfl

/-- **A run over pairs**: bytes that no round stops at are stepped over. -/
theorem runs_pairs {stop : Byte → Bool} (hw : Pairs stop w) (hrest : st.rest = w ++ y)
    (hstop : ∀ c, c ≠ backslash → ¬stop c → (c = quote → st.equals.length ≤ st.commas) ∧
      (st.quoted = false → c ≠ equals ∧ c ≠ comma ∧ c ≠ space)) : Runs st fin ↔ Runs (st.advance w.length) fin := by
  induction hw generalizing st with
  | nil => rw [length_nil, advance_zero]
  | @pair c x _ ih =>
    have hrec := @ih (st.advance 2) (by rw [advance_rest, hrest]; rfl) hstop
    rw [runs_iff_of_step (scanFieldsStep_pair hrest), hrec, ← advance_add]
    rw [length_cons, length_cons, Nat.add_assoc, Nat.add_comm]
  | @byte c x hc hs _ ih =>
    obtain ⟨hquote, hsep⟩ := hstop c hc hs
    have hrec := @ih (st.advance 1) (by rw [advance_rest, hrest]; rfl) hstop
    rw [runs_iff_of_step (scanFieldsStep_byte hrest hc hquote hsep), hrec, ← advance_add, length_cons, Nat.add_comm]

theorem runs_key (hw : Pairs commaSpaceEquals w) (hrest : st.rest = w ++ y)
    (hcommas : st.equals.length ≤ st.commas) : Runs st fin ↔ Runs (st.advance w.length) fin := by
  refine runs_pairs hw hrest fun c _ hs => ⟨fun _ => hcommas, fun _ => ?_⟩
  simp only [commaSpaceEquals, Bool.or_eq_true, beq_iff_eq, not_or] at hs
  exact ⟨hs.2, hs.1.1, hs.1.2⟩

theorem runs_body (hw : Pairs (· == quote) w) (hrest : st.rest = w ++ y) (hq : st.quoted = true) :
    Runs st fin ↔ Runs (st.advance w.length) fin := by
  refine runs_pairs hw hrest fun c _ hs => ⟨fun hc => absurd (beq_iff_eq.mpr hc) hs, fun hf => ?_⟩
  rw [hq] at hf
  cases hf

/-! ## Clean fields -/

/-- A field in the text: key and value as they stand there. -/
structure RawField where
  key : List Byte
  value : List Byte
deriving DecidableEq

def rawField (f : RawField) : List Byte := f.key ++ equals :: f.value

/-- The text of fields, separated by commas. -/
def fieldsText : List RawField → List Byte
  | [] => []
  | [f] => rawField f
  | f :: g :: fs => rawField f ++ comma :: fieldsText (g :: fs)

/-- The body of a string: quotes stand behind backslashes, and so does the last of an odd number of backslashes. -/
abbrev IsBody (x : List Byte) : Prop := Pairs (· == quote) x

/-- A value that all scanners end at the same byte: a string, or a text without quotes, commas and blanks. -/
def CleanValue (v : List Byte) : Prop :=
  (∃ body, v = quote :: (body ++ [quote]) ∧ IsBody body) ∨
    (v ≠ [] ∧ v.head? ≠ some quote ∧ ∀ c ∈ v, c ≠ comma ∧ c ≠ space)

/-- A field that all scanners read alike.  In the key commas, blanks and equals signs stand behind backslashes that are
not escaped themselves, and the key does not end in a backslash. -/
structure CleanField (f : RawField) : Prop where
  ne : f.key ≠ []
  pairs : Pairs commaSpaceEquals f.key
  last : f.key.getLast? ≠ some backslash
  value : CleanValue f.value

/-- The positions of the `=` signs of fields that start at a position. -/
def equalsAt : ℕ → List RawField → List ℕ
  | _, [] => []
  | i, f :: fs => (i + f.key.length) :: equalsAt (i + (rawField f).length + 1) fs

/-- A value that its accessor reads: a string, or a number or boolean in range. -/
def ReadableValue (v : List Byte) : Prop :=
  (∃ body, v = quote :: (body ++ [quote]) ∧ IsBody body) ∨ ((∀ c ∈ v, isWord c) ∧ Readable v)

theorem rawField_append (f : RawField) (y : List Byte) : rawField f ++ y = f.key ++ equals :: (f.value ++ y) := by
  rw [rawField, append_assoc, cons_append]

theorem drop_rawField (f : RawField) (y : List Byte) : (rawField f ++ y).drop (f.key.length + 1) = f.value ++ y := by
  rw [rawField_append, ← drop_drop, drop_left]
  rfl

theorem length_rawField (f : RawField) : (rawField f).length = f.key.length + 1 + f.value.length := by
  rw [rawField, length_append, length_cons]
  omega

theorem takeWhile_atStop (hv : ∀ c ∈ v, c ≠ comma ∧ c ≠ space) (hr : AtStop r) :
    (v ++ r).takeWhile (fun c => c ≠ comma ∧ c ≠ space) = v := by
  rw [takeWhile_append_of_pos (by simpa using hv)]
  cases r with
  | nil => simp
  | cons c r =>
    have hc : ¬(c ≠ comma ∧ c ≠ space) := fun h => (hr c rfl).elim h.1 h.2
    rw [takeWhile_cons_of_neg (by simpa using hc), append_nil]

theorem eq_of_atStop {v' r' : List Byte} (h : v ++ r = v' ++ r') (hv : ∀ c ∈ v, c ≠ comma ∧ c ≠ space)
    (hv' : ∀ c ∈ v', c ≠ comma ∧ c ≠ space) (hr : AtStop r) (hr' : AtStop r') : v = v' := by
  rw [← takeWhile_atStop hv hr, h, takeWhile_atStop hv' hr']

theorem isWord_stop (h : isWord c) : (c ≠ comma ∧ c ≠ space) ∧ c ≠ quote ∧ c ≠ backslash := by
  simp only [isWord, Bool.and_eq_true, bne_iff_ne] at h
  exact ⟨h.1.1, h.1.2, h.2⟩

theorem Runs.count (h : Runs st fin) (hrest : st.rest = equals :: x) (hq : st.quoted = false) :
    ∃ n, scanFieldsValue x = .ok n ∧ Runs ((st.counted st.back.length 0).advance (1 + n)) fin := by
  rcases h.cases with ⟨hnone, -⟩ | ⟨st', hstep, hrun⟩
  · cases scanFieldsStep_none hnone equals (by rw [hrest]; rfl)
  · rw [scanFieldsStep_equals hrest hq] at hstep
    obtain ⟨s, heq, hstep⟩ := bind_eq_ok hstep
    cases hstep
    obtain ⟨-, n, hvalue, rfl⟩ := scanFieldsEquals_cases heq
    exact ⟨n, hvalue, hrun⟩

variable {body : List Byte}

theorem runs_string (hbody : IsBody body) (hrest : st.rest = quote :: (body ++ quote :: y))
    (hq : st.quoted = false) (hlt : st.commas < st.equals.length) :
    Runs st fin ↔ Runs (st.advance (quote :: (body ++ [quote])).length) fin := by
  obtain ⟨s, hs⟩ : ∃ s, ({ st with quoted := !st.quoted } : FieldScan).advance 1 = s := ⟨_, rfl⟩
  have hopen : s.rest = body ++ quote :: y := by
    rw [← hs, advance_rest, hrest]
    rfl
  have hclose := (advance_length _ hopen).1
  rw [runs_iff_of_step (scanFieldsStep_quote hrest hlt), hs, runs_body hbody hopen (by simp [← hs, hq]),
    runs_iff_of_step (scanFieldsStep_quote hclose (by rwa [← hs]))]
  have hstate : ∀ k m, ({ s.advance k with quoted := !(s.advance k).quoted } : FieldScan).advance m =
      st.advance (1 + k + m) := by
    intro k m
    rw [advance_add, advance_add, ← hs]
    simp [advance]
  rw [hstate, length_cons, length_append, length_singleton, add_comm 1]

/-- Behind the `=` sign, a string is stepped over. -/
theorem runs_value_string {q : ℕ} (hv : f.value = quote :: (body ++ [quote])) (hbody : IsBody body)
    (hrest : st.rest = rawField f ++ y) (hq : st.quoted = false) (hcommas : st.commas = st.equals.length) :
    Runs ((st.counted q 0).advance (f.key.length + 1)) fin ↔ Runs ((st.counted q 0).advance (rawField f).length) fin := by
  have hvalue : ((st.counted q 0).advance (f.key.length + 1)).rest = quote :: (body ++ quote :: y) := by
    rw [advance_rest, show (st.counted q 0).rest = _ from hrest, drop_rawField, hv]
    simp
  have hlt : st.commas < (st.equals ++ [q]).length := by
    rw [length_append, hcommas]
    exact Nat.lt_succ_self _
  rw [runs_string hbody hvalue hq hlt, ← advance_add, length_rawField, hv]

/-- Behind a field, a comma is counted. -/
theorem runs_comma (fin : FieldScan) (q k : ℕ) (hrest : st.rest = w ++ comma :: y) (hq : st.quoted = false) :
    (Runs ((st.counted q k).advance w.length) fin ↔ Runs ((st.counted q (k + 1)).advance (w.length + 1)) fin) ∧
      ((st.counted q (k + 1)).advance (w.length + 1)).rest = y ∧
      ((st.counted q (k + 1)).advance (w.length + 1)).back.length = st.back.length + (w.length + 1) := by
  have hstep := scanFieldsStep_comma (advance_length (st.counted q k) hrest).1 hq
  rw [addCommas_advance, addCommas_counted, ← advance_add] at hstep
  have hsnoc : st.rest = (w ++ [comma]) ++ y := by rw [hrest, append_assoc, singleton_append]
  have h := advance_length (st.counted q (k + 1)) hsnoc
  rw [length_append, length_singleton] at h
  exact ⟨runs_iff_of_step hstep, h⟩

/-- **A run over a clean field** counts its `=` sign and reads its value. -/
theorem Runs.field (h : Runs st fin) (hf : CleanField f) (hrest : st.rest = rawField f ++ y)
    (hy : AtStop y) (hq : st.quoted = false) (hcommas : st.commas = st.equals.length) : ReadableValue f.value ∧
      Runs ((st.counted (st.back.length + f.key.length) 0).advance (rawField f).length) fin := by
  have hkey : st.rest = f.key ++ equals :: (f.value ++ y) := hrest.trans (rawField_append f y)
  rw [runs_key hf.pairs hkey hcommas.ge] at h
  obtain ⟨hrest', hback⟩ := advance_length _ hkey
  obtain ⟨n, hvalue, hrun⟩ := h.count hrest' (by rw [advance_quoted]; exact hq)
  rw [hback, counted_advance, ← advance_add, ← Nat.add_assoc] at hrun
  rcases hf.value with ⟨body, hv, hbody⟩ | ⟨hne, hhead, hstop⟩
  · have hzero : n = 0 := by
      rw [hv] at hvalue
      rcases scanFieldsValue_cases hvalue with ⟨hn, -⟩ | ⟨hnot, -⟩
      · exact hn
      · exact absurd rfl hnot
    subst hzero
    rw [Nat.add_zero] at hrun
    rw [runs_value_string hv hbody hrest hq hcommas] at hrun
    exact ⟨.inl ⟨body, hv, hbody⟩, hrun⟩
  · rcases scanFieldsValue_cases hvalue with ⟨-, z, hz⟩ | ⟨-, v, r, hword⟩
    · exfalso
      apply hhead
      rw [← head?_append_of_ne_nil _ hne, hz]
      rfl
    · have hvv := eq_of_atStop hword.text hstop
        (fun c hc => (isWord_stop (hword.word c hc)).1) hy hword.stop
      rw [hvv, length_rawField, hvv, ← hword.length]
      exact ⟨.inr ⟨hword.word, hword.readable⟩, hrun⟩

/-- The end of the field section: the end of the line, or a blank. -/
def AtEnd (x : List Byte) : Prop := ∀ c, x.head? = some c → c = space

theorem Runs.stop (h : Runs st fin) (hrest : AtEnd st.rest) (hq : st.quoted = false) : fin = st := by
  rcases h.cases with ⟨-, rfl⟩ | ⟨st', hstep, -⟩
  · rfl
  · obtain ⟨c, y, hc, hcases⟩ := scanFieldsStep_cases hstep
    rw [hc] at hrest
    obtain rfl := hrest c rfl
    rcases hcases with ⟨hb, -⟩ | ⟨-, ⟨hb, -⟩ | ⟨hb, -⟩ | ⟨hb, -⟩ | ⟨-, hstop, -⟩⟩
    · exact absurd hb (by decide)
    · exact absurd hb (by decide)
    · exact absurd hb (by decide)
    · exact absurd hb (by decide)
    · exact absurd rfl (hstop hq).2.2

theorem fieldsText_append {g : RawField} {fs : List RawField} {x : List Byte}
    (h : x = fieldsText (f :: g :: fs) ++ tail) : x = rawField f ++ comma :: (fieldsText (g :: fs) ++ tail) ∧
      AtStop (comma :: (fieldsText (g :: fs) ++ tail)) :=
  ⟨by rw [h, fieldsText, append_assoc, cons_append], fun c hc => .inl (Option.some.inj hc).symm⟩

/-- **A run over clean fields** counts their `=` signs, reads their values, and ends behind them. -/
theorem Runs.fields (htail : AtEnd tail) : ∀ {fs : List RawField} {f : RawField} {st : FieldScan},
    Runs st fin → (∀ g ∈ f :: fs, CleanField g) → st.rest = fieldsText (f :: fs) ++ tail → st.quoted = false →
    st.commas = st.equals.length → fin.equals = st.equals ++ equalsAt st.back.length (f :: fs) ∧
      fin.back.length = st.back.length + (fieldsText (f :: fs)).length ∧ ∀ g ∈ f :: fs, ReadableValue g.value
  | [], f, st, h, hclean, hrest, hq, hcommas => by
    have hstop : AtStop tail := fun c hc => .inr (htail c hc)
    obtain ⟨hread, hrun⟩ := h.field (hclean f mem_cons_self) hrest hstop hq hcommas
    obtain ⟨hrest', hback⟩ := advance_length (st.counted (st.back.length + f.key.length) 0) hrest
    have hend : AtEnd ((st.counted (st.back.length + f.key.length) 0).advance (fieldsText [f]).length).rest := by
      rw [hrest']
      exact htail
    have hfin := hrun.stop hend hq
    refine ⟨by rw [hfin]; rfl, by rw [hfin]; exact hback, ?_⟩
    exact forall_mem_singleton.mpr hread
  | g :: fs, f, st, h, hclean, hrest, hq, hcommas => by
    obtain ⟨hrest₁, hstop⟩ := fieldsText_append hrest
    obtain ⟨hread, hrun⟩ := h.field (hclean f mem_cons_self) hrest₁ hstop hq hcommas
    obtain ⟨hcomma, hrest₂, hback⟩ := runs_comma fin (st.back.length + f.key.length) 0 hrest₁ hq
    obtain ⟨hequals, hlength, hreads⟩ := Runs.fields htail (hcomma.mp hrun) (forall_mem_cons.mp hclean).2
      hrest₂ hq (by simp [counted, hcommas])
    rw [hback] at hequals hlength
    refine ⟨?_, ?_, ?_⟩
    · rw [hequals]
      exact append_assoc _ _ _
    · rw [hlength, fieldsText, length_append, length_cons]
      omega
    · exact forall_mem_cons.mpr ⟨hread, hreads⟩

/-! ## The walk over clean fields -/

theorem fieldValueLen_stop (hz : z = [] ∨ z.head? = some comma) : fieldValueLen false false z = 0 := by
  cases z with
  | nil => rfl
  | cons c z =>
    obtain rfl : c = comma := by simpa using hz
    rw [fieldValueLen, if_neg (by simp [backslash]), if_neg (by decide), if_pos ⟨rfl, by simp⟩]

theorem fieldValueLen_word (hw : ∀ c ∈ w, isWord c) (z : List Byte) :
    fieldValueLen false false (w ++ z) = w.length + fieldValueLen false false z := by
  induction w with
  | nil => simp
  | cons c w ih =>
    obtain ⟨⟨hcomma, -⟩, hquote, hback⟩ := isWord_stop (hw c mem_cons_self)
    rw [cons_append, fieldValueLen, if_neg fun h => hback h.1, if_neg hquote, if_neg fun h => hcomma h.1,
      ih (forall_mem_cons.mp hw).2, length_cons]
    omega

theorem fieldValueLen_body (hb : IsBody body) (z : List Byte) :
    fieldValueLen false true (body ++ z) = body.length + fieldValueLen false true z := by
  induction hb with
  | nil => simp
  | @pair c x _ ih =>
    rw [cons_append, cons_append, fieldValueLen, length_cons, length_cons]
    by_cases hc : c = quote ∨ c = backslash
    · rw [if_pos ⟨rfl, by simpa using hc⟩, fieldValueLen, ih]
      omega
    · rw [not_or] at hc
      rw [if_neg (by simpa using hc), if_neg (by decide), if_neg (by decide), fieldValueLen, if_neg fun h => hc.2 h.1,
        if_neg hc.1, if_neg (by simp), ih]
      omega
  | @byte c x hc hs _ ih =>
    have hquote : c ≠ quote := by simpa using hs
    rw [cons_append, fieldValueLen, if_neg fun h => hc h.1, if_neg hquote, if_neg (by simp), ih, length_cons]
    omega

theorem fieldValueLen_readable (hv : ReadableValue v) (z : List Byte) :
    fieldValueLen false false (v ++ z) = v.length + fieldValueLen false false z := by
  rcases hv with ⟨body, rfl, hbody⟩ | ⟨hword, -⟩
  · rw [cons_append, fieldValueLen, if_neg (by simp [backslash]), if_pos rfl, append_assoc, Bool.not_false,
      fieldValueLen_body hbody, singleton_append, fieldValueLen, if_neg (by simp [backslash]), if_pos rfl]
    simp only [length_cons, length_append, length_nil, Bool.not_true]
    omega
  · exact fieldValueLen_word hword z

/-- What the walk yields for a field that starts at a position. -/
def itemAt (i : ℕ) (f : RawField) : FieldIterator where
  start := i
  stop := i + (rawField f).length + 1
  key := if isEscaped f.key then unesc isEscapeChar f.key else f.key
  valueBuf := (fieldTypeOf f.value).2
  fieldType := (fieldTypeOf f.value).1

/-- What the walk yields for fields that start at a position. -/
def itemsAt : ℕ → List RawField → List FieldIterator
  | _, [] => []
  | i, f :: fs => itemAt i f :: itemsAt (i + (rawField f).length + 1) fs

theorem scanTo_key (pre : List Byte) (hne : f.key ≠ []) (hpairs : Pairs commaSpaceEquals f.key)
    (hlast : f.key.getLast? ≠ some backslash) (z : List Byte) :
    scanTo (pre ++ (rawField f ++ z)) pre.length equals = (pre.length + f.key.length, f.key) := by
  have hrun : runLen (· == equals) (pre.getLastD 0) (f.key ++ equals :: (f.value ++ z)) = f.key.length := by
    have hequals : Pairs (· == equals) f.key := hpairs.mono fun c hc => by
      rw [beq_iff_eq.mp hc]
      rfl
    refine runLen_append (hequals.escaped (by decide) _) fun c hc => ?_
    cases hc
    refine ⟨rfl, fun hb => hlast ?_⟩
    rw [getLast?_eq_some_getLast hne, ← hb]
    obtain ⟨k, d, hk⟩ : ∃ k d, f.key = k ++ [d] := ⟨_, _, (dropLast_append_getLast hne).symm⟩
    simp [hk]
  rw [scanTo, rawField_append, findUnescaped_append, hrun]
  simp

theorem scanFieldValue_readable {b : List Byte} {i : ℕ} (hv : ReadableValue v) (hz : z = [] ∨ z.head? = some comma)
    (hdrop : b.drop i = v ++ z) : scanFieldValue b i = (i + v.length, v) := by
  have hn : fieldValueLen false false (v ++ z) = v.length := by
    rw [fieldValueLen_readable hv, fieldValueLen_stop hz, Nat.add_zero]
  simp only [scanFieldValue, hdrop, hn, take_left]

/-- **`next` in front of a clean field** whose value is read. -/
theorem next_field (hf : CleanField f) (hv : ReadableValue f.value) (pre : List Byte)
    (hz : z = [] ∨ z.head? = some comma) : next (pre ++ (rawField f ++ z)) pre.length = some (itemAt pre.length f) := by
  have hlen := length_rawField f
  have hdrop : (pre ++ (rawField f ++ z)).drop (pre.length + f.key.length + 1) = f.value ++ z := by
    rw [Nat.add_assoc, ← drop_drop, drop_left, drop_rawField]
  have hvalue := scanFieldValue_readable hv hz hdrop
  rw [show pre.length + f.key.length + 1 + f.value.length = pre.length + (rawField f).length by omega] at hvalue
  rw [next, if_neg (by simp only [length_append]; omega), scanTo_key pre hf.ne hf.pairs hf.last]
  simp only [hvalue]
  rfl

/-- **The walk over clean fields** yields them, one after the other. -/
theorem iterate_fields : ∀ {fs : List RawField} {f : RawField} (pre : List Byte) {n : ℕ}, (f :: fs).length < n →
    (∀ g ∈ f :: fs, CleanField g ∧ ReadableValue g.value) →
    iterate (pre ++ fieldsText (f :: fs)) n pre.length = .ok (itemsAt pre.length (f :: fs))
  | [], f, pre, 0, hn, _ => by cases hn
  | [], f, pre, 1, hn, _ => by simp at hn
  | [], f, pre, n + 2, _, h => by
    obtain ⟨hf, hv⟩ := h f mem_cons_self
    have hnext := next_field hf hv pre (z := []) (.inl rfl)
    rw [append_nil] at hnext
    have hend : next (pre ++ rawField f) (itemAt pre.length f).stop = none := by
      rw [next, if_pos]
      simp [itemAt]
    rw [iterate, fieldsText, hnext]
    simp only [iterate, hend]
    rfl
  | g :: fs, f, pre, 0, hn, _ => by cases hn
  | g :: fs, f, pre, n + 1, hn, h => by
    obtain ⟨hf, hv⟩ := h f mem_cons_self
    have hnext := next_field hf hv pre (z := comma :: fieldsText (g :: fs)) (.inr rfl)
    have hrec := iterate_fields (pre ++ (rawField f ++ [comma])) (n := n) (by simpa using hn)
      (forall_mem_cons.mp h).2
    have htext : pre ++ (rawField f ++ [comma]) ++ fieldsText (g :: fs) =
        pre ++ (rawField f ++ comma :: fieldsText (g :: fs)) := by simp
    have hlen : (pre ++ (rawField f ++ [comma])).length = (itemAt pre.length f).stop := by
      simp only [length_append, length_singleton, itemAt]
      omega
    rw [htext, hlen] at hrec
    rw [iterate, fieldsText, hnext]
    simp only [hrec]
    rfl

end Influxdb.Models
