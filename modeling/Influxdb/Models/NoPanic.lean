import Influxdb.Models.TagOrder

/-!
# NoPanic — what point handling cannot do

Parsing never panics: every slice and every index of the scanners stays in the buffer, whatever the input is.  Reading a
point that came as bytes can panic in one place: `StringValue` cuts off the first and the last byte of a value, and the
value can be a single quote.
-/

namespace Influxdb.Models

open List

variable {st st' : FieldScan}

/-- A call that returns a value or an error; it neither panics nor runs on. -/
def NoPanic {α : Type} (r : Except Fault α) : Prop := ∀ e, r = .error e → ∃ msg, e = .error msg

section Combinators

variable {α β : Type} {r : Except Fault α} {f : α → Except Fault β}

theorem NoPanic.ok (a : α) : NoPanic (.ok a : Except Fault α) := fun e h => by cases h

theorem NoPanic.error (msg : String) : NoPanic (.error (.error msg) : Except Fault α) := fun e h => by
  cases h
  exact ⟨msg, rfl⟩

theorem NoPanic.bind (hr : NoPanic r) (hf : ∀ a, r = .ok a → NoPanic (f a)) : NoPanic (r >>= f) := by
  cases r with
  | error e =>
    obtain ⟨msg, rfl⟩ := hr e rfl
    exact NoPanic.error msg
  | ok a => exact hf a rfl

theorem NoPanic.ite {c : Prop} [Decidable c] {r' : Except Fault α} (h : NoPanic r) (h' : NoPanic r') :
    NoPanic (if c then r else r') := by
  split_ifs
  · exact h
  · exact h'

theorem NoPanic.map (hr : NoPanic r) (g : α → β) : NoPanic (r.map g) := by
  cases r with
  | error e =>
    obtain ⟨msg, rfl⟩ := hr e rfl
    exact NoPanic.error msg
  | ok a => exact NoPanic.ok (g a)

end Combinators

variable {buf x y fields : List Byte} {i j n : ℕ}

theorem slice_ok (hij : i ≤ j) (hj : j ≤ buf.length) : slice buf i j = .ok ((buf.drop i).take (j - i)) := by
  rw [slice, if_pos ⟨hij, hj⟩]

theorem NoPanic.failAt {α : Type} {e : Fault} (hij : i ≤ j) (hj : j ≤ buf.length) (he : ∃ msg, e = .error msg) :
    NoPanic (failAt buf i j e : Except Fault α) := by
  obtain ⟨msg, rfl⟩ := he
  rw [Models.failAt, slice_ok hij hj]
  exact NoPanic.error msg

/-! ## The key section -/

variable (stop : Byte → Bool)

theorem le_findUnescaped (buf : List Byte) (i : ℕ) : i ≤ findUnescaped stop buf i :=
  Nat.le_add_right _ _

theorem findUnescaped_le (hi : i ≤ buf.length) : findUnescaped stop buf i ≤ buf.length := by
  have h := runLen_le stop (prevByte buf i) (buf.drop i)
  rw [length_drop] at h
  rw [findUnescaped]
  omega

theorem findUnescaped_bounds (h : buf[i]? ≠ none) :
    i < findUnescaped stop buf (i + 1) ∧ findUnescaped stop buf (i + 1) ≤ buf.length := by
  have hlt : i < buf.length := by
    by_contra hge
    exact h (getElem?_eq_none (by omega))
  exact ⟨le_findUnescaped stop buf (i + 1), findUnescaped_le stop hlt⟩

theorem findUnescaped_stop {stop : Byte → Bool} (h : findUnescaped stop buf i < buf.length) :
    ∃ c, buf[findUnescaped stop buf i]? = some c ∧ stop c := by
  obtain ⟨y, z, hyz, hlen, -, hz⟩ := runLen_spec stop (prevByte buf i) (buf.drop i)
  rw [findUnescaped] at h ⊢
  have hdrop : (buf.drop i).length = y.length + z.length := by rw [hyz, length_append]
  rw [length_drop] at hdrop
  cases z with
  | nil =>
    rw [length_nil] at hdrop
    omega
  | cons c z =>
    refine ⟨c, ?_, (hz c rfl).1⟩
    rw [← hlen, ← getElem?_drop, hyz, getElem?_append_right (Nat.le_refl _), Nat.sub_self]
    rfl

/-- The answer of a scanner that started at `i`: its position is in the buffer, behind `i` if it goes on, and it does not
panic. -/
structure Scanned {α : Type} (buf : List Byte) (i : ℕ) (q : ℕ × Except Fault α) : Prop where
  le : i ≤ q.1
  le_length : q.1 ≤ buf.length
  noPanic : NoPanic q.2
  lt : ∀ a, q.2 = .ok a → i < q.1

theorem Scanned.error {α : Type} (hij : i ≤ j) (hj : j ≤ buf.length) (msg : String) :
    Scanned buf i (j, (.error (.error msg) : Except Fault α)) where
  le := hij
  le_length := hj
  noPanic := NoPanic.error msg
  lt := fun a h => by cases h

theorem Scanned.ok {α : Type} (hij : i < j) (hj : j ≤ buf.length) (a : α) : Scanned buf i (j, .ok a) where
  le := hij.le
  le_length := hj
  noPanic := NoPanic.ok a
  lt := fun _ _ => hij

theorem scanned_scanMeasurement (hi : i ≤ buf.length) : Scanned buf i (scanMeasurement buf i) := by
  rw [scanMeasurement]
  split_ifs with hfirst
  · exact Scanned.error (Nat.le_refl _) hi _
  · obtain ⟨hle, hend⟩ := findUnescaped_bounds commaOrSpace fun h => hfirst (.inl h)
    simp only
    split
    · exact Scanned.error (by omega) hend _
    · rename_i c hc
      have hin := (List.getElem?_eq_some_iff.mp hc).1
      split_ifs
      · exact Scanned.ok (by omega) (by omega) _
      · exact Scanned.ok (by omega) hend _

theorem scanned_scanTagsKey (hi : i ≤ buf.length) : Scanned buf i (scanTagsKey buf i) := by
  rw [scanTagsKey]
  split_ifs with hfirst
  · exact Scanned.error (Nat.le_refl _) hi _
  · obtain ⟨hle, hend⟩ := findUnescaped_bounds commaSpaceEquals fun h => hfirst (by rw [h]; simp)
    simp only
    split_ifs with hc
    · have hin := (List.getElem?_eq_some_iff.mp hc).1
      exact Scanned.ok (by omega) (by omega) _
    · exact Scanned.error (by omega) hend _

theorem scanned_scanTagsValue (hi : i ≤ buf.length) : Scanned buf i (scanTagsValue buf i) := by
  rw [scanTagsValue]
  split_ifs with hfirst
  · exact Scanned.error (Nat.le_refl _) hi _
  · obtain ⟨hle, hend⟩ := findUnescaped_bounds commaSpaceEquals fun h => hfirst (by rw [h]; simp)
    simp only
    split
    · exact Scanned.error (by omega) hend _
    · rename_i c hc
      have hin := (List.getElem?_eq_some_iff.mp hc).1
      split_ifs
      · exact Scanned.error (by omega) hend _
      · exact Scanned.ok (by omega) (by omega) _
      · exact Scanned.ok (by omega) hend _

theorem scanStarts_error {e : Fault} : ∀ {n : ℕ} {state : ScanState} {i : ℕ} {indices : List ℕ},
    i ≤ buf.length → 2 * (buf.length - i) + 1 < n → scanStarts buf n state i indices = (j, .error e) →
    (i ≤ j ∧ j ≤ buf.length) ∧ ∃ msg, e = .error msg
  | 0, _, _, _, _, hn, _ => by omega
  | n + 1, .tagKey, i, indices, hi, hn, h => by
    have hkey := scanned_scanTagsKey hi
    rw [scanStarts] at h
    cases hq : scanTagsKey buf i with
    | mk i' r =>
      rw [hq] at h hkey
      cases r with
      | error e' =>
        cases h
        exact ⟨⟨hkey.le, hkey.le_length⟩, hkey.noPanic e rfl⟩
      | ok u =>
        have hlt : i < i' := hkey.lt u rfl
        have hle : i' ≤ buf.length := hkey.le_length
        obtain ⟨hbound, hmsg⟩ := scanStarts_error hle (by omega) h
        exact ⟨⟨by omega, hbound.2⟩, hmsg⟩
  | n + 1, .tagValue, i, indices, hi, hn, h => by
    have hvalue := scanned_scanTagsValue hi
    rw [scanStarts] at h
    cases hq : scanTagsValue buf i with
    | mk i' r =>
      rw [hq] at h hvalue
      cases r with
      | error e' =>
        cases h
        exact ⟨⟨hvalue.le, hvalue.le_length⟩, hvalue.noPanic e rfl⟩
      | ok state =>
        have hlt : i < i' := hvalue.lt state rfl
        have hle : i' ≤ buf.length := hvalue.le_length
        obtain ⟨hbound, hmsg⟩ := scanStarts_error hle (by omega) h
        exact ⟨⟨by omega, hbound.2⟩, hmsg⟩
  | n + 1, .fields, i, indices, hi, hn, h => by
    rw [scanStarts] at h
    cases h

theorem noPanic_scanKey (line : List Byte) : NoPanic (scanKey line 0) := by
  have hstart : skipWhitespace line 0 ≤ line.length := by
    rw [skipWhitespace_zero]
    exact (takeWhile_sublist _).length_le
  have hmeasurement := scanned_scanMeasurement hstart
  rcases scanKey_cases line with ⟨j, e, hfail, hscan | ⟨i, hscan, htags⟩⟩ | ⟨ws, m, tags, rest, htext⟩
  · rw [hscan] at hmeasurement
    rw [hfail]
    exact NoPanic.failAt hmeasurement.le hmeasurement.le_length (hmeasurement.noPanic e rfl)
  · rw [hscan] at hmeasurement
    have hle : skipWhitespace line 0 < i := hmeasurement.lt _ rfl
    have hlen : i ≤ line.length := hmeasurement.le_length
    rw [scanTags_eq] at htags
    obtain ⟨hbound, hmsg⟩ := scanStarts_error hlen (by omega) htags
    rw [hfail]
    exact NoPanic.failAt (by omega) hbound.2 hmsg
  · rw [htext.scanKey]
    have hkey : NoPanic (keyOf m tags) := .ite (.error _) <| .ite (.error _) <| .ok _
    exact hkey.map _

/-! ## The field section -/

theorem noPanic_scanNumberLoop {p : Byte} {st : NumberScan} : NoPanic (scanNumberLoop p x i st) := by
  induction x generalizing p i st with
  | nil => exact NoPanic.ok _
  | cons c x ih =>
    rw [scanNumberLoop]
    refine .ite (.ok _) <| .ite ih <| .ite ih <| .ite (.error _) ?_
    exact .ite ih <| .ite ih <| .ite (.error _) <| .ite (.error _) ih

theorem noPanic_checkParse {α : Type} (r : Except String α) (msg : String → String) (n : ℕ) :
    NoPanic (checkParse r msg n) := by
  cases r with
  | error e => exact NoPanic.error (msg e)
  | ok a => exact NoPanic.ok n

theorem noPanic_checkNumber (text : List Byte) (st : NumberScan) : NoPanic (checkNumber text st) := by
  rw [checkNumber]
  refine .ite (.error _) <| .ite (.error _) <| .ite ?_ <| .ite ?_ ?_
  · exact .ite (.error _) <| .ite (noPanic_checkParse _ _ _) <| .ok _
  · exact .ite (.error _) <| .ite (.error _) <| .ite (noPanic_checkParse _ _ _) <| .ok _
  · exact .ite (noPanic_checkParse _ _ _) <| .ok _

theorem noPanic_scanNumber (p c : Byte) (x : List Byte) : NoPanic (scanNumber p (c :: x)) := by
  rw [scanNumber]
  refine .ite (.error _) <| .bind ?_ fun q _ => noPanic_checkNumber _ _
  exact .ite noPanic_scanNumberLoop noPanic_scanNumberLoop

theorem noPanic_scanBoolean (c : Byte) (x : List Byte) : NoPanic (scanBoolean (c :: x)) := by
  rw [scanBoolean]
  refine .ite (.error _) ?_
  exact .ite (.ok _) <| .ite (.error _) <| .ite (.error _) <| .ite (.ok _) <| .error _

theorem noPanic_scanFieldsValue (x : List Byte) : NoPanic (scanFieldsValue x) := by
  cases x with
  | nil => exact NoPanic.error _
  | cons d x =>
    rw [scanFieldsValue]
    exact .ite (.error _) <| .ite (noPanic_scanNumber _ _ _) <| .ite (noPanic_scanBoolean _ _) <| .ok _

theorem noPanic_checkFieldKey {back : List Byte} (h : 2 ≤ back.length) : NoPanic (checkFieldKey back) := by
  match back, h with
  | c :: d :: back, _ =>
    rw [checkFieldKey]
    exact .ite (.ite (.error _) (.ok _)) (.ok _)

theorem noPanic_scanFieldsStep (h : 2 ≤ st.back.length) : NoPanic (scanFieldsStep st) := by
  rw [scanFieldsStep]
  cases st.rest with
  | nil => exact NoPanic.ok _
  | cons c y =>
    refine .ite (.ok _) <| .ite (.ok _) <| .ite (.bind ?_ fun _ _ => .ok _) <| .ite (.ok _) <| .ite (.ok _) (.ok _)
    rw [scanFieldsEquals]
    exact .bind (noPanic_checkFieldKey h) fun _ _ => .bind (noPanic_scanFieldsValue y) fun _ _ => .ok _

theorem scanFieldsStep_back (h : scanFieldsStep st = .ok (some st')) :
    st.back.length ≤ st'.back.length ∧ st'.back.reverse ++ st'.rest = st.back.reverse ++ st.rest := by
  have hadvance : ∀ (s : FieldScan) (k : ℕ), s.back = st.back → s.rest = st.rest →
      st.back.length ≤ (s.advance k).back.length ∧
        (s.advance k).back.reverse ++ (s.advance k).rest = st.back.reverse ++ st.rest := by
    intro s k hback hrest
    rw [advance_back, advance_rest, hback, hrest]
    refine ⟨by simp, ?_⟩
    rw [reverse_append, reverse_reverse, append_assoc, take_append_drop]
  obtain ⟨c, y, -, hcases⟩ := scanFieldsStep_cases h
  rcases hcases with ⟨-, -, rfl⟩ | ⟨-, ⟨-, -, rfl⟩ | ⟨-, -, heq⟩ | ⟨-, -, rfl⟩ | ⟨-, -, rfl⟩⟩
  · exact hadvance st 2 rfl rfl
  · exact hadvance _ 1 rfl rfl
  · obtain ⟨-, k, -, rfl⟩ := scanFieldsEquals_cases heq
    exact hadvance _ (1 + k) rfl rfl
  · exact hadvance _ 1 rfl rfl
  · exact hadvance st 1 rfl rfl

theorem scanFieldsLoop_back (h : scanFieldsLoop n st = .ok st') :
    st.back.length ≤ st'.back.length ∧ st'.back.reverse ++ st'.rest = st.back.reverse ++ st.rest := by
  induction n generalizing st with
  | zero => cases h
  | succ n ih =>
    rw [scanFieldsLoop_succ] at h
    split at h
    · cases h
    · cases h
      exact ⟨Nat.le_refl _, rfl⟩
    · rename_i st₁ hstep
      obtain ⟨hle, hwhole⟩ := scanFieldsStep_back hstep
      obtain ⟨hle', hwhole'⟩ := ih h
      exact ⟨hle.trans hle', hwhole'.trans hwhole⟩

theorem noPanic_scanFieldsLoop (hback : 2 ≤ st.back.length) (hn : st.rest.length < n) :
    NoPanic (scanFieldsLoop n st) := by
  induction n generalizing st with
  | zero => omega
  | succ n ih =>
    have hstep := noPanic_scanFieldsStep hback
    rw [scanFieldsLoop_succ]
    cases hs : scanFieldsStep st with
    | error e =>
      obtain ⟨msg, rfl⟩ := hstep e hs
      exact NoPanic.error msg
    | ok r =>
      cases r with
      | none => exact NoPanic.ok _
      | some st' =>
        have hlt := scanFieldsStep_lt hs
        have hle := (scanFieldsStep_back hs).1
        exact ih (by omega) (by omega)

theorem skipWhitespace_le (hi : i ≤ buf.length) : skipWhitespace buf i ≤ buf.length := by
  have h := (takeWhile_sublist (l := buf.drop i) isWhitespace).length_le
  rw [length_drop] at h
  rw [skipWhitespace]
  omega

theorem noPanic_scanFields (hi : 1 ≤ i) (hspace : buf[i]? = some space) : NoPanic (scanFields buf i) := by
  have hlt : i < buf.length := (List.getElem?_eq_some_iff.mp hspace).1
  have hstart : i < skipWhitespace buf i := by
    have hdrop : buf.drop i = space :: buf.drop (i + 1) := by
      obtain ⟨hb, hget⟩ := List.getElem?_eq_some_iff.mp hspace
      rw [drop_eq_getElem_cons hb, hget]
    rw [skipWhitespace, hdrop, takeWhile_cons_of_pos (by decide), length_cons]
    omega
  have hend := skipWhitespace_le hlt.le
  rw [scanFields]
  refine NoPanic.bind ?_ fun st hst => ?_
  · refine noPanic_scanFieldsLoop ?_ ?_
    · rw [length_reverse, length_take]
      omega
    · rw [length_drop]
      omega
  · obtain ⟨hle, hwhole⟩ := scanFieldsLoop_back hst
    have hlen := congrArg length hwhole
    simp only [length_append, length_reverse, length_take, length_drop] at hle hlen
    refine .ite (.error _) <| .ite (.error _) ?_
    rw [slice_ok (by omega) (by omega)]
    exact .ok _

theorem scanFields_le {q : ℕ × List Byte} (hi : i ≤ buf.length) (h : scanFields buf i = .ok q) : q.1 ≤ buf.length := by
  rw [scanFields] at h
  obtain ⟨st, hst, h⟩ := bind_eq_ok h
  obtain ⟨fields, -, h⟩ := bind_eq_ok (ok_of_ite (ok_of_ite h))
  cases h
  have hend := skipWhitespace_le hi
  obtain ⟨-, hwhole⟩ := scanFieldsLoop_back hst
  have hlen := congrArg length hwhole
  simp only [length_append, length_reverse, length_take, length_drop] at hlen
  omega

theorem noPanic_walkFields : ∀ {n : ℕ} {buf : List Byte}, buf.length < n → NoPanic (walkFields n buf)
  | 0, _, h => by omega
  | n + 1, [], _ => NoPanic.ok _
  | n + 1, c :: x, h => by
    rw [walkFields]
    refine .ite (.ok _) <| .bind (noPanic_walkFields ?_) fun _ _ => .ok _
    rw [drop_drop, length_drop, length_cons] at *
    omega

theorem noPanic_checkSeriesKeys (key fields : List Byte) : NoPanic (checkSeriesKeys key fields) := by
  rw [checkSeriesKeys]
  refine .bind (noPanic_walkFields (Nat.lt_succ_self _)) fun q _ => ?_
  simp only
  split
  · exact .error _
  · exact .error _
  · exact .ok _

/-- The fields are walked to their end, and none of them gives too long a series key. -/
theorem checkSeriesKeys_ok {key fields : List Byte} (h : checkSeriesKeys key fields = .ok ()) :
    ∃ calls, walkFields (fields.length + 1) fields = .ok (calls, none) ∧
      ∀ c ∈ calls, seriesKeySize key c.1 ≤ maxKeyLength := by
  rw [checkSeriesKeys] at h
  obtain ⟨⟨calls, err⟩, hwalk, h⟩ := bind_eq_ok h
  simp only at h
  split at h
  · cases h
  · cases h
  · rename_i hfind
    refine ⟨calls, hwalk, fun c hc => ?_⟩
    simpa using find?_eq_none.mp hfind c hc

/-! ## The time and the line -/

theorem scanTimeLoop_bound : NoPanic (scanTimeLoop x i) ∧ ∀ n, scanTimeLoop x i = .ok n → n ≤ i + x.length := by
  induction x generalizing i with
  | nil => exact ⟨NoPanic.ok _, fun n hn => by cases hn; exact Nat.le_refl _⟩
  | cons c x ih =>
    obtain ⟨hno, hle⟩ := ih (i := i + 1)
    rw [scanTimeLoop, length_cons]
    refine ⟨.ite (.ok _) <| .ite hno <| .ite (.error _) hno, fun n hn => ?_⟩
    split_ifs at hn
    · cases hn
      omega
    · have := hle n hn
      omega
    · have := hle n hn
      omega

theorem noPanic_scanTime (hi : i ≤ buf.length) : NoPanic (scanTime buf i) := by
  have hend := skipWhitespace_le hi
  obtain ⟨hno, hle⟩ := scanTimeLoop_bound (x := buf.drop (skipWhitespace buf i)) (i := 0)
  rw [scanTime]
  refine .bind hno fun n hn => ?_
  have hbound := hle n hn
  rw [length_drop] at hbound
  rw [slice_ok (by omega) (by omega)]
  exact NoPanic.ok _

theorem noPanic_parseTime (buf ts : List Byte) (pos : ℕ) (t : Time) (prec : String) :
    NoPanic (parseTime buf ts pos t prec) := by
  rw [parseTime]
  refine .ite (.ok _) ?_
  cases Strconv.parseInt ts with
  | error err => exact .error _
  | ok n =>
    refine .bind ?_ fun _ _ => .ite (.ok _) (.error _)
    rw [safeCalcTime]
    cases safeSignedMult n (getPrecisionMultiplier prec) with
    | none => exact .error _
    | some k => exact .bind (.ite (.error _) (.ok _)) fun _ _ => .ok _

theorem noPanic_parsePoint (line : List Byte) (t : Time) (prec : String) : NoPanic (parsePoint line t prec) := by
  rw [parsePoint]
  refine .bind (noPanic_scanKey line) fun q hq => ?_
  -- behind a key section stands a blank
  have hspace : 1 ≤ q.1 ∧ (line)[q.1]? = some space := by
    obtain ⟨ws, m, tags, rest, htext⟩ := exists_keyText hq
    have hpos := length_pos_iff.mpr htext.measurement.ne
    rw [(htext.of_scanKey hq).2]
    refine ⟨by simp only [length_append]; omega, ?_⟩
    rw [htext.line_eq, ← append_assoc m]
    exact getElem?_append_length ws _ _
  have hle : q.1 ≤ line.length := (List.getElem?_eq_some_iff.mp hspace.2).1.le
  refine .ite (.error _) <| .ite (.error _) ?_
  refine .bind (noPanic_scanFields hspace.1 hspace.2) fun q' hq' => ?_
  refine .ite (.error _) <| .bind (noPanic_checkSeriesKeys _ _) fun _ _ => ?_
  refine .bind (noPanic_scanTime (scanFields_le hle hq')) fun q'' _ => ?_
  exact .bind (noPanic_parseTime _ _ _ _ _) fun _ _ => .ok _

/-- **Parsing never panics**: every input gives its points and its failed lines. -/
theorem exists_parsePoints (buf : List Byte) (t : Time) (prec : String) :
    ∃ r, parsePointsWithPrecision buf t prec = .ok r := by
  rw [parsePointsWithPrecision_eq]
  induction pointLines buf with
  | nil => exact ⟨_, rfl⟩
  | cons line lines ih =>
    obtain ⟨r, hr⟩ := ih
    have hline : ∃ r, parseLine t prec line = .ok r := by
      rw [parseLine]
      cases hp : parsePoint line t prec with
      | ok p => exact ⟨_, rfl⟩
      | error e =>
        obtain ⟨msg, rfl⟩ := noPanic_parsePoint line t prec e hp
        exact ⟨_, rfl⟩
    obtain ⟨r', hr'⟩ := hline
    rw [parseLines, hr', hr]
    exact ⟨_, rfl⟩

/-- **What is accepted is well formed**, its key and its fields. -/
theorem parsed_wellFormed (buf : List Byte) (t : Time) (prec : String) :
    ∃ r, parsePointsWithPrecision buf t prec = .ok r ∧ ∀ p ∈ r.1,
      p.fields ≠ [] ∧ (∃ fields, walkFields (p.fields.length + 1) p.fields = .ok (fields, none) ∧
        ∀ f ∈ fields, p.key.length + 4 + f.1.length ≤ 65535) ∧
      ∃ m tags, IsMeasurement m ∧ (∀ t ∈ tags, IsTag t) ∧ keyOf m tags = .ok p.key := by
  obtain ⟨r, hr⟩ := exists_parsePoints buf t prec
  refine ⟨r, hr, fun p hp => ?_⟩
  rw [parsePointsWithPrecision_eq] at hr
  obtain ⟨_, -, h⟩ := exists_line_of_mem hr hp
  obtain ⟨_, _, _, _, hp⟩ := parsePoint_iff.mp h
  obtain ⟨_, m, tags, _, hk⟩ := exists_keyText hp.key
  exact ⟨hp.fields_ne, checkSeriesKeys_ok hp.series, m, tags, hk.measurement, hk.tags, hk.keyOf h⟩

end Influxdb.Models
