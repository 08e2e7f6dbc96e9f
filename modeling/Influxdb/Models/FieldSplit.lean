import Influxdb.Models.FieldText

/-!
# FieldSplit — when `scanFields` and `FieldIterator` split a section alike

`scanFields` counts the fields of a line at their `=` signs; `FieldIterator` splits the same bytes again.  They agree on
an accepted line, and every field is well formed, exactly if the field section is clean.
-/

namespace Influxdb.Models

open List Strconv Nat FieldScan

variable {st fin : FieldScan} {w y z : List Byte} {line : List Byte} {t : Time} {prec : String} {p : Point}
variable {f : RawField} {it : FieldIterator} {fields : List Byte} {its : List FieldIterator}
variable {n i : ℕ} {tail : List Byte}

/-! ## A run outside of quotes -/

/-- **A run over any bytes** while quotes do not count: if no `=` sign among them is counted and the run does not end in
them, it steps over them and counts their commas. -/
theorem Runs.skip (hw : Pairs (fun _ => false) w) (h : Runs st fin) (hrest : st.rest = w ++ y)
    (hq : st.quoted = false) (hcommas : st.equals.length ≤ st.commas)
    (hlen : st.back.length + w.length ≤ fin.back.length)
    (hnext : ∀ q, fin.equals[st.equals.length]? = some q → st.back.length + w.length ≤ q) :
    ∃ k, Runs ((st.addCommas k).advance w.length) fin ∧ (k = 0 → Pairs commaSpaceEquals w) := by
  induction hw generalizing st with
  | nil =>
    refine ⟨0, ?_, fun _ => .nil⟩
    rw [length_nil, advance_zero]
    exact h
  | @pair c x _ ih =>
    rw [runs_iff_of_step (scanFieldsStep_pair hrest)] at h
    have hback : (st.advance 2).back.length = st.back.length + 2 := (advance_length _ (w := [backslash, c]) hrest).2
    rw [length_cons, length_cons] at hlen hnext
    obtain ⟨k, hrun, hpairs⟩ := ih h (by rw [advance_rest, hrest]; rfl) hq hcommas (by omega) (fun q hq => by
      have := hnext q hq
      omega)
    refine ⟨k, ?_, fun hk => .pair c (hpairs hk)⟩
    rw [addCommas_advance, ← advance_add] at hrun
    rwa [length_cons, length_cons, add_assoc, add_comm]
  | @byte c x hc _ _ ih =>
    have hback : ∀ s : FieldScan, s.rest = st.rest → (s.advance 1).rest = x ++ y ∧
        (s.advance 1).back.length = s.back.length + 1 := by
      intro s hs
      exact advance_length _ (w := [c]) (hs.trans hrest)
    rw [length_cons] at hlen hnext
    rcases h.cases with ⟨-, rfl⟩ | ⟨st', hstep, hrun⟩
    · omega
    obtain ⟨c', y', hrest', hcases⟩ := scanFieldsStep_cases hstep
    obtain ⟨rfl, -⟩ := cons.inj (hrest'.symm.trans hrest)
    rcases hcases with ⟨hb, -⟩ | ⟨-, ⟨-, hlt, -⟩ | ⟨-, -, heq⟩ | ⟨-, -, rfl⟩ | ⟨-, hstop, rfl⟩⟩
    · exact absurd hb hc
    · omega
    · -- an `=` sign that is counted here comes too early
      obtain ⟨-, n, -, rfl⟩ := scanFieldsEquals_cases heq
      obtain ⟨r, hr⟩ := hrun.equals_prefix
      have hget : fin.equals[st.equals.length]? = some st.back.length := by
        rw [← hr, advance_equals]
        simp
      have := hnext _ hget
      omega
    · have hb : ((st.addCommas 1).advance 1).back.length = st.back.length + 1 := (hback (st.addCommas 1) rfl).2
      obtain ⟨k, hrun', -⟩ := @ih ((st.addCommas 1).advance 1) hrun (hback (st.addCommas 1) rfl).1 hq
        (le_succ_of_le hcommas) (by omega) (fun q hq => by
          have := hnext q hq
          omega)
      refine ⟨1 + k, ?_, by omega⟩
      rw [addCommas_advance, ← advance_add, addCommas_addCommas] at hrun'
      rwa [length_cons, add_comm x.length]
    · obtain ⟨hr, hb⟩ := hback st rfl
      obtain ⟨k, hrun', hpairs⟩ := ih hrun hr hq hcommas (by omega) (fun q hq => by
        have := hnext q hq
        omega)
      refine ⟨k, ?_, fun hk => .byte hc ?_ (hpairs hk)⟩
      · rw [addCommas_advance, ← advance_add] at hrun'
        rwa [length_cons, add_comm x.length]
      · obtain ⟨he, hco, hs⟩ := hstop hq
        simp only [commaSpaceEquals, Bool.or_eq_true, beq_iff_eq, not_or]
        exact ⟨⟨hco, hs⟩, he⟩

/-! ## One field -/

/-- A value as the walk takes it: a string, or something that does not begin with a quote. -/
def StringOrWord (v : List Byte) : Prop :=
  (∃ body, v = quote :: (body ++ [quote]) ∧ IsBody body) ∨ (v ≠ [] ∧ v.head? ≠ some quote)

theorem Runs.word_eq {v z : List Byte} (hn : scanFieldsValue (v ++ (z ++ tail)) = .ok n) (hv : v ≠ [])
    (hhead : v.head? ≠ some quote) (hlen : v.length = fieldValueLen false false (v ++ z))
    (hrun : Runs (st.advance n) fin) (hrest : st.rest = v ++ (z ++ tail)) (hq : st.quoted = false)
    (hend : fin.back.length = st.back.length + (v ++ z).length) : n = v.length ∧ ∀ c ∈ v, isWord c := by
  have hhead' : (v ++ (z ++ tail)).head? ≠ some quote := by
    rwa [head?_append_of_ne_nil _ hv]
  rcases scanFieldsValue_cases hn with ⟨-, y, hy⟩ | ⟨-, v', r', hword⟩
  · rw [hy] at hhead'
    exact absurd rfl hhead'
  obtain rfl := hword.length
  obtain ⟨hrest', hback⟩ := advance_length _ (hrest.trans hword.text)
  have hle := hrun.back.1
  rw [hback, hend] at hle
  -- the word lies in the section
  obtain ⟨r, hr, hr'⟩ : ∃ r, v ++ z = v' ++ r ∧ r' = r ++ tail := by
    have htext := hword.text
    rw [← append_assoc] at htext
    rcases append_eq_append_iff.mp htext with ⟨a, h1, h2⟩ | ⟨a, h1, h2⟩
    · have hnil : a = [] := by
        rw [h1, length_append] at hle
        exact eq_nil_of_length_eq_zero (by omega)
      subst hnil
      exact ⟨[], by simpa using h1.symm, by simpa using h2.symm⟩
    · exact ⟨a, h1, h2⟩
  have hz : r = [] ∨ r.head? = some comma := by
    cases r with
    | nil => exact .inl rfl
    | cons c r =>
      refine .inr ?_
      rcases hword.stop c (by rw [hr']; rfl) with rfl | rfl
      · rfl
      · have hfin := hrun.stop (by rw [hrest', hr']; exact fun d hd => (Option.some.inj hd).symm) hq
        rw [hfin, hback, hr, length_append, length_cons] at hend
        omega
  have hlen' : v.length = v'.length := by
    rw [hlen, hr, fieldValueLen_word hword.word, fieldValueLen_stop hz, add_zero]
  obtain ⟨rfl, -⟩ := append_inj hr hlen'
  exact ⟨rfl, hword.word⟩

/-- **A run over a field that the walk yields**: it counts the `=` sign of the field and perhaps more commas; without
them the field is clean. -/
theorem Runs.splitField {z : List Byte} (h : Runs st fin)
    (hrest : st.rest = rawField f ++ (z ++ tail)) (hq : st.quoted = false) (hcommas : st.equals.length ≤ st.commas)
    (hend : fin.back.length = st.back.length + (rawField f ++ z).length)
    (hcount : fin.equals[st.equals.length]? = some (st.back.length + f.key.length))
    (hnext : ∀ q, fin.equals[st.equals.length + 1]? = some q → st.back.length + (rawField f).length ≤ q)
    (hne : f.key ≠ []) (hlast : f.key.getLast? ≠ some backslash)
    (hlen : f.value.length = fieldValueLen false false (f.value ++ z)) (hv : StringOrWord f.value) :
    ∃ k, Runs ((st.counted (st.back.length + f.key.length) k).advance (rawField f).length) fin ∧
      (k = 0 → st.commas = st.equals.length → CleanField f) := by
  have hlenf := length_rawField f
  rw [length_append, hlenf] at hend
  have hkey : st.rest = f.key ++ equals :: (f.value ++ (z ++ tail)) := hrest.trans (rawField_append f _)
  obtain ⟨k, hrun, hpairs⟩ := h.skip (pairs_of_getLast hlast) hkey hq hcommas (by omega) (fun q hq => by
    rw [hcount] at hq
    exact (Option.some.inj hq).le)
  obtain ⟨hrest₁, hback₁⟩ := advance_length (st.addCommas k) hkey
  obtain ⟨n, hn, hrun⟩ := hrun.count hrest₁ hq
  -- the state behind the `=` sign
  obtain ⟨st₂, hst₂⟩ : ∃ st₂, st₂ = (st.counted (st.back.length + f.key.length) k).advance (f.key.length + 1) := ⟨_, rfl⟩
  have hrun₂ : Runs (st₂.advance n) fin := by
    rw [hback₁, counted_advance, counted_addCommas, ← advance_add, ← add_assoc, advance_add] at hrun
    rwa [hst₂]
  have hkey' : st.rest = (f.key ++ [equals]) ++ (f.value ++ (z ++ tail)) := by
    rw [hkey, append_assoc, singleton_append]
  have hsplit := advance_length (st.counted (st.back.length + f.key.length) k) hkey'
  rw [length_append, length_singleton, ← hst₂] at hsplit
  obtain ⟨hrest₂, hback₂⟩ := hsplit
  have hback₂ : st₂.back.length = st.back.length + (f.key.length + 1) := hback₂
  have hq₂ : st₂.quoted = false := by rw [hst₂]; exact hq
  have hequals₂ : st₂.equals.length = st.equals.length + 1 := by
    rw [hst₂, advance_equals, counted, length_append, length_singleton]
  have hcommas₂ : st₂.commas = st.commas + k := by rw [hst₂]; rfl
  have hgoal : ∀ k', (st₂.addCommas k').advance f.value.length =
      (st.counted (st.back.length + f.key.length) (k + k')).advance (rawField f).length := by
    intro k'
    rw [hst₂, addCommas_advance, addCommas_counted, ← advance_add, hlenf]
  rcases hv with ⟨body, hvalue, hbody⟩ | ⟨hvne, hhead⟩
  · have hzero : n = 0 := by
      rw [hvalue] at hn
      rcases scanFieldsValue_cases hn with ⟨hn, -⟩ | ⟨hnot, -⟩
      · exact hn
      · exact absurd rfl hnot
    subst hzero
    rw [advance_zero] at hrun₂
    by_cases hlt : st.commas + k = st.equals.length
    · have hstring := hrest₂
      rw [hvalue, cons_append, append_assoc, singleton_append] at hstring
      rw [runs_string hbody hstring hq₂ (by omega), ← hvalue] at hrun₂
      refine ⟨k, ?_, fun hk _ => ⟨hne, hpairs hk, hlast, .inl ⟨body, hvalue, hbody⟩⟩⟩
      rw [← add_zero k, ← hgoal 0]
      exact hrun₂
    · -- the quotes do not count: a comma stood in a key
      have hclosed : Pairs (fun _ => false) f.value := by
        rw [hvalue]
        exact .byte (by decide) (by simp) ((hbody.mono (by simp)).append (.byte (by decide) (by simp) .nil))
      obtain ⟨k', hrun₃, -⟩ := hrun₂.skip hclosed hrest₂ hq₂ (by omega) (by omega) (fun q hq => by
        rw [hequals₂] at hq
        have := hnext q hq
        omega)
      rw [hgoal] at hrun₃
      exact ⟨k + k', hrun₃, fun hk heq => by omega⟩
  · obtain ⟨rfl, hword⟩ := Runs.word_eq hn hvne hhead hlen hrun₂ hrest₂ hq₂ (by
      rw [length_append]
      omega)
    refine ⟨k, ?_, fun hk _ => ⟨hne, hpairs hk, hlast, .inr ⟨hvne, hhead, fun c hc => ?_⟩⟩⟩
    · rw [← add_zero k, ← hgoal 0]
      exact hrun₂
    · exact (isWord_stop (hword c hc)).1

/-! ## The walk -/

theorem fieldValueLen_rest (skip quoted : Bool) (x : List Byte) : fieldValueLen skip quoted x ≤ x.length ∧
    (x.drop (fieldValueLen skip quoted x) = [] ∨ (x.drop (fieldValueLen skip quoted x)).head? = some comma) := by
  induction x generalizing skip quoted with
  | nil => cases skip <;> exact ⟨le_refl _, .inl rfl⟩
  | cons c x ih =>
    have hstep : ∀ s q, fieldValueLen s q x + 1 ≤ (c :: x).length ∧
        ((c :: x).drop (fieldValueLen s q x + 1) = [] ∨ ((c :: x).drop (fieldValueLen s q x + 1)).head? = some comma) :=
      fun s q => ⟨succ_le_succ (ih s q).1, (ih s q).2⟩
    cases skip with
    | true => exact hstep _ _
    | false =>
      rw [fieldValueLen]
      split_ifs with hskip hquote hcomma
      · exact hstep _ _
      · exact hstep _ _
      · exact ⟨zero_le _, .inr (by rw [hcomma.1]; rfl)⟩
      · exact hstep _ _

/-- **What the walk yields** is a field before a comma or the end. -/
theorem next_cases {pre x : List Byte} (h : next (pre ++ x) pre.length = some it) (hempty : it.fieldType ≠ .empty) :
    ∃ f z, x = rawField f ++ z ∧ (z = [] ∨ z.head? = some comma) ∧ it = itemAt pre.length f ∧
      f.key.getLast? ≠ some backslash ∧ f.value ≠ [] ∧ f.value.length = fieldValueLen false false (f.value ++ z) ∧
      (scanTo (pre ++ x) pre.length equals).1 = pre.length + f.key.length := by
  obtain ⟨k, z', hx, hlen, -, hz'⟩ := runLen_spec (· == equals) (pre.getLastD 0) x
  have hscan : scanTo (pre ++ x) pre.length equals = (pre.length + k.length, k) := by
    rw [scanTo, findUnescaped_append, ← hlen, hx]
    simp
  have hlast : z' ≠ [] → k.getLast? ≠ some backslash := by
    intro hne hk
    obtain ⟨c, z'', rfl⟩ := exists_cons_of_ne_nil hne
    obtain ⟨k', rfl⟩ := getLast?_eq_some_iff.mp hk
    exact (hz' c rfl).2 (by simp)
  rw [next] at h
  split_ifs at h with hend
  simp only [hscan] at h
  cases z' with
  | nil =>
    have hdrop : (pre ++ x).drop (pre.length + k.length + 1) = [] := by
      rw [drop_eq_nil_iff, hx]
      simp
    rw [scanFieldValue, hdrop] at h
    cases h
    exact absurd rfl hempty
  | cons c x₂ =>
    obtain rfl : c = equals := beq_iff_eq.mp (hz' c rfl).1
    obtain ⟨hle, hrest⟩ := fieldValueLen_rest false false x₂
    obtain ⟨m, hm⟩ : ∃ m, m = fieldValueLen false false x₂ := ⟨_, rfl⟩
    have hdrop : (pre ++ x).drop (pre.length + k.length + 1) = x₂ := by
      rw [add_assoc, ← drop_drop, drop_left, hx, ← drop_drop, drop_left]
      rfl
    have hlen₂ : (x₂.take m).length = m := by
      rw [length_take]
      omega
    simp only [scanFieldValue, hdrop, ← hm] at h
    cases h
    refine ⟨⟨k, x₂.take m⟩, x₂.drop m, ?_, ?_, ?_, hlast (cons_ne_nil _ _), ?_, ?_, ?_⟩
    · rw [rawField_append, take_append_drop]
      exact hx
    · rw [hm]
      exact hrest
    · have hlenf : pre.length + k.length + 1 + m + 1 = pre.length + (rawField ⟨k, x₂.take m⟩).length + 1 := by
        rw [length_rawField]
        simp only [hlen₂]
        omega
      rw [itemAt, ← hlenf]
    · intro hnil
      have hnil : x₂.take m = [] := hnil
      apply hempty
      rw [hnil]
      rfl
    · rw [take_append_drop, ← hm, hlen₂]
    · rw [hscan]

/-- A field as it should be: it has a key and a type, its accessor succeeds, and a string is a body in quotes. -/
structure GoodField (it : FieldIterator) : Prop where
  key : it.key ≠ []
  type : it.fieldType ≠ .empty
  value : ∃ v, it.value = .ok (some v)
  string : it.fieldType = .string →
    ∃ body, it.valueBuf = quote :: (body ++ [quote]) ∧ IsBody body ∧ it.stringValue = .ok (unescapeStringField body)

theorem key_ne_nil_iff (i : ℕ) (f : RawField) : (itemAt i f).key ≠ [] ↔ f.key ≠ [] := by
  simp only [itemAt]
  split_ifs with hesc
  · refine ⟨fun h hnil => h ?_, unesc_ne_nil⟩
    rw [hnil]
    rfl
  · rfl

theorem stringOrWord_of_good (hne : f.value ≠ []) (h : GoodField (itemAt i f)) : StringOrWord f.value := by
  by_cases hhead : f.value.head? = some quote
  · obtain ⟨y, hy⟩ : ∃ y, f.value = quote :: y := by
      obtain ⟨c, y, hcy⟩ := exists_cons_of_ne_nil hne
      rw [hcy] at hhead
      exact ⟨y, by rw [hcy, Option.some.inj hhead]⟩
    have htype : fieldTypeOf f.value = (.string, f.value) := by
      rw [hy]
      rfl
    have hbuf : (itemAt i f).valueBuf = f.value := by
      simp only [itemAt, htype]
    obtain ⟨body, hbody, hpairs, -⟩ := h.string (by simp only [itemAt, htype])
    exact .inl ⟨body, hbuf ▸ hbody, hpairs⟩
  · exact .inr ⟨hne, hhead⟩

theorem iterate_cons (h : iterate fields n i = .ok (it :: its)) : it.start = i := by
  cases n with
  | zero => cases h
  | succ n =>
    rw [iterate] at h
    split at h
    · cases h
    next it' hnext =>
      obtain ⟨its', -, h⟩ := bind_eq_ok h
      cases h
      rw [next] at hnext
      split_ifs at hnext
      cases hnext
      rfl

theorem iterate_end (hi : fields.length ≤ i) (h : iterate fields n i = .ok its) : its = [] := by
  cases n with
  | zero => cases h
  | succ n =>
    rw [iterate, next, if_pos hi] at h
    exact (Except.ok.inj h).symm

/-- **The walk against the run**: if the walk yields good fields at the `=` signs that the run counts, the run counts at
least the commas between them; if it counts no more, the fields are clean. -/
theorem Runs.split (start : ℕ) : ∀ {n : ℕ} (pre : List Byte) {x : List Byte} {st : FieldScan}
    {its : List FieldIterator}, iterate (pre ++ x) n pre.length = .ok its → x ≠ [] → (∀ it ∈ its, GoodField it) →
    Runs st fin → st.rest = x ++ tail → st.back.length = start + pre.length → st.quoted = false →
    st.equals.length ≤ st.commas → fin.back.length = st.back.length + x.length →
    fin.equals = st.equals ++ its.map (fun it => start + (scanTo (pre ++ x) it.start equals).1) →
    ∃ k, fin.commas + 1 = st.commas + its.length + k ∧
      (k = 0 → st.commas = st.equals.length → ∃ f fs, x = fieldsText (f :: fs) ∧ ∀ g ∈ f :: fs, CleanField g) := by
  intro n
  induction n with
  | zero =>
    intro pre x st its h
    cases h
  | succ n ih =>
    intro pre x st its h hx hgood hrun hrest hback hq hcommas hend hequals
    rw [iterate] at h
    have hpos : pre.length < (pre ++ x).length := by
      rw [length_append]
      have := length_pos_of_ne_nil hx
      omega
    obtain ⟨it, hnext⟩ : ∃ it, next (pre ++ x) pre.length = some it := by
      rw [next, if_neg (by omega)]
      exact ⟨_, rfl⟩
    rw [hnext] at h
    obtain ⟨its', hits', h⟩ := bind_eq_ok h
    cases h
    have hit := hgood it mem_cons_self
    obtain ⟨f, z, hxf, hz, hitf, hlast, hvne, hlen, hscan⟩ := next_cases hnext hit.type
    subst hitf
    have hstart : (itemAt pre.length f).start = pre.length := rfl
    have hstop : (itemAt pre.length f).stop = pre.length + (rawField f).length + 1 := rfl
    rw [map_cons, hstart, hscan] at hequals
    have hcount : fin.equals[st.equals.length]? = some (st.back.length + f.key.length) := by
      rw [hequals, getElem?_append_right (le_refl _), Nat.sub_self, hback, add_assoc]
      rfl
    have hsecond : ∀ q, fin.equals[st.equals.length + 1]? = some q → st.back.length + (rawField f).length ≤ q := by
      intro q hq
      rw [hequals, getElem?_append_right (le_add_right _ 1), Nat.add_sub_cancel_left, getElem?_cons_succ] at hq
      cases its' with
      | nil => cases hq
      | cons it₂ its'' =>
        have hstart₂ := iterate_cons hits'
        rw [hstop] at hstart₂
        cases hq
        have hle : it₂.start ≤ (scanTo (pre ++ x) it₂.start equals).1 := le_findUnescaped _ _ _
        dsimp only
        omega
    have hrest₀ : st.rest = rawField f ++ (z ++ tail) := by rw [hrest, hxf, append_assoc]
    obtain ⟨k, hrun₁, hclean⟩ := hrun.splitField hrest₀ hq hcommas (by rw [hend, hxf]) hcount hsecond
      ((key_ne_nil_iff _ f).mp hit.key) hlast hlen (stringOrWord_of_good hvne hit)
    have hback₁ : ((st.counted (st.back.length + f.key.length) k).advance (rawField f).length).back.length =
        st.back.length + (rawField f).length := (advance_length _ hrest₀).2
    have hlenx : x.length = (rawField f).length + z.length := by rw [hxf, length_append]
    have hend' : z.length ≤ 1 → its' = [] := fun hz =>
      iterate_end (by rw [hstop, length_append, hlenx]; omega) hits'
    rcases hz with rfl | hz
    · -- the last field
      obtain rfl := hend' (zero_le 1)
      have hfin := hrun₁.eq_of_length (by rw [hback₁, hend, hlenx]; rfl)
      refine ⟨k, ?_, fun hk heq => ⟨f, [], by rw [hxf, append_nil]; rfl, ?_⟩⟩
      · rw [hfin]
        simp [counted]
        omega
      · exact forall_mem_singleton.mpr (hclean hk heq)
    · obtain ⟨x', rfl⟩ : ∃ x', z = comma :: x' := by
        cases z with
        | nil => cases hz
        | cons c x' => exact ⟨x', by rw [Option.some.inj hz]⟩
      rw [length_cons] at hlenx
      obtain ⟨hcomma, hrest₃, hback₃⟩ := runs_comma fin (st.back.length + f.key.length) k hrest₀ hq
      rw [hcomma] at hrun₁
      by_cases hx' : x' = []
      · -- a comma at the end
        subst hx'
        obtain rfl := hend' (le_refl 1)
        have hfin := hrun₁.eq_of_length (by rw [hback₃, hend, hlenx]; rfl)
        refine ⟨k + 1, ?_, by omega⟩
        rw [hfin]
        simp [counted]
        omega
      · have htext : pre ++ x = pre ++ (rawField f ++ [comma]) ++ x' := by rw [hxf]; simp
        have hlenpre : (pre ++ (rawField f ++ [comma])).length = (itemAt pre.length f).stop := length_snoc _ _ _
        rw [htext] at hequals hits'
        rw [← hlenpre] at hits'
        obtain ⟨j, hj, hfields⟩ := ih (pre ++ (rawField f ++ [comma])) hits' hx' (forall_mem_cons.mp hgood).2 hrun₁ hrest₃
          (by rw [hback₃, hback, hlenpre, hstop]; omega) hq
          (by simp [counted]; omega) (by rw [hback₃, hend, hlenx]; omega) (by
            rw [hequals, hback]
            simp [counted, add_assoc])
        simp only [advance_commas, advance_equals, counted] at hj hfields
        refine ⟨k + j, by rw [length_cons]; omega, fun hk heq => ?_⟩
        obtain ⟨g, gs, hgs, hcleans⟩ := hfields (by omega) (by
          rw [length_append, length_singleton]
          omega)
        refine ⟨f, g :: gs, by rw [hxf, hgs]; rfl, ?_⟩
        exact forall_mem_cons.mpr ⟨hclean (by omega) heq, hcleans⟩

/-! ## Lines -/

/-- Where `scanFields` starts in a line, and what it has counted at the end. -/
def countFields (line : List Byte) : Except Fault (ℕ × FieldScan) := do
  let (pos, _) ← scanKey line 0
  let start := skipWhitespace line pos
  let st ← scanFieldsFrom line start
  .ok (start, st)

/-- **The field section is split alike**: the fields that the iterator yields are those that `scanFields` has counted,
in the order of the text, and each of them is as it should be. -/
def SplitAlike (line : List Byte) (p : Point) : Prop :=
  ∃ start st its, countFields line = .ok (start, st) ∧ p.fieldIterator = .ok its ∧
    its.map (fun it => start + (scanTo p.fields it.start equals).1) = st.equals ∧ ∀ it ∈ its, GoodField it

/-- **A clean field section** stands behind the key, up to the end of the line or a blank. -/
structure FieldsText (line ws m : List Byte) (tags : List Tag) (blank : List Byte) (fs : List RawField)
    (tail : List Byte) : Prop where
  key : KeyText line ws m tags (blank ++ (fieldsText fs ++ tail))
  blank : ∀ c ∈ blank, isWhitespace c
  head : ∀ c ∈ (fieldsText fs).head?, ¬isWhitespace c
  ne : fs ≠ []
  clean : ∀ f ∈ fs, CleanField f
  tail : AtEnd tail

/-- The line has a clean field section. -/
def CleanFields (line : List Byte) : Prop := ∃ ws m tags blank fs tail, FieldsText line ws m tags blank fs tail

/-- **The run of an accepted line**: from the start of the section over its bytes to a balanced end. -/
theorem exists_run (h : parsePoint line t prec = .ok p) :
    ∃ pos start fin, scanKey line 0 = .ok (pos, p.key) ∧ skipWhitespace line pos = start ∧
      countFields line = .ok (start, fin) ∧ line.drop start = p.fields ++ fin.rest ∧ p.fields ≠ [] ∧
      (line.take start).reverse.length = start ∧
      Runs ⟨(line.take start).reverse, p.fields ++ fin.rest, [], 0, false⟩ fin ∧
      fin.back.length = start + p.fields.length ∧ fin.quoted = false ∧ fin.commas + 1 = fin.equals.length := by
  obtain ⟨pos, pos', _, _, hpassed⟩ := parsePoint_iff.mp h
  have hscan := hpassed.fields
  rw [scanFields] at hscan
  generalize hstart : skipWhitespace line pos = start at hscan
  obtain ⟨fin, hfrom, hscan⟩ := bind_eq_ok hscan
  obtain ⟨hquoted, hscan⟩ := passed_of_ite hscan
  obtain ⟨hformat, hscan⟩ := passed_of_ite hscan
  obtain ⟨fields, hslice, hscan⟩ := bind_eq_ok hscan
  cases hscan
  rw [slice] at hslice
  split_ifs at hslice with hbounds
  obtain ⟨hle, hlen⟩ := hbounds
  have hrun : Runs ⟨(line.take start).reverse, line.drop start, [], 0, false⟩ fin := ⟨line.length + 1, hfrom⟩
  have hwhole := hrun.back.2
  rw [reverse_reverse, take_append_drop] at hwhole
  have hfields : p.fields = (line.drop start).take (fin.back.length - start) := (Except.ok.inj hslice).symm
  have hrest : line.drop start = p.fields ++ fin.rest := by
    have hdrop : line.drop fin.back.length = fin.rest := by
      rw [← hwhole, ← length_reverse, drop_left]
    rw [hfields, ← hdrop, ← Nat.add_sub_cancel' hle, Nat.add_sub_cancel_left, ← drop_drop, take_append_drop]
  have hlength : p.fields.length = fin.back.length - start := by
    rw [hfields, length_take, length_drop]
    omega
  refine ⟨pos, start, fin, hpassed.key, hstart, ?_, hrest, hpassed.fields_ne, ?_, hrest ▸ hrun, ?_, ?_, ?_⟩
  · rw [countFields, hpassed.key]
    simp only [bind, Except.bind, hstart, hfrom]
  · rw [length_reverse, length_take]
    omega
  · omega
  · simpa using hquoted
  · omega

/-! ## From a clean section -/

theorem length_le_fieldsText : ∀ fs, fs.length ≤ (fieldsText fs).length
  | [] => le_refl _
  | [f] => by
    rw [fieldsText, length_rawField, length_singleton]
    omega
  | f :: g :: fs => by
    have ih := length_le_fieldsText (g :: fs)
    rw [fieldsText, length_append, length_cons (a := comma), length_cons (a := f)]
    omega

theorem map_scanTo_itemsAt (start : ℕ) : ∀ {fs : List RawField} (pre : List Byte), (∀ f ∈ fs, CleanField f) →
    (itemsAt pre.length fs).map (fun it => start + (scanTo (pre ++ fieldsText fs) it.start equals).1) =
      equalsAt (start + pre.length) fs
  | [], pre, _ => rfl
  | [f], pre, h => by
    have hf := h f mem_cons_self
    have hscan := scanTo_key pre hf.ne hf.pairs hf.last []
    rw [append_nil] at hscan
    simp only [itemsAt, itemAt, map_cons, map_nil, fieldsText, hscan, equalsAt, add_assoc]
  | f :: g :: fs, pre, h => by
    have hf := h f mem_cons_self
    have hscan := scanTo_key pre hf.ne hf.pairs hf.last (comma :: fieldsText (g :: fs))
    have hrec := map_scanTo_itemsAt start (pre ++ (rawField f ++ [comma]))
      (forall_mem_cons.mp h).2
    have htext : pre ++ (rawField f ++ [comma]) ++ fieldsText (g :: fs) =
        pre ++ fieldsText (f :: g :: fs) := by simp [fieldsText]
    rw [htext, length_snoc, ← add_assoc, ← add_assoc] at hrec
    rw [itemsAt, map_cons, hrec, fieldsText, itemAt, hscan]
    exact congrArg (· :: _) (add_assoc _ _ _).symm

theorem itemAt_string {body : List Byte} (hv : f.value = quote :: (body ++ [quote])) (i : ℕ) :
    (itemAt i f).fieldType = .string ∧ (itemAt i f).valueBuf = quote :: (body ++ [quote]) ∧
      (itemAt i f).stringValue = .ok (unescapeStringField body) ∧
      (itemAt i f).value = .ok (some (.string (unescapeStringField body))) := by
  have htype : fieldTypeOf f.value = (.string, quote :: (body ++ [quote])) := by
    rw [hv]
    rfl
  have hslice : slice (quote :: (body ++ [quote])) 1 ((quote :: (body ++ [quote])).length - 1) = .ok body := by
    rw [slice_ok (by simp) (by simp)]
    simp
  simp only [itemAt, htype, FieldIterator.stringValue, FieldIterator.value, hslice, bind, Except.bind, and_self]

theorem goodField_itemAt (hf : CleanField f) (hv : ReadableValue f.value) (i : ℕ) : GoodField (itemAt i f) := by
  have hkey := (key_ne_nil_iff i f).mpr hf.ne
  rcases hv with ⟨body, hvalue, hbody⟩ | ⟨-, hempty, hstring, hread⟩
  · obtain ⟨hty, hbuf, hget, hval⟩ := itemAt_string hvalue i
    exact ⟨hkey, by rw [hty]; decide, ⟨_, hval⟩, fun _ => ⟨body, hbuf, hbody, hget⟩⟩
  · exact ⟨hkey, hempty, hread _ _ _, fun hty => absurd hty hstring⟩

theorem goodField_itemsAt : ∀ {fs : List RawField} {i : ℕ}, (∀ f ∈ fs, CleanField f ∧ ReadableValue f.value) →
    ∀ it ∈ itemsAt i fs, GoodField it
  | [], i, _ => forall_mem_nil _
  | f :: fs, i, h => by
    obtain ⟨hf, hfs⟩ := forall_mem_cons.mp h
    exact forall_mem_cons.mpr ⟨goodField_itemAt hf.1 hf.2 i, goodField_itemsAt hfs⟩

section

variable {ws m rest key : List Byte} {tags : List Tag} (h : KeyText line ws m tags rest) {pos : ℕ}
  (hkey : Models.scanKey line 0 = .ok (pos, key))

include h hkey

theorem KeyText.split_at : ∃ pre, line = pre ++ space :: rest ∧ pos = pre.length := by
  refine ⟨ws ++ (m ++ rawTags tags), ?_, ?_⟩
  · rw [h.line_eq]
    simp
  · rw [length_append, (h.of_scanKey hkey).2]

theorem KeyText.drop_start : line.drop (skipWhitespace line pos) = rest.dropWhile isWhitespace := by
  obtain ⟨pre, rfl, rfl⟩ := h.split_at hkey
  rw [skipWhitespace, ← drop_drop, drop_left, takeWhile_cons_of_pos (by decide), length_cons,
    drop_succ_cons]
  nth_rewrite 2 [← takeWhile_append_dropWhile (p := isWhitespace) (l := rest)]
  rw [drop_left]

end

theorem FieldsText.start {line ws m blank : List Byte} {tags : List Tag} {fs : List RawField}
    (h : FieldsText line ws m tags blank fs tail) {pos : ℕ} {key : List Byte} (hkey : scanKey line 0 = .ok (pos, key)) :
    line.drop (skipWhitespace line pos) = fieldsText fs ++ tail := by
  obtain ⟨c, x, hcx⟩ : ∃ c x, fieldsText fs = c :: x := by
    have hle := length_le_fieldsText fs
    have hpos := length_pos_of_ne_nil h.ne
    exact exists_cons_of_ne_nil (ne_nil_of_length_pos (by omega))
  have hc : ¬isWhitespace c := h.head c (by rw [hcx]; rfl)
  rw [h.key.drop_start hkey, dropWhile_append_of_pos h.blank, hcx, cons_append, dropWhile_cons_of_neg hc]

/-- **On a clean section** the scanners agree. -/
theorem splitAlike_of_clean (h : parsePoint line t prec = .ok p) (hclean : CleanFields line) : SplitAlike line p := by
  obtain ⟨ws, m, tags, blank, fs, tail, htext⟩ := hclean
  obtain ⟨pos, start, fin, hkey, hstart, hcount, hline, hne, hback, hrun, hend, hq, hbal⟩ := exists_run h
  have hrest : p.fields ++ fin.rest = fieldsText fs ++ tail := by
    rw [← hline, ← hstart, htext.start hkey]
  obtain ⟨f, fs, rfl⟩ := exists_cons_of_ne_nil htext.ne
  obtain ⟨hequals, hlength, hread⟩ := hrun.fields htext.tail htext.clean hrest rfl rfl
  rw [nil_append, hback] at hequals
  rw [hback] at hlength
  have hfields : p.fields = fieldsText (f :: fs) := (append_inj hrest (by omega)).1
  have hclean : ∀ g ∈ f :: fs, CleanField g ∧ ReadableValue g.value := fun g hg => ⟨htext.clean g hg, hread g hg⟩
  refine ⟨start, fin, itemsAt 0 (f :: fs), hcount, ?_, ?_, goodField_itemsAt hclean⟩
  · rw [Point.fieldIterator, hfields]
    have hlen := length_le_fieldsText (f :: fs)
    exact iterate_fields [] (by omega) hclean
  · rw [hequals, hfields]
    exact map_scanTo_itemsAt start [] htext.clean

/-! ## Back to a clean section -/

/-- **Where the scanners agree**, the section is clean. -/
theorem clean_of_splitAlike (h : parsePoint line t prec = .ok p) (hsplit : SplitAlike line p) : CleanFields line := by
  obtain ⟨pos, start, fin, hkey, hstart, hcount, hdrop, hne, hback, hrun, hend, hq, hbal⟩ := exists_run h
  obtain ⟨start', fin', its, hcount', hits, hmap, hgood⟩ := hsplit
  obtain ⟨rfl, rfl⟩ := Prod.mk.inj (Except.ok.inj (hcount'.symm.trans hcount))
  obtain ⟨ws, m, tags, rest, htext⟩ := exists_keyText hkey
  obtain ⟨k, hk, hfields⟩ := Runs.split start' [] hits hne hgood hrun rfl hback rfl
    (le_refl _) (by rw [hend]; exact congrArg (· + _) hback.symm) (by rw [nil_append]; exact hmap.symm)
  have hlen : fin'.equals.length = its.length := by rw [← hmap, length_map]
  obtain ⟨f, fs, hfs, hclean⟩ := hfields (by simp only at hk; omega) rfl
  have hfs : p.fields = fieldsText (f :: fs) := hfs
  rw [← hstart, htext.drop_start hkey, hfs] at hdrop
  have hrest : rest = rest.takeWhile isWhitespace ++ (fieldsText (f :: fs) ++ fin'.rest) := by
    rw [← hdrop, takeWhile_append_dropWhile]
  refine ⟨ws, m, tags, rest.takeWhile isWhitespace, f :: fs, fin'.rest, ?_, ?_, ?_, cons_ne_nil _ _, hclean, hrun.final⟩
  · rwa [← hrest]
  · exact fun c hc => mem_takeWhile_imp hc
  · intro c hc
    have hnot := head?_dropWhile_not isWhitespace rest
    rw [hdrop, head?_append_of_ne_nil _ (by rw [← hfs]; exact hne), Option.mem_def.mp hc] at hnot
    simpa using hnot

/-- **The field section of an accepted line is split the same way everywhere** exactly if it is clean. -/
theorem fields_split_iff (line : List Byte) (t : Time) (prec : String) (p : Point)
    (h : parsePoint line t prec = .ok p) : SplitAlike line p ↔ CleanFields line :=
  ⟨clean_of_splitAlike h, splitAlike_of_clean h⟩

/-- The iff at a line with a string and an integer. -/
theorem fields_split_string :
    SplitAlike (ascii "cpu a\\ b=\"x\\\"y\",c=1i 7") ⟨ascii "cpu", ascii "a\\ b=\"x\\\"y\",c=1i", Time.ofUnixNano 7⟩ ↔
      CleanFields (ascii "cpu a\\ b=\"x\\\"y\",c=1i 7") :=
  fields_split_iff _ (Time.ofUnixNano 0) "ns" _ (by decide +kernel)

/-- Two backslashes before an equals sign: `scanFields` counts two fields, the iterator yields one. -/
theorem two_fields_become_one : ∃ p, parsePoint (ascii "cpu a\\\\=1,b=2 7") (Time.ofUnixNano 0) "ns" = .ok p ∧
      ¬SplitAlike (ascii "cpu a\\\\=1,b=2 7") p := by
  refine ⟨⟨ascii "cpu", ascii "a\\\\=1,b=2", Time.ofUnixNano 7⟩, by decide +kernel, ?_⟩
  rintro ⟨start, st, its, hcount, hits, hmap, -⟩
  have htwo : (countFields (ascii "cpu a\\\\=1,b=2 7")).map (fun q => q.2.equals.length) = .ok 2 := by
    decide +kernel
  have hone : (Point.fieldIterator ⟨ascii "cpu", ascii "a\\\\=1,b=2", Time.ofUnixNano 7⟩).map
      length = .ok 1 := by
    decide +kernel
  rw [hcount] at htwo
  rw [hits] at hone
  have hst : st.equals.length = 2 := Except.ok.inj htwo
  have hlen : its.length = 1 := Except.ok.inj hone
  rw [← hmap, length_map, hlen] at hst
  cases hst

end Influxdb.Models
