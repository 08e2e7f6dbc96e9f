import Influxdb.Models.NoPanic

/-!
# PointBytes — points that come as bytes

`NewPointFromBytes` takes the key and the fields of a point as they are and checks the values of the fields, but not
those of the strings.  Reading such a point panics exactly if a raw value is a single quote.
-/

namespace Influxdb.Models

open List Strconv

variable {buf fields : List Byte} {i n : ℕ} {p : Point}

/-! ## Tags of any key -/

theorem lt_scanTagValue (buf : List Byte) (i : ℕ) : i < (scanTagValue buf ((scanTo buf i equals).1 + 1)).1 :=
  (Nat.lt_succ_of_le (le_findUnescaped _ _ _)).trans_le (le_findUnescaped _ _ _)

theorem walkTagsLoop_ok (buf : List Byte) (hasEscape : Bool) : ∀ {n i : ℕ}, buf.length ≤ n + i →
    ∃ tags, walkTagsLoop buf hasEscape (n + 1) i = .ok tags := by
  intro n
  induction n with
  | zero =>
    intro i hn
    exact ⟨[], by rw [walkTagsLoop, if_pos (by omega)]⟩
  | succ n ih =>
    intro i hn
    rw [walkTagsLoop]
    by_cases hend : buf.length ≤ i
    · rw [if_pos hend]
      exact ⟨[], rfl⟩
    · rw [if_neg hend]
      have hlt := lt_scanTagValue buf i
      simp only
      by_cases hvalue : (scanTagValue buf ((scanTo buf i equals).1 + 1)).2.length = 0
      · rw [if_pos hvalue]
        exact ih (by omega)
      · obtain ⟨tags, htags⟩ := ih (i := (scanTagValue buf ((scanTo buf i equals).1 + 1)).1 + 1) (by omega)
        rw [if_neg hvalue, htags]
        exact ⟨_, rfl⟩

theorem count_drop_lt {q : ℕ} (q' : ℕ) (hq : buf[q]? = some comma) (h : q < q') :
    (buf.drop q').count comma + 1 ≤ (buf.drop q).count comma := by
  obtain ⟨hlt, hget⟩ := List.getElem?_eq_some_iff.mp hq
  have hsub : ((buf.drop (q + 1)).drop (q' - (q + 1))).Sublist (buf.drop (q + 1)) := drop_sublist _ _
  rw [drop_drop, show q + 1 + (q' - (q + 1)) = q' by omega] at hsub
  rw [drop_eq_getElem_cons hlt, hget, count_cons_self]
  have := hsub.count_le comma
  omega

theorem length_walkTagsLoop (hasEscape : Bool) : ∀ {n i q : ℕ} {tags : List Tag}, buf[q]? = some comma → q ≤ i →
    walkTagsLoop buf hasEscape n i = .ok tags → tags.length ≤ (buf.drop q).count comma := by
  intro n
  induction n with
  | zero =>
    intro i q tags _ _ h
    cases h
  | succ n ih =>
    intro i q tags hq hqi h
    rw [walkTagsLoop] at h
    by_cases hend : buf.length ≤ i
    · rw [if_pos hend] at h
      cases h
      exact Nat.zero_le _
    · rw [if_neg hend] at h
      have hlt := lt_scanTagValue buf i
      -- the next round starts behind the buffer, at a comma or right behind one
      obtain ⟨r, hr⟩ : ∃ r, r = scanTagValue buf ((scanTo buf i equals).1 + 1) := ⟨_, rfl⟩
      have hnext : ∀ {j : ℕ} {tags' : List Tag}, r.1 ≤ j →
          walkTagsLoop buf hasEscape n j = .ok tags' → tags'.length + 1 ≤ (buf.drop q).count comma := by
        intro j tags' hj htags'
        have hone : 1 ≤ (buf.drop q).count comma := by
          have := count_drop_lt (q + 1) hq (Nat.lt_succ_self q)
          omega
        by_cases hin : r.1 < buf.length
        · subst hr
          obtain ⟨c, hc, hstop⟩ := findUnescaped_stop hin
          rw [beq_iff_eq.mp hstop] at hc
          have hrec := ih hc hj htags'
          have hdrop := count_drop_lt _ hq (hqi.trans_lt hlt)
          exact (Nat.add_le_add_right hrec 1).trans hdrop
        · cases n with
          | zero => cases htags'
          | succ n =>
            rw [walkTagsLoop, if_pos (by omega)] at htags'
            cases htags'
            exact hone
      simp only [← hr] at h
      by_cases hvalue : r.2.length = 0
      · rw [if_pos hvalue] at h
        have := hnext (Nat.le_refl _) h
        omega
      · rw [if_neg hvalue] at h
        obtain ⟨tags', htags', h⟩ := bind_eq_ok h
        cases h
        rw [length_cons]
        exact hnext (Nat.le_succ _) htags'

theorem exists_parseTags (buf : List Byte) : ∃ tags, parseTags buf = .ok tags := by
  have hwalk : ∃ tags, walkTags buf = .ok tags ∧ tags.length ≤ buf.count comma := by
    rw [walkTags]
    split_ifs with hempty
    · exact ⟨[], rfl, Nat.zero_le _⟩
    · simp only
      split_ifs with hname
      · exact ⟨[], rfl, Nat.zero_le _⟩
      · obtain ⟨tags, htags⟩ := walkTagsLoop_ok buf (decide (backslash ∈ buf)) (n := buf.length)
          (i := (scanTo buf 0 comma).1 + 1) (by omega)
        refine ⟨tags, htags, ?_⟩
        by_cases hin : (scanTo buf 0 comma).1 < buf.length
        · obtain ⟨c, hc, hstop⟩ := findUnescaped_stop hin
          rw [beq_iff_eq.mp hstop] at hc
          exact (length_walkTagsLoop _ hc (Nat.le_succ _) htags).trans ((drop_sublist _ _).count_le comma)
        · rw [walkTagsLoop, if_pos (by omega)] at htags
          cases htags
          exact Nat.zero_le _
  obtain ⟨tags, htags, hle⟩ := hwalk
  refine ⟨tags, ?_⟩
  rw [parseTags, htags]
  simp only [bind, Except.bind]
  rw [if_neg (by omega)]

/-! ## The raw values of the fields -/

/-- The raw values of the fields, as the bytes are split from a position on. -/
def rawValuesFrom (fields : List Byte) : ℕ → ℕ → List (List Byte)
  | 0, _ => []
  | n + 1, start =>
    if fields.length ≤ start then []
    else
      let (stop, value) := scanFieldValue fields ((scanTo fields start equals).1 + 1)
      value :: rawValuesFrom fields n (stop + 1)

def rawValues (fields : List Byte) : List (List Byte) := rawValuesFrom fields (fields.length + 1) 0

theorem iterate_ok : ∀ {n i : ℕ}, fields.length ≤ n + i → ∃ its, iterate fields (n + 1) i = .ok its ∧
    its.map (fun it => (it.fieldType, it.valueBuf)) = (rawValuesFrom fields (n + 1) i).map fieldTypeOf := by
  intro n
  induction n with
  | zero =>
    intro i hn
    refine ⟨[], ?_, ?_⟩
    · rw [iterate, next, if_pos (by omega)]
    · rw [rawValuesFrom, if_pos (by omega)]
      rfl
  | succ n ih =>
    intro i hn
    rw [iterate, next, rawValuesFrom]
    by_cases hend : fields.length ≤ i
    · rw [if_pos hend, if_pos hend]
      exact ⟨[], rfl, rfl⟩
    · have hle : i ≤ (scanTo fields i equals).1 := le_findUnescaped _ _ _
      have hle' : (scanTo fields i equals).1 + 1 ≤ (scanFieldValue fields ((scanTo fields i equals).1 + 1)).1 :=
        Nat.le_add_right _ _
      obtain ⟨its, hits, hmap⟩ := ih (i := (scanFieldValue fields ((scanTo fields i equals).1 + 1)).1 + 1) (by omega)
      rw [if_neg hend, if_neg hend]
      simp only [hits]
      refine ⟨_, rfl, ?_⟩
      rw [map_cons, map_cons, hmap]

theorem exists_fieldIterator (p : Point) : ∃ its, p.fieldIterator = .ok its ∧
    its.map (fun it => (it.fieldType, it.valueBuf)) = (rawValues p.fields).map fieldTypeOf :=
  iterate_ok (by omega)

theorem fieldTypeOf_quote {v : List Byte} : fieldTypeOf v = (.string, [quote]) ↔ v = [quote] := by
  constructor
  · intro h
    match v with
    | [] => cases h
    | c :: x =>
      rw [fieldTypeOf] at h
      split_ifs at h
      · exact (Prod.mk.inj h).2
      · cases h
      · cases h
      · cases h
      · cases h
  · rintro rfl
    rfl

theorem fieldTypeOf_string {v w : List Byte} (h : fieldTypeOf v = (.string, w)) : ∃ x, w = quote :: x := by
  match v with
  | [] => cases h
  | c :: x =>
    rw [fieldTypeOf] at h
    split_ifs at h with hc
    · exact ⟨x, by rw [← (Prod.mk.inj h).2, hc]⟩
    · cases h
    · cases h
    · cases h
    · cases h

/-! ## Accessors -/

theorem noPanic_ofParse {α β : Type} (f : α → β) (r : Except String α) : NoPanic (ofParse f r) := by
  cases r with
  | error msg => exact .error msg
  | ok a => exact .ok (f a)

/-- **An accessor panics** exactly on a string of one byte. -/
theorem noPanic_value_iff {it : FieldIterator} (h : it.fieldType = .string → ∃ x, it.valueBuf = quote :: x) :
    NoPanic it.value ↔ ¬(it.fieldType = .string ∧ it.valueBuf = [quote]) := by
  rw [FieldIterator.value]
  cases hty : it.fieldType with
  | string =>
    obtain ⟨x, hx⟩ := h hty
    rw [FieldIterator.stringValue, hx]
    simp only [true_and]
    cases x with
    | nil =>
      refine ⟨fun hno => ?_, fun hne => absurd rfl hne⟩
      obtain ⟨msg, hmsg⟩ := hno _ rfl
      cases hmsg
    | cons c x =>
      refine ⟨fun _ => by simp, fun _ => ?_⟩
      rw [slice_ok (by simp) (by simp)]
      exact .ok _
  | integer | float | boolean | unsigned => exact ⟨fun _ => by simp, fun _ => noPanic_ofParse _ _⟩
  | empty => exact ⟨fun _ => by simp, fun _ => .ok _⟩

theorem noPanic_unmarshalFields {its : List FieldIterator} (h : ∀ it ∈ its, NoPanic it.value) :
    ∀ fields, NoPanic (unmarshalFields its fields) := by
  induction its with
  | nil => exact fun fields => .ok _
  | cons it its ih =>
    intro fields
    have hrec := ih (forall_mem_cons.mp h).2
    rw [unmarshalFields]
    refine .ite (hrec fields) <| .bind (h it mem_cons_self) fun v _ => ?_
    cases v with
    | none => exact hrec _
    | some v => exact hrec _

/-- Reading a point does not panic: its tags, its fields, and a walk over its fields with the accessor of each field's
type.  `Name` and `String` have no index that could leave its buffer. -/
structure ReadsSafely (p : Point) : Prop where
  tags : NoPanic p.tags
  fields : NoPanic p.readFields
  walk : ∃ its, p.fieldIterator = .ok its ∧ ∀ it ∈ its, NoPanic it.value

theorem readsSafely_iff (p : Point) : ReadsSafely p ↔ ∀ v ∈ rawValues p.fields, v ≠ [quote] := by
  obtain ⟨its, hits, hmap⟩ := exists_fieldIterator p
  have hmem : ∀ it ∈ its, (it.fieldType, it.valueBuf) ∈ (rawValues p.fields).map fieldTypeOf := by
    intro it hit
    rw [← hmap]
    exact mem_map_of_mem hit
  have hstring : ∀ it ∈ its, it.fieldType = .string → ∃ x, it.valueBuf = quote :: x := by
    intro it hit hty
    obtain ⟨v, -, hv⟩ := mem_map.mp (hmem it hit)
    rw [hty] at hv
    exact fieldTypeOf_string hv
  have hvalues : (∀ it ∈ its, NoPanic it.value) ↔ ∀ v ∈ rawValues p.fields, v ≠ [quote] := by
    constructor
    · rintro h v hv rfl
      have hmem : (FieldType.string, [quote]) ∈ its.map fun it => (it.fieldType, it.valueBuf) := by
        rw [hmap]
        exact mem_map.mpr ⟨_, hv, rfl⟩
      obtain ⟨it, hit, heq⟩ := mem_map.mp hmem
      exact (noPanic_value_iff (hstring it hit)).mp (h it hit) (Prod.mk.inj heq)
    · intro h it hit
      refine (noPanic_value_iff (hstring it hit)).mpr fun hone => ?_
      obtain ⟨v, hv, heq⟩ := mem_map.mp (hmem it hit)
      rw [hone.1, hone.2] at heq
      exact h v hv (fieldTypeOf_quote.mp heq)
  rw [← hvalues]
  constructor
  · rintro ⟨-, -, its', hits', hno⟩
    rw [hits] at hits'
    rwa [Except.ok.inj hits']
  · intro hno
    obtain ⟨tags, htags⟩ := exists_parseTags p.key
    refine ⟨?_, ?_, its, hits, hno⟩
    · rw [Point.tags, htags]
      exact .ok _
    · rw [Point.readFields, hits]
      exact noPanic_unmarshalFields hno []

/-- **No input makes point handling panic**, but for one kind: parsing gives an answer for every input, and a point
that came as bytes reads without a panic exactly if no raw value of its fields is a single quote. -/
theorem point_handling_iff (buf : List Byte) (t : Time) (prec : String) (b : List Byte) :
    (∃ r, parsePointsWithPrecision buf t prec = .ok r) ∧
    ∀ p, newPointFromBytes b = .ok p → (ReadsSafely p ↔ ∀ v ∈ rawValues p.fields, v ≠ [quote]) :=
  ⟨exists_parsePoints buf t prec, fun p _ => readsSafely_iff p⟩

/-- A point as bytes: a key, fields, and a time at the Unix epoch in UTC. -/
def pointBytes (key fields : List Byte) : List Byte :=
  bePut 4 key.length ++ key ++ (bePut 4 fields.length ++ fields) ++
    (1 :: bePut 8 62135596800 ++ bePut 4 0 ++ [255, 255])

theorem point_handling_string : ReadsSafely ⟨ascii "m", ascii "a=\"x\"", Time.ofUnixNano 0⟩ ↔
      ∀ v ∈ rawValues (ascii "a=\"x\""), v ≠ [quote] :=
  (point_handling_iff [] (Time.ofUnixNano 0) "ns" (pointBytes (ascii "m") (ascii "a=\"x\""))).2 _
    (by decide +kernel)

/-- A field whose value is a single quote passes the check of `NewPointFromBytes`, and `Fields` panics on it. -/
theorem fields_panics_on_single_quote :
    ∃ p, newPointFromBytes (pointBytes (ascii "m") (ascii "a=\"")) = .ok p ∧ ¬NoPanic p.readFields := by
  refine ⟨⟨ascii "m", ascii "a=\"", Time.ofUnixNano 0⟩, by decide +kernel, fun hno => ?_⟩
  obtain ⟨msg, hmsg⟩ := hno (.panic "slice bounds out of range") (by decide +kernel)
  cases hmsg

end Influxdb.Models
