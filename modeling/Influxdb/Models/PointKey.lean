import Influxdb.Lib.Lists
import Influxdb.Models.KeyText
import Influxdb.Models.Lines

/-!
# PointKey — the series key of a parsed point

A point keeps the key that `scanKey` has made.  Its name and its tags are read out of the key again: `ParseKeyBytes` and
`Name` unescape the measurement with different sets of special bytes, and `MakeKey` unescapes once more before it
escapes.  The key comes back exactly if none of these differences shows.
-/

namespace Influxdb.Models

open List Strconv

variable {x m : List Byte} {t : Tag} {tags : List Tag} {p : Point} {prec : String} {line : List Byte}

/-! ## Escaping -/

variable (c : Byte)

theorem esc_step (x : List Byte) : (if c ∈ x then esc (· == c) x else x) = esc (· == c) x := by
  split_ifs with h
  · rfl
  · refine (esc_of_not_mem fun d hd hdc => h ?_).symm
    rwa [← beq_iff_eq.mp hdc]

theorem unesc_step (x : List Byte) : (if c ∈ x then unesc (· == c) x else x) = unesc (· == c) x := by
  split_ifs with h
  · rfl
  · refine (unesc_of_not_mem fun d hd hdc => h ?_).symm
    rwa [← beq_iff_eq.mp hdc]

theorem escapeMeasurement_eq (x : List Byte) : escapeMeasurement x = esc commaOrSpace x := by
  rw [escapeMeasurement, escapeCodes, measurementEscapeCodes]
  simp only [foldl_cons, foldl_nil, esc_step]
  exact esc_esc (by decide) (by decide) x

theorem escapeTag_eq (x : List Byte) : escapeTag x = esc commaSpaceEquals x := by
  rw [escapeTag, escapeCodes, tagEscapeCodes]
  simp only [foldl_cons, foldl_nil, esc_step]
  rw [esc_esc (S := (· == comma)) (T := (· == space)) (by decide) (by decide)]
  exact esc_esc (by decide) (by decide) x

theorem unescapeMeasurement_eq (x : List Byte) : unescapeMeasurement x = unesc commaOrSpace x := by
  rw [unescapeMeasurement, unescapeCodes, measurementEscapeCodes]
  split_ifs with h
  · simp only [foldl_cons, foldl_nil, unesc_step]
    exact unesc_unesc (by decide) (by decide) (by decide) x
  · exact (unesc_of_no_backslash h).symm

theorem unescapeTag_eq (x : List Byte) : unescapeTag x = unesc commaSpaceEquals x := by
  rw [unescapeTag, unescapeCodes, tagEscapeCodes]
  split_ifs with h
  · simp only [foldl_cons, foldl_nil, unesc_step]
    rw [unesc_unesc (S := (· == comma)) (T := (· == space)) (by decide) (by decide) (by decide)]
    exact unesc_unesc (by decide) (by decide) (by decide) x
  · exact (unesc_of_no_backslash h).symm

theorem unescape_eq (x : List Byte) : unescape x = unesc isEscapeChar x := by
  rw [unescape]
  split_ifs with h
  · rcases h with h | h
    · rw [length_eq_zero_iff.mp h]
      rfl
    · exact (unesc_of_no_backslash h).symm
  · rfl

/-! ## Reading a key -/

/-- The tag that a raw tag stands for. -/
def unescapedTag (t : Tag) : Tag := ⟨unesc commaSpaceEquals t.key, unesc commaSpaceEquals t.value⟩

theorem scanTo_comma {y : List Byte} (pre : List Byte) (hx : Escaped (· == comma) (pre.getLastD 0) x)
    (hlast : x.getLastD (pre.getLastD 0) ≠ backslash) (hy : ∀ c ∈ y.head?, c = comma) :
    findUnescaped (· == comma) (pre ++ (x ++ y)) pre.length = pre.length + x.length := by
  rw [findUnescaped_append, runLen_append hx fun c hc => ⟨beq_iff_eq.mpr (hy c hc), hlast⟩]

theorem head?_rawTags (tags : List Tag) : ∀ c ∈ (rawTags tags).head?, c = comma := by
  cases tags with
  | nil =>
    intro c hc
    cases hc
  | cons t tags =>
    intro c hc
    cases hc
    rfl

theorem scanTo_name (hx : Escaped (· == comma) 0 x) (hlast : x.getLastD 0 ≠ backslash) (tags : List Tag) :
    scanTo (x ++ rawTags tags) 0 comma = (x.length, x) := by
  have hfind := scanTo_comma [] hx hlast (head?_rawTags tags)
  rw [nil_append, length_nil, Nat.zero_add] at hfind
  rw [scanTo, hfind, drop_zero, Nat.sub_zero, take_left]

theorem IsToken.scanTo_name (hm : IsMeasurement m) (tags : List Tag) :
    scanTo (m ++ rawTags tags) 0 comma = (m.length, m) :=
  Models.scanTo_name (hm.escaped_of (fun _ hc => ⟨hc, Bool.or_eq_true_iff.mpr (.inl hc)⟩) 0) hm.last tags

theorem walkTagsLoop_eq (hasEscape : Bool) : ∀ {tags : List Tag} (pre : List Byte) {n : ℕ}, (∀ t ∈ tags, IsTag t) →
    tags.length < n → walkTagsLoop (pre ++ rawTags tags) hasEscape n (pre.length + 1) =
      .ok (tags.map fun t => if hasEscape then ⟨unescapeTag t.key, unescapeTag t.value⟩ else t)
  | [], pre, n + 1, _, _ => by
    rw [walkTagsLoop, if_pos (by simp)]
    rfl
  | t :: tags, pre, n + 1, htags, hn => by
    have ht := htags t mem_cons_self
    have hrec := walkTagsLoop_eq hasEscape (pre ++ comma :: rawTag t) (n := n)
      (forall_mem_cons.mp htags).2 (by rw [length_cons] at hn; omega)
    have hkey := scanTo_equals ht.key (pre ++ [comma]) (t.value ++ rawTags tags)
    have hvalue := scanTo_comma (pre ++ [comma] ++ (t.key ++ [equals]))
      (ht.value.escaped_of (fun c hc => by rw [beq_iff_eq.mp hc]; exact ⟨rfl, rfl⟩) _)
      (by rw [getLastD_of_ne_nil ht.value.ne 0]; exact ht.value.last) (head?_rawTags tags)
    have hbuf : pre ++ rawTags (t :: tags) = pre ++ [comma] ++ (t.key ++ equals :: (t.value ++ rawTags tags)) := by
      rw [rawTags_cons, rawTag]
      simp
    have hbuf' : pre ++ [comma] ++ (t.key ++ [equals]) ++ (t.value ++ rawTags tags) = pre ++ rawTags (t :: tags) := by
      rw [hbuf]
      simp
    have hbuf'' : pre ++ comma :: rawTag t ++ rawTags tags = pre ++ rawTags (t :: tags) := by
      rw [rawTags_cons]
      simp
    have hlen : (pre ++ [comma] ++ (t.key ++ [equals])).length = pre.length + 1 + t.key.length + 1 := by
      rw [length_snoc, length_append, length_singleton]
    have hlen' : (pre ++ comma :: rawTag t).length + 1 = pre.length + 1 + t.key.length + 1 + t.value.length + 1 := by
      rw [length_append_rawTag, length_rawTag]
      omega
    have hdrop : ((pre ++ rawTags (t :: tags)).drop (pre.length + 1 + t.key.length + 1)).take t.value.length = t.value := by
      rw [← hbuf', ← hlen, drop_left, take_left]
    rw [← hbuf, length_append, length_singleton] at hkey
    rw [hbuf', hlen] at hvalue
    rw [hbuf'', hlen'] at hrec
    have hne : ¬t.value.length = 0 := fun h => ht.value.ne (length_eq_zero_iff.mp h)
    have hin : ¬(pre ++ rawTags (t :: tags)).length ≤ pre.length + 1 := by
      rw [rawTags_cons, length_append, length_cons, length_append, length_rawTag]
      omega
    rw [walkTagsLoop, if_neg hin, hkey]
    simp only [scanTagValue, hvalue, Nat.add_sub_cancel_left, hdrop, if_neg hne, hrec]
    simp only [bind, Except.bind, map_cons]

theorem length_le_count_rawTags (tags : List Tag) : tags.length ≤ (rawTags tags).count comma := by
  induction tags with
  | nil => exact le_rfl
  | cons t tags ih =>
    rw [rawTags_cons, length_cons, count_cons_self, count_append]
    omega

theorem mem_rawTags_of_mem {c : Byte} (ht : t ∈ tags) (hc : c ∈ t.key ∨ c ∈ t.value) : c ∈ rawTags tags := by
  rw [rawTags, mem_flatMap]
  refine ⟨t, ht, ?_⟩
  rw [rawTag]
  simp only [mem_cons, mem_append]
  tauto

/-- **The tags of a key** are its raw tags, unescaped. -/
theorem parseTags_eq (hm : IsMeasurement m) (htags : ∀ t ∈ tags, IsTag t) :
    parseTags (m ++ rawTags tags) = .ok (tags.map unescapedTag) := by
  have hne : m.length ≠ 0 := fun h => hm.ne (length_eq_zero_iff.mp h)
  have hloop := walkTagsLoop_eq (decide (backslash ∈ m ++ rawTags tags)) m (n := (m ++ rawTags tags).length + 1) htags
    (by
      have h := length_le_length_rawTags tags
      rw [length_append]
      omega)
  have hmap : (tags.map fun t => if decide (backslash ∈ m ++ rawTags tags) = true
      then (⟨unescapeTag t.key, unescapeTag t.value⟩ : Tag) else t) = tags.map unescapedTag := by
    refine map_congr_left fun t ht => ?_
    rw [unescapedTag, unescapeTag_eq, unescapeTag_eq]
    split_ifs with hesc
    · rfl
    · -- without a backslash there is nothing to unescape
      have hno : ¬(backslash ∈ t.key ∨ backslash ∈ t.value) := fun hc =>
        hesc (decide_eq_true (mem_append_right m (mem_rawTags_of_mem ht hc)))
      rw [unesc_of_no_backslash fun h => hno (.inl h), unesc_of_no_backslash fun h => hno (.inr h)]
  have hwalk : walkTags (m ++ rawTags tags) = .ok (tags.map unescapedTag) := by
    rw [walkTags, if_neg (by rw [length_append]; omega), hm.scanTo_name]
    simp only [if_neg hne]
    rw [hloop, hmap]
  rw [parseTags, hwalk]
  simp only [bind, Except.bind]
  rw [if_neg]
  have h := length_le_count_rawTags tags
  rw [length_map, count_append]
  omega

theorem scanMeasurement_end (hm : IsMeasurement m) :
    scanMeasurement m 0 = (m.length, .error (.error "missing fields")) := by
  have hfind := findUnescaped_token [] hm (z := []) fun d hd => by cases hd
  rw [append_nil, nil_append, length_nil, Nat.zero_add, Nat.zero_add] at hfind
  have hfirst := hm.not_all [] []
  rw [append_nil, nil_append, length_nil] at hfirst
  rw [scanMeasurement, if_neg (mt all_comma_iff.mp hfirst), hfind]
  simp

theorem parseKeyBytes_eq (hm : IsMeasurement m) (htags : ∀ t ∈ tags, IsTag t) :
    parseKeyBytes (m ++ rawTags tags) = .ok (unesc commaOrSpace m, tags.map unescapedTag) := by
  cases tags with
  | nil =>
    have hslice := slice_append [] m []
    simp only [nil_append, append_nil, length_nil, Nat.zero_add] at hslice
    rw [rawTags_nil, append_nil, parseKeyBytes, scanMeasurement_end hm]
    simp only [bind, Except.bind, hslice, unescapeMeasurement_eq, map_nil]
  | cons t tags =>
    have hscan := scanMeasurement_eq hm [] (rawTag t ++ rawTags tags) (d := comma) rfl
    have hslice := slice_append [] m (rawTags (t :: tags))
    rw [if_pos rfl] at hscan
    simp only [nil_append, length_nil, Nat.zero_add] at hscan hslice
    rw [parseKeyBytes, rawTags_cons, hscan]
    simp only [← rawTags_cons, bind, Except.bind, parseTags_eq hm htags, Nat.add_sub_cancel, hslice,
      unescapeMeasurement_eq]

/-! ## Making a key -/

/-- A raw tag after unescaping and escaping. -/
def reescapedTag (t : Tag) : Tag :=
  ⟨esc commaSpaceEquals (unesc commaSpaceEquals t.key), esc commaSpaceEquals (unesc commaSpaceEquals t.value)⟩

theorem esc_ne_nil {S : Byte → Bool} (h : x ≠ []) : esc S x ≠ [] := by
  cases x with
  | nil => exact absurd rfl h
  | cons c x =>
    by_cases hc : S c
    · rw [esc_cons_of_special hc]
      exact cons_ne_nil _ _
    · rw [esc_cons_of_not hc]
      exact cons_ne_nil _ _

theorem escapeTag_of_not_needsEscape {tags : List Tag} (h : ¬needsEscape tags) (ht : t ∈ tags) :
    escapeTag t.key = t.key ∧ escapeTag t.value = t.value := by
  have hno : ∀ c, commaSpaceEquals c → c ∉ t.key ∧ c ∉ t.value := by
    intro c hc
    rw [← not_or]
    intro hmem
    apply h
    rw [needsEscape, any_eq_true]
    refine ⟨t, ht, any_eq_true.mpr ⟨c, ?_, ?_⟩⟩
    · simpa [commaSpaceEquals, tagEscapeCodes, or_assoc] using hc
    · simpa using hmem
  rw [escapeTag_eq, escapeTag_eq]
  exact ⟨esc_of_not_mem fun c hc hs => (hno c hs).1 hc, esc_of_not_mem fun c hc hs => (hno c hs).2 hc⟩

theorem hashKey_eq {tags : List Tag} (h : ∀ t ∈ tags, t.value ≠ []) :
    hashKey tags = rawTags (tags.map fun t => ⟨escapeTag t.key, escapeTag t.value⟩) := by
  have hescaped : (if needsEscape tags then tags.map fun t => (⟨escapeTag t.key, escapeTag t.value⟩ : Tag) else tags) =
      tags.map fun t => ⟨escapeTag t.key, escapeTag t.value⟩ := by
    split_ifs with hneeds
    · rfl
    · conv_lhs => rw [← map_id tags]
      refine map_congr_left fun t ht => ?_
      obtain ⟨hk, hv⟩ := escapeTag_of_not_needsEscape hneeds ht
      rw [hk, hv]
      rfl
  rw [hashKey, hescaped, rawTags]
  refine flatMap_congr fun t ht => ?_
  obtain ⟨t', ht', rfl⟩ := mem_map.mp ht
  have hne : escapeTag t'.value ≠ [] := by
    rw [escapeTag_eq]
    exact esc_ne_nil (h t' ht')
  rw [if_neg fun hz => hne (length_eq_zero_iff.mp hz), rawTag]
  rfl

theorem hashKey_unescaped (htags : ∀ t ∈ tags, IsTag t) :
    hashKey (tags.map unescapedTag) = rawTags (tags.map reescapedTag) := by
  rw [hashKey_eq, map_map]
  · congr 1
    refine map_congr_left fun t _ => ?_
    simp only [Function.comp, unescapedTag, reescapedTag, escapeTag_eq]
  · refine forall_mem_map.mpr fun t' ht' => ?_
    exact unesc_ne_nil (htags t' ht').value.ne

theorem reescaped_key (ht : IsTag t) : (reescapedTag t).key = t.key :=
  esc_unesc (by decide) t.key (fun c hc => ht.key.head c hc) ht.key.escaped

theorem reescaped_value (ht : IsTag t) (hv : t.value.head? ≠ some equals) : (reescapedTag t).value = t.value := by
  refine esc_unesc (by decide) t.value (fun c hc hspecial => ?_) ht.value.escaped
  rw [commaSpaceEquals] at hspecial
  rcases Bool.or_eq_true_iff.mp hspecial with hs | hs
  · exact ht.value.head c hc hs
  · rw [beq_iff_eq.mp hs] at hc
    exact hv hc

theorem reescaped_value_equals (ht : IsTag t) (hv : t.value.head? = some equals) :
    (reescapedTag t).value = backslash :: t.value := by
  obtain ⟨c, v, hcv⟩ := exists_cons_of_ne_nil ht.value.ne
  have hc : c = equals := by
    rw [hcv] at hv
    exact Option.some.inj hv
  subst hc
  have hesc := ht.value.escaped
  rw [hcv] at hesc
  have hhead : ∀ d ∈ v.head?, ¬commaSpaceEquals d := by
    intro d hd hspecial
    cases v with
    | nil => cases hd
    | cons e v =>
      cases hd
      exact absurd (hesc.2.1 hspecial) (by decide)
  rw [reescapedTag, hcv, unesc_cons fun h => absurd h (by decide), esc_cons_of_special (by decide),
    esc_unesc (by decide) v hhead hesc.2]

theorem length_rawTag_le (ht : IsTag t) : (rawTag t).length ≤ (rawTag (reescapedTag t)).length := by
  rw [length_rawTag, length_rawTag, reescaped_key ht]
  by_cases hv : t.value.head? = some equals
  · rw [reescaped_value_equals ht hv, length_cons]
    omega
  · rw [reescaped_value ht hv]

theorem rawTags_reescaped_iff (htags : ∀ t ∈ tags, IsTag t) :
    rawTags (tags.map reescapedTag) = rawTags tags ↔ ∀ t ∈ tags, t.value.head? ≠ some equals := by
  constructor
  · intro h t ht hv
    -- a value that grows makes the whole text longer
    have hle : ∀ {l : List Tag}, (∀ t ∈ l, IsTag t) → (rawTags l).length ≤ (rawTags (l.map reescapedTag)).length := by
      intro l hl
      induction l with
      | nil => exact le_rfl
      | cons t l ih =>
        have h1 := length_rawTag_le (hl t mem_cons_self)
        have h2 := ih (forall_mem_cons.mp hl).2
        rw [map_cons, rawTags_cons, rawTags_cons, length_cons, length_cons, length_append, length_append]
        omega
    obtain ⟨l₁, l₂, rfl⟩ := append_of_mem ht
    have h1 := hle (l := l₁) (forall_mem_append.mp htags).1
    have h2 := hle (l := l₂) fun t' ht' => htags t' (mem_append_right _ (mem_cons_of_mem t ht'))
    have hlen := congrArg List.length h
    simp only [rawTags, map_append, map_cons, flatMap_append, flatMap_cons, length_append,
      length_cons, length_rawTag] at h1 h2 hlen
    rw [reescaped_key (htags t ht), reescaped_value_equals (htags t ht) hv, length_cons] at hlen
    omega
  · intro h
    congr 1
    have hid : tags.map reescapedTag = tags.map id := by
      refine map_congr_left fun t ht => ?_
      have hk := reescaped_key (htags t ht)
      have hv := reescaped_value (htags t ht) (h t ht)
      cases t
      simp only [reescapedTag, id] at hk hv ⊢
      rw [hk, hv]
    rw [hid, map_id]

/-! ## The series of a point -/

/-- The name and the tags that the index gets identify the key under which the values are stored. -/
def Canonical (p : Point) : Prop :=
  ∃ tags, p.tags = .ok tags ∧ parseKeyBytes p.key = .ok (p.name, tags) ∧ makeKey p.name tags = p.key

/-- The special bytes of the package escape that are not special in a measurement. -/
def quoteOrEquals : Bool := c == quote || c == equals

/-- A measurement that all routines read alike: no backslash right before a quote or an `=` sign, and no two
backslashes right before a comma or a blank. -/
def CleanMeasurement (m : List Byte) : Prop :=
  hasEscape quoteOrEquals m = false ∧ hasDoubleEscape commaOrSpace m = false

/-- The key section of a line is read alike by all routines: a clean measurement, and no raw tag value that starts with
an `=` sign. -/
def CleanKey (line : List Byte) : Prop :=
  ∀ ws m tags rest, KeyText line ws m tags rest → CleanMeasurement m ∧ ∀ t ∈ tags, t.value.head? ≠ some equals

theorem isEscapeChar_eq : isEscapeChar = fun c => commaOrSpace c || quoteOrEquals c := by
  funext c
  simp only [isEscapeChar, commaOrSpace, quoteOrEquals]
  cases c == comma <;> cases c == space <;> cases c == quote <;> rfl

/-- `Name` and `ParseKeyBytes` agree on measurements without a backslash before a quote or an `=` sign. -/
theorem unesc_measurement_iff (m : List Byte) :
    unesc commaOrSpace m = unesc isEscapeChar m ↔ hasEscape quoteOrEquals m = false := by
  rw [isEscapeChar_eq, ← unesc_unesc (by decide) (by decide) (by decide), eq_comm, unesc_eq_self_iff,
    hasEscape_unesc (by decide) (by decide) (by decide)]

/-- What `MakeKey` writes for a name comes back exactly if the name has no backslash before a comma or a blank. -/
theorem escapeMeasurement_iff (hm : IsMeasurement m) (hhead : ∀ c ∈ m.head?, ¬isWhitespace c) :
    esc commaOrSpace (unesc commaOrSpace (unesc commaOrSpace m)) = m ↔ hasDoubleEscape commaOrSpace m = false := by
  have hback : esc commaOrSpace (unesc commaOrSpace m) = m := by
    refine esc_unesc (by decide) m (fun c hc hs => ?_) hm.escaped
    rw [commaOrSpace] at hs
    rcases Bool.or_eq_true_iff.mp hs with hs | hs
    · exact hm.head c hc hs
    · rw [beq_iff_eq.mp hs] at hc
      exact hhead _ hc rfl
  rw [← hasEscape_unesc_self (by decide), ← unesc_eq_self_iff]
  constructor
  · intro h
    have hinj := congrArg (unesc commaOrSpace) (h.trans hback.symm)
    rwa [unesc_esc (by decide), unesc_esc (by decide)] at hinj
  · intro h
    rw [h, hback]

/-- **A point** is canonical exactly if its raw measurement and its raw tags are clean. -/
theorem canonical_iff (hm : IsMeasurement m) (hhead : ∀ c ∈ m.head?, ¬isWhitespace c)
    (htags : ∀ t ∈ tags, IsTag t) (hkey : p.key = m ++ rawTags tags) :
    Canonical p ↔ CleanMeasurement m ∧ ∀ t ∈ tags, t.value.head? ≠ some equals := by
  have hname : p.name = unesc isEscapeChar m := by
    rw [Point.name, Point.rawName, hkey, hm.scanTo_name, unescape_eq]
  have hptags : p.tags = .ok (tags.map unescapedTag) := by
    rw [Point.tags, hkey, parseTags_eq hm htags]
  have hcanon : Canonical p ↔ unesc commaOrSpace m = unesc isEscapeChar m ∧
      makeKey (unesc isEscapeChar m) (tags.map unescapedTag) = m ++ rawTags tags := by
    rw [Canonical, hptags, hname, hkey, parseKeyBytes_eq hm htags]
    constructor
    · rintro ⟨tags', htags', hparse, hmake⟩
      rw [← Except.ok.inj htags'] at hmake
      exact ⟨(Prod.mk.inj (Except.ok.inj hparse)).1, hmake⟩
    · rintro ⟨hparse, hmake⟩
      exact ⟨_, rfl, by rw [hparse], hmake⟩
  rw [hcanon, CleanMeasurement, unesc_measurement_iff, and_assoc]
  refine and_congr_right fun hquote => ?_
  rw [← (unesc_measurement_iff m).mpr hquote, makeKey, escapeMeasurement_eq, unescapeMeasurement_eq,
    hashKey_unescaped htags, ← escapeMeasurement_iff hm hhead, ← rawTags_reescaped_iff htags]
  have hlast : (esc commaOrSpace (unesc commaOrSpace (unesc commaOrSpace m))).getLastD 0 ≠ backslash := by
    rw [getLastD_esc, getLastD_unesc, getLastD_unesc]
    exact hm.last
  generalize unesc commaOrSpace (unesc commaOrSpace m) = u at hlast ⊢
  constructor
  · intro h
    -- the text up to the first open comma is the measurement on both sides
    have hesc : Escaped (· == comma) 0 (esc commaOrSpace u) :=
      (escaped_esc (by decide) u 0).mono fun c hc => Bool.or_eq_true_iff.mpr (.inl hc)
    have hraw := scanTo_name hesc hlast (tags.map reescapedTag)
    rw [h, hm.scanTo_name] at hraw
    have hm' := (Prod.mk.inj hraw).2
    rw [← hm'] at h
    exact ⟨hm'.symm, append_cancel_left h⟩
  · rintro ⟨h1, h2⟩
    rw [h1, h2]

theorem scanKey_of_parsePoint {t : Time}
    (h : parsePoint line t prec = .ok p) : ∃ pos, scanKey line 0 = .ok (pos, p.key) := by
  obtain ⟨pos, _, _, _, hpassed⟩ := parsePoint_iff.mp h
  exact ⟨pos, hpassed.key⟩

theorem keyOf_ok {key : List Byte} (h : keyOf m tags = .ok key) :
    (tags.map Tag.key).Nodup ∧ key = m ++ rawTags (sortByKey Tag.key tags) := by
  rw [keyOf] at h
  split_ifs at h with hres hnd
  exact ⟨hnd, (Except.ok.inj h).symm⟩

theorem KeyText.keyOf {ws rest : List Byte} {t : Time}
    (htext : KeyText line ws m tags rest) (h : parsePoint line t prec = .ok p) : Models.keyOf m tags = .ok p.key := by
  obtain ⟨pos, hscan⟩ := scanKey_of_parsePoint h
  exact (htext.of_scanKey hscan).1

theorem canonical_iff_cleanKey {t : Time} (h : parsePoint line t prec = .ok p) : Canonical p ↔ CleanKey line := by
  have hiff : ∀ {ws m tags rest}, KeyText line ws m tags rest →
      (Canonical p ↔ CleanMeasurement m ∧ ∀ t ∈ tags, t.value.head? ≠ some equals) := by
    intro ws m tags rest htext
    have hkey := (keyOf_ok (htext.keyOf h)).2
    rw [canonical_iff htext.measurement htext.head (fun t ht => htext.tags t (mem_sortByKey.mp ht)) hkey]
    simp only [mem_sortByKey]
  constructor
  · intro hp ws m tags rest htext
    exact (hiff htext).mp hp
  · intro hclean
    obtain ⟨pos, hscan⟩ := scanKey_of_parsePoint h
    obtain ⟨ws, m, tags, rest, htext⟩ := exists_keyText hscan
    exact (hiff htext).mpr (hclean ws m tags rest htext)

/-- **Series identity.**  For every input that is accepted, all points are canonical exactly if the key section of
every line is clean. -/
theorem points_canonical_iff {buf : List Byte} {t : Time} {prec : String} {points : List Point}
    (h : parsePointsWithPrecision buf t prec = .ok (points, [])) :
    (∀ p ∈ points, Canonical p) ↔ ∀ line ∈ pointLines buf, CleanKey line := by
  rw [parsePointsWithPrecision_eq] at h
  exact forall_mem_iff_of_forall₂ (forall₂_of_parseLines h) fun line p hp => canonical_iff_cleanKey hp

/-- A line with escaped bytes in its key section. -/
def escapedKeyLine : List Byte := ascii "cpu\\ 1,host=a\\=b v=1 7"

/-- A line with a backslash before a quote in its measurement. -/
def escapedQuoteLine : List Byte := ascii "a\\\"b v=1 7"

/-- The iff at an input with escaped bytes. -/
theorem points_canonical_escaped :
    (∀ p ∈ [(⟨ascii "cpu\\ 1,host=a\\=b", ascii "v=1", Time.ofUnixNano 7⟩ : Point)], Canonical p) ↔
      ∀ line ∈ pointLines escapedKeyLine, CleanKey line :=
  @points_canonical_iff _ (Time.ofUnixNano 0) "n" _ (by decide +kernel)

/-- `Name` takes the backslash before a quote away, and `ParseKeyBytes` does not. -/
theorem name_differs_from_parseKeyBytes :
    ∃ p, parsePointsWithPrecision escapedQuoteLine (Time.ofUnixNano 0) "n" = .ok ([p], []) ∧ ¬Canonical p := by
  refine ⟨⟨ascii "a\\\"b", ascii "v=1", Time.ofUnixNano 7⟩, by decide +kernel, ?_⟩
  rintro ⟨tags, -, hparse, -⟩
  have hkey : parseKeyBytes (ascii "a\\\"b") = .ok (ascii "a\\\"b", []) := by decide +kernel
  rw [hkey] at hparse
  have hname := (Prod.mk.inj (Except.ok.inj hparse)).1
  revert hname
  decide +kernel

end Influxdb.Models
