import Influxdb.Lib.Except
import Influxdb.Models.Points
import Mathlib.Data.List.TakeWhile

/-!
# KeyText — what `scanKey` accepts

The key section of a line is a measurement and tags, each a token: a text in which the separators stand behind a
backslash.  `scanKey` accepts a line exactly if it starts with such a section, no tag key is reserved and no two tag
keys are equal; its answer is then the measurement with the tags sorted by their raw keys.
-/

namespace Influxdb.Models

open List Tag
open Prod (fst snd)

variable {buf pre x y z m : List Byte} {first stop S : Byte → Bool} {p d : Byte} {i : ℕ} {j : ℕ} {q : ℕ × Tag}

/-! ## Tokens -/

/-- A text that a scanner takes whole: its first byte is none of `first`, the stop bytes behind it stand behind
backslashes, and it does not end in a backslash. -/
structure IsToken (first stop : Byte → Bool) (x : List Byte) : Prop where
  ne : x ≠ []
  head : ∀ c ∈ x.head?, ¬first c
  escaped : Escaped stop backslash x
  last : x.getLastD 0 ≠ backslash

theorem IsToken.escaped_of (h : IsToken first stop x) (hS : ∀ c, S c → first c ∧ stop c) (p : Byte) : Escaped S p x := by
  have hmono := h.escaped.mono fun c hc => (hS c hc).2
  cases x with
  | nil => trivial
  | cons c x => exact ⟨fun hc => absurd (hS c hc).1 (h.head c rfl), hmono.2⟩

theorem IsToken.last_cons {c : Byte} (h : IsToken first stop (c :: x)) : x.getLastD c ≠ backslash := by
  have hlast := h.last
  rwa [getLastD_cons] at hlast

theorem getLastD_append (x y : List Byte) (c : Byte) : (x ++ y).getLastD c = y.getLastD (x.getLastD c) := by
  induction x generalizing c with
  | nil => rfl
  | cons d x ih => rw [cons_append, getLastD_cons, getLastD_cons, ih]

theorem getLastD_of_ne_nil (h : x ≠ []) (d : Byte) : x.getLastD p = x.getLastD d := by
  cases x with
  | nil => exact absurd rfl h
  | cons c x => rw [getLastD_cons, getLastD_cons]

theorem prevByte_append (pre w : List Byte) : prevByte (pre ++ w) pre.length = pre.getLastD 0 := by
  induction pre using reverseRecOn with
  | nil => rfl
  | append_singleton pre c _ =>
    rw [prevByte, if_neg (by simp), getLastD_concat]
    simp

theorem findUnescaped_append (stop : Byte → Bool) (pre x : List Byte) :
    findUnescaped stop (pre ++ x) pre.length = pre.length + runLen stop (pre.getLastD 0) x := by
  rw [findUnescaped, prevByte_append, drop_left]

theorem findUnescaped_cons (stop : Byte → Bool) (pre : List Byte) (c : Byte) (x : List Byte) :
    findUnescaped stop (pre ++ c :: x) (pre.length + 1) = pre.length + 1 + runLen stop c x := by
  have h := findUnescaped_append stop (pre ++ [c]) x
  rwa [append_assoc, singleton_append, length_append, length_singleton, getLastD_concat] at h

theorem findUnescaped_token (pre : List Byte) (hx : IsToken first stop x) (hz : ∀ d ∈ z.head?, stop d) :
    findUnescaped stop (pre ++ (x ++ z)) (pre.length + 1) = pre.length + x.length := by
  cases x with
  | nil => exact absurd rfl hx.ne
  | cons c x =>
    rw [cons_append, findUnescaped_cons, runLen_append hx.escaped.2 fun d hd => ⟨hz d hd, hx.last_cons⟩, length_cons]
    omega

theorem exists_token (stop : Byte → Bool) (hfirst : ¬x.head?.all first) (pre : List Byte) :
    ∃ t z, x = t ++ z ∧ findUnescaped stop (pre ++ x) (pre.length + 1) = pre.length + t.length ∧
      (z ≠ [] → IsToken first stop t) ∧ ∀ d ∈ z.head?, stop d := by
  cases x with
  | nil => exact absurd rfl hfirst
  | cons c x =>
    obtain ⟨y, z, rfl, hlen, hesc, hz⟩ := runLen_spec stop c x
    refine ⟨c :: y, z, rfl, ?_, fun hzne => ⟨cons_ne_nil _ _, ?_, ?_, ?_⟩, fun d hd => (hz d hd).1⟩
    · rw [findUnescaped_cons, ← hlen, length_cons]
      omega
    · rintro d ⟨⟩
      exact hfirst
    · exact ⟨fun _ => rfl, hesc⟩
    · obtain ⟨d, z', rfl⟩ := exists_cons_of_ne_nil hzne
      rw [getLastD_cons]
      exact (hz d rfl).2

theorem length_snoc (x y : List Byte) (c : Byte) : (x ++ (y ++ [c])).length = x.length + y.length + 1 := by
  simp [Nat.add_assoc]

theorem append_snoc (x y z : List Byte) (c : Byte) : x ++ (y ++ c :: z) = x ++ (y ++ [c]) ++ z := by simp

theorem getElem?_append_length (pre x z : List Byte) : (pre ++ (x ++ z))[pre.length + x.length]? = z.head? := by
  rw [← append_assoc, ← length_append, getElem?_append_right (Nat.le_refl _), Nat.sub_self, head?_eq_getElem?]

theorem getElem?_length (pre x : List Byte) : (pre ++ x)[pre.length]? = x.head? := by
  simpa using getElem?_append_length pre [] x

theorem IsToken.not_all (h : IsToken first stop x) (pre z : List Byte) : ¬(pre ++ (x ++ z))[pre.length]?.all first := by
  obtain ⟨c, x, rfl⟩ := exists_cons_of_ne_nil h.ne
  rw [getElem?_length]
  exact h.head c rfl

/-! ## The measurement -/

/-- A text that `scanMeasurement` takes for a measurement. -/
abbrev IsMeasurement (x : List Byte) : Prop := IsToken (· == comma) commaOrSpace x

variable {o : Option Byte}

theorem all_comma_iff : o = none ∨ o = some comma ↔ o.all (· == comma) := by
  cases o <;> simp

theorem scanMeasurement_eq (hm : IsMeasurement m) (pre z : List Byte) (hd : commaOrSpace d) :
    scanMeasurement (pre ++ (m ++ d :: z)) pre.length =
      if d = comma then (pre.length + m.length + 1, .ok .tagKey) else (pre.length + m.length, .ok .fields) := by
  rw [scanMeasurement, if_neg (mt all_comma_iff.mp (hm.not_all pre _)), findUnescaped_token pre hm (by simpa using hd)]
  simp only [getElem?_append_length, head?_cons]

theorem scanMeasurement_ok {s : ScanState} (h : scanMeasurement (pre ++ x) pre.length = (j, .ok s)) :
    ∃ m d z, x = m ++ d :: z ∧ IsMeasurement m ∧ commaOrSpace d := by
  rw [scanMeasurement, getElem?_length] at h
  split_ifs at h with hfirst
  · cases h
  · obtain ⟨t, z, hx, hfind, htok, hz⟩ := exists_token commaOrSpace (mt all_comma_iff.mpr hfirst) pre
    rw [hfind, hx] at h
    simp only [getElem?_append_length] at h
    cases z with
    | nil => cases h
    | cons d z => exact ⟨t, d, z, hx, htok (cons_ne_nil _ _), hz d rfl⟩

/-! ## Tags -/

/-- A tag as it stands in a line. -/
def rawTag (t : Tag) : List Byte := t.key ++ equals :: t.value

/-- Tags as they stand in a line, a comma before each. -/
def rawTags (tags : List Tag) : List Byte := tags.flatMap fun t => comma :: rawTag t

/-- A tag whose texts the scanners take. -/
structure IsTag (t : Tag) : Prop where
  key : IsToken commaSpaceEquals commaSpaceEquals t.key
  value : IsToken commaOrSpace commaSpaceEquals t.value

/-- Where tags start that follow each other from `i` on, and where the next one would. -/
def tagStarts : ℕ → List Tag → List ℕ
  | i, [] => [i]
  | i, t :: tags => i :: tagStarts (i + (rawTag t).length + 1) tags

variable {t : Tag} {tags : List Tag}

@[simp] theorem rawTags_nil : rawTags [] = [] := rfl

theorem rawTags_cons (t : Tag) (tags : List Tag) : rawTags (t :: tags) = comma :: (rawTag t ++ rawTags tags) := rfl

theorem length_rawTag (t : Tag) : (rawTag t).length = t.key.length + 1 + t.value.length := by
  rw [rawTag, length_append, length_cons]
  omega

theorem eq_space (hd : commaOrSpace d) (hne : d ≠ comma) : d = space :=
  beq_iff_eq.mp ((Bool.or_eq_true_iff.mp hd).resolve_left fun h => hne (beq_iff_eq.mp h))

theorem length_append_rawTag (x : List Byte) (t : Tag) :
    (x ++ comma :: rawTag t).length = x.length + 1 + (rawTag t).length := by
  rw [length_append, length_cons]
  omega

theorem exists_separator (tags : List Tag) (z : List Byte) :
    ∃ d w, rawTags tags ++ space :: z = d :: w ∧ commaOrSpace d := by
  cases tags with
  | nil => exact ⟨_, _, rfl, rfl⟩
  | cons t tags => exact ⟨_, _, rfl, rfl⟩

theorem length_le_length_rawTags (tags : List Tag) : tags.length ≤ (rawTags tags).length := by
  induction tags with
  | nil => exact le_rfl
  | cons t tags ih =>
    rw [rawTags_cons, length_cons, length_cons, length_append]
    omega

theorem all_commaSpaceEquals_iff : o ∈ [none, some space, some comma, some equals] ↔ o.all commaSpaceEquals := by
  cases o <;> simp [commaSpaceEquals, or_left_comm, or_assoc]

theorem scanTagsKey_eq (hk : IsToken commaSpaceEquals commaSpaceEquals x) (pre z : List Byte) :
    scanTagsKey (pre ++ (x ++ equals :: z)) pre.length = (pre.length + x.length + 1, .ok ()) := by
  rw [scanTagsKey, if_neg (mt all_commaSpaceEquals_iff.mp (hk.not_all pre _)), findUnescaped_token pre hk (by simp; rfl)]
  simp only [getElem?_append_length, head?_cons, if_true]

theorem scanTagsKey_ok (h : scanTagsKey (pre ++ x) pre.length = (j, .ok ())) :
    ∃ k z, x = k ++ equals :: z ∧ IsToken commaSpaceEquals commaSpaceEquals k := by
  rw [scanTagsKey, getElem?_length] at h
  split_ifs at h with hfirst
  · cases h
  · obtain ⟨t, z, hx, hfind, htok, -⟩ := exists_token commaSpaceEquals (mt all_commaSpaceEquals_iff.mpr hfirst) pre
    rw [hfind, hx] at h
    simp only [getElem?_append_length] at h
    cases z with
    | nil => cases h
    | cons d z =>
      by_cases hd : d = equals
      · exact ⟨t, z, hd ▸ hx, htok (cons_ne_nil _ _)⟩
      · rw [head?_cons, if_neg fun heq => hd (Option.some.inj heq)] at h
        cases h

theorem all_commaOrSpace_iff : o ∈ [none, some comma, some space] ↔ o.all commaOrSpace := by
  cases o <;> simp [commaOrSpace]

theorem scanTagsValue_eq (hv : IsToken commaOrSpace commaSpaceEquals x) (pre z : List Byte) (hd : commaOrSpace d) :
    scanTagsValue (pre ++ (x ++ d :: z)) pre.length =
      if d = comma then (pre.length + x.length + 1, .ok .tagKey) else (pre.length + x.length, .ok .fields) := by
  have hstop : commaSpaceEquals d := Bool.or_eq_true_iff.mpr (.inl hd)
  have hne : d ≠ equals := by
    rintro rfl
    cases hd
  rw [scanTagsValue, if_neg (mt all_commaOrSpace_iff.mp (hv.not_all pre _)), findUnescaped_token pre hv (by simpa using hstop)]
  simp only [getElem?_append_length, head?_cons, if_neg hne]

theorem scanTagsValue_ok {s : ScanState} (h : scanTagsValue (pre ++ x) pre.length = (j, .ok s)) :
    ∃ v d z, x = v ++ d :: z ∧ IsToken commaOrSpace commaSpaceEquals v ∧ commaOrSpace d := by
  rw [scanTagsValue, getElem?_length] at h
  split_ifs at h with hfirst
  · cases h
  · obtain ⟨t, z, hx, hfind, htok, hz⟩ := exists_token commaSpaceEquals (mt all_commaOrSpace_iff.mpr hfirst) pre
    rw [hfind, hx] at h
    simp only [getElem?_append_length] at h
    cases z with
    | nil => cases h
    | cons d z =>
      refine ⟨t, d, z, hx, htok (cons_ne_nil _ _), (Bool.or_eq_true_iff.mp (hz d rfl)).resolve_right fun hd => ?_⟩
      obtain rfl := beq_iff_eq.mp hd
      cases h

/-- The loop of `scanTags` without the slice that the starts are written to. -/
def scanStarts (buf : List Byte) : ℕ → ScanState → ℕ → List ℕ → ℕ × Except Fault (List ℕ)
  | 0, _, i, _ => (i, .error .diverge)
  | n + 1, .tagKey, i, starts =>
    match scanTagsKey buf i with
    | (i', .error e) => (i', .error e)
    | (i', .ok _) => scanStarts buf n .tagValue i' (starts ++ [i])
  | n + 1, .tagValue, i, starts =>
    match scanTagsValue buf i with
    | (i', .error e) => (i', .error e)
    | (i', .ok state) => scanStarts buf n state i' starts
  | _ + 1, .fields, i, starts => (i, .ok (starts ++ [i + 1]))

/-- The slice is not empty, and the starts are within it. -/
def Indices.Room (s : Indices) : Prop := 0 < s.len ∧ s.starts.length ≤ s.len

theorem Indices.Room.put {s : Indices} (h : s.Room) {n : ℕ} (hn : s.len < n) (i : ℕ) :
    ∃ len, s.put n i = .ok ⟨s.starts ++ [i], len⟩ ∧ Room ⟨s.starts ++ [i], len⟩ := by
  obtain ⟨hpos, hle⟩ := h
  unfold Indices.put Room
  simp only [length_append, length_singleton]
  split_ifs with hfull
  · exact ⟨n, rfl, by omega⟩
  · omega
  · exact ⟨s.len, rfl, by omega⟩
  · omega

/-- **The slice grows in time.** -/
theorem scanTagsLoop_eq {buf : List Byte} : ∀ {n : ℕ} {state : ScanState} {i : ℕ} {s : Indices}, s.Room →
    scanTagsLoop buf n state i s = scanStarts buf n state i s.starts
  | 0, _, _, _, _ => rfl
  | n + 1, .tagKey, i, s, h => by
    obtain ⟨len, hput, hroom⟩ := h.put (n := 2 * s.len) (by have := h.1; omega) i
    rw [scanTagsLoop, scanStarts, hput]
    rcases scanTagsKey buf i with ⟨i', e | _⟩
    · rfl
    · exact scanTagsLoop_eq hroom
  | n + 1, .tagValue, i, s, h => by
    rw [scanTagsLoop, scanStarts]
    rcases scanTagsValue buf i with ⟨i', e | state⟩
    · rfl
    · exact scanTagsLoop_eq h
  | n + 1, .fields, i, s, h => by
    obtain ⟨len, hput, -⟩ := h.put (Nat.lt_succ_self s.len) (i + 1)
    rw [scanTagsLoop, scanStarts, hput]
    rfl

theorem scanTags_eq (buf : List Byte) (i : ℕ) : scanTags buf i = scanStarts buf (2 * buf.length + 2) .tagKey i [] :=
  scanTagsLoop_eq ⟨by decide, by simp⟩

theorem scanStarts_eq (z : List Byte) : ∀ tags t pre n indices,
    IsTag t → (∀ t ∈ tags, IsTag t) → 2 * tags.length + 2 < n →
    scanStarts (pre ++ (rawTag t ++ (rawTags tags ++ space :: z))) n .tagKey pre.length indices =
      (pre.length + (rawTag t ++ rawTags tags).length, .ok (indices ++ tagStarts pre.length (t :: tags)))
  | tags, t, pre, n + 2, indices, ht, htags, hn => by
    obtain ⟨d, w, hw, hd⟩ := exists_separator tags z
    -- the key, and the value behind it
    have hkey : scanTagsKey (pre ++ (rawTag t ++ d :: w)) pre.length = (pre.length + t.key.length + 1, .ok ()) := by
      rw [rawTag, append_assoc, cons_append]
      exact scanTagsKey_eq ht.key pre _
    have hvalue := scanTagsValue_eq ht.value (pre ++ (t.key ++ [equals])) w hd
    have hbuf : pre ++ (t.key ++ [equals]) ++ (t.value ++ d :: w) = pre ++ (rawTag t ++ d :: w) := by
      simp [rawTag]
    have hend : pre.length + t.key.length + 1 + t.value.length = pre.length + (rawTag t).length := by
      rw [length_rawTag]
      omega
    rw [hbuf, length_snoc, hend] at hvalue
    rw [hw, scanStarts, hkey]
    simp only [scanStarts]
    rw [hvalue]
    cases tags with
    | nil =>
      cases hw
      obtain ⟨n, rfl⟩ : ∃ k, n = k + 1 := ⟨n - 1, by simp at hn; omega⟩
      rw [if_neg (show space ≠ comma by decide)]
      simp [scanStarts, tagStarts]
    | cons t' tags =>
      rw [rawTags_cons, cons_append] at hw
      cases hw
      rw [if_pos rfl]
      have hrec := scanStarts_eq z tags t' (pre ++ (rawTag t ++ [comma])) n (indices ++ [pre.length])
        (htags t' mem_cons_self) (forall_mem_cons.mp htags).2
        (by rw [length_cons] at hn; omega)
      have hbuf' : pre ++ (rawTag t ++ [comma]) ++ (rawTag t' ++ (rawTags tags ++ space :: z)) =
          pre ++ (rawTag t ++ comma :: (rawTag t' ++ rawTags tags ++ space :: z)) := by simp
      rw [hbuf', length_snoc] at hrec
      simp only [hrec]
      refine Prod.ext ?_ ?_
      · simp only [rawTags_cons, length_append, length_cons]
        omega
      · simp [tagStarts]

theorem scanStarts_ok {starts : List ℕ} : ∀ {n : ℕ} {x pre : List Byte} {indices : List ℕ},
    scanStarts (pre ++ x) n .tagKey pre.length indices = (j, .ok starts) →
    ∃ t tags z, x = rawTag t ++ (rawTags tags ++ space :: z) ∧ IsTag t ∧ ∀ t ∈ tags, IsTag t
  | 0, x, pre, indices, h => by cases h
  | 1, x, pre, indices, h => by
    rw [scanStarts] at h
    split at h <;> cases h
  | n + 2, x, pre, indices, h => by
    rw [scanStarts] at h
    split at h
    · cases h
    · rename_i i' _ hk
      obtain ⟨k, z, rfl, hkey⟩ := scanTagsKey_ok hk
      have hpos : i' = pre.length + k.length + 1 := by
        rw [scanTagsKey_eq hkey] at hk
        exact (Prod.mk.inj hk).1.symm
      rw [scanStarts, append_snoc, hpos, ← length_snoc _ _ equals] at h
      split at h
      · cases h
      · rename_i i'' state hv
        obtain ⟨v, d, w, rfl, hvalue, hd⟩ := scanTagsValue_ok hv
        rw [scanTagsValue_eq hvalue _ w hd] at hv
        split_ifs at hv with hcomma
        · -- one more tag
          cases hv
          subst hcomma
          have hbuf' : pre ++ (k ++ [equals]) ++ (v ++ comma :: w) = pre ++ (k ++ [equals] ++ v ++ [comma]) ++ w := by
            simp
          have hlen' : (pre ++ (k ++ [equals])).length + v.length + 1 =
              (pre ++ (k ++ [equals] ++ v ++ [comma])).length := by
            simp only [length_append, length_singleton]
            omega
          rw [hbuf', hlen'] at h
          obtain ⟨t, tags, z, rfl, ht, htags⟩ := scanStarts_ok h
          refine ⟨⟨k, v⟩, t :: tags, z, ?_, ⟨hkey, hvalue⟩, forall_mem_cons.mpr ⟨ht, htags⟩⟩
          simp [rawTag, rawTags_cons]
        · refine ⟨⟨k, v⟩, [], w, ?_, ⟨hkey, hvalue⟩, by simp⟩
          rw [eq_space hd hcomma]
          simp [rawTag]

/-! ## Tags at their places -/

/-- The tags that follow each other from `i` on, each with its start. -/
def placed : ℕ → List Tag → List (ℕ × Tag)
  | _, [] => []
  | i, t :: tags => (i, t) :: placed (i + (rawTag t).length + 1) tags

theorem dropLast_tagStarts (i : ℕ) (tags : List Tag) : (tagStarts i tags).dropLast = (placed i tags).map fst := by
  induction tags generalizing i with
  | nil => rfl
  | cons t tags ih =>
    have hne : tagStarts (i + (rawTag t).length + 1) tags ≠ [] := by cases tags <;> exact cons_ne_nil _ _
    rw [tagStarts, placed, dropLast_cons_of_ne_nil hne, ih, map_cons]

theorem map_snd_placed (i : ℕ) (tags : List Tag) : (placed i tags).map snd = tags := by
  induction tags generalizing i with
  | nil => rfl
  | cons t tags ih => rw [placed, map_cons, ih]

/-- A tag stands in the buffer at a position, before a separator. -/
def StandsAt (buf : List Byte) (q : ℕ × Tag) : Prop :=
  IsTag q.2 ∧ ∃ pre d w, buf = pre ++ (rawTag q.2 ++ d :: w) ∧ q.1 = pre.length ∧ commaOrSpace d

theorem standsAt_of_mem_placed : ∀ {tags : List Tag} {pre : List Byte}, (∀ t ∈ tags, IsTag t) →
    q ∈ placed (pre.length + 1) tags → StandsAt (pre ++ (rawTags tags ++ space :: z)) q
  | [], pre, _, h => by cases h
  | t :: tags, pre, htags, h => by
    rw [placed] at h
    rcases mem_cons.mp h with rfl | h
    · obtain ⟨d, w, hw, hd⟩ := exists_separator tags z
      refine ⟨htags t mem_cons_self, pre ++ [comma], d, w, ?_, by simp, hd⟩
      rw [rawTags_cons, ← hw]
      simp
    · rw [← length_append_rawTag] at h
      have hrec := standsAt_of_mem_placed (forall_mem_cons.mp htags).2 h
      rw [rawTags_cons]
      simpa using hrec

theorem scanTo_equals (hk : IsToken commaSpaceEquals commaSpaceEquals x) (pre z : List Byte) :
    scanTo (pre ++ (x ++ equals :: z)) pre.length equals = (pre.length + x.length, x) := by
  have hrun : runLen (· == equals) (pre.getLastD 0) (x ++ equals :: z) = x.length := by
    refine runLen_append (hk.escaped_of (fun c hc => ?_) _) fun c hc => ?_
    · rw [beq_iff_eq.mp hc]
      exact ⟨rfl, rfl⟩
    · cases hc
      refine ⟨rfl, ?_⟩
      cases x with
      | nil => exact absurd rfl hk.ne
      | cons c x => simpa only [getLastD_cons] using hk.last_cons
  rw [scanTo, findUnescaped_append, hrun]
  simp

theorem isToken_rawTag (ht : IsTag t) : IsToken commaOrSpace commaOrSpace (rawTag t) where
  ne := by simp [rawTag]
  head := by
    intro c hc hstop
    rw [rawTag, head?_append_of_ne_nil _ ht.key.ne] at hc
    exact ht.key.head c hc (Bool.or_eq_true_iff.mpr (.inl hstop))
  escaped := by
    have hmono : ∀ c, commaOrSpace c → commaSpaceEquals c := fun c hc => Bool.or_eq_true_iff.mpr (.inl hc)
    rw [rawTag, escaped_append]
    exact ⟨ht.key.escaped.mono hmono, fun h => (by cases h), ht.value.escaped_of (fun c hc => ⟨hc, hmono c hc⟩) _⟩
  last := by
    rw [rawTag, getLastD_append, getLastD_cons, getLastD_of_ne_nil ht.value.ne 0]
    exact ht.value.last

theorem spaceOrLoop_append {w : List Byte} {c : Byte} (h : Escaped commaOrSpace c y) (hlast : y.getLastD c ≠ backslash)
    (hd : commaOrSpace d) : spaceOrLoop comma c (y ++ d :: w) i = .ok (i + y.length) := by
  induction y generalizing c i with
  | nil =>
    have hd' : d = comma ∨ d = space := by simpa [commaOrSpace] using hd
    rw [nil_append, spaceOrLoop, if_pos ⟨hlast, hd'⟩, length_nil, Nat.add_zero]
  | cons e y ih =>
    rw [getLastD_cons] at hlast
    have he : ¬(c ≠ backslash ∧ (e = comma ∨ e = space)) := by
      rintro ⟨hc, he⟩
      exact hc (h.1 (by simpa [commaOrSpace] using he))
    rw [cons_append, spaceOrLoop, if_neg he, ih h.2 hlast, length_cons]
    congr 1
    omega

theorem slice_append (pre x z : List Byte) : slice (pre ++ (x ++ z)) pre.length (pre.length + x.length) = .ok x := by
  rw [slice, if_pos ⟨by omega, by simp⟩, drop_left, Nat.add_sub_cancel_left, take_left]

theorem scanToSpaceOr_tag (ht : IsTag t) (pre w : List Byte) (hd : commaOrSpace d) :
    scanToSpaceOr (pre ++ (rawTag t ++ d :: w)) pre.length comma = .ok (pre.length + (rawTag t).length, rawTag t) := by
  have htok := isToken_rawTag ht
  obtain ⟨c, y, hy⟩ := exists_cons_of_ne_nil htok.ne
  rw [hy] at htok ⊢
  have hc : ¬(c = comma ∨ c = space) := by
    have h := htok.head c rfl
    simpa [commaOrSpace] using h
  have hindex : index (pre ++ (c :: y ++ d :: w)) pre.length = .ok c := by
    rw [index, getElem?_length]
    rfl
  have hdrop : (pre ++ (c :: y ++ d :: w)).drop (pre.length + 1) = y ++ d :: w := by
    rw [← drop_drop, drop_left]
    rfl
  have hend : pre.length + 1 + y.length = pre.length + (c :: y).length := by
    rw [length_cons]
    omega
  rw [scanToSpaceOr, hindex, hdrop]
  simp only [bind, Except.bind]
  rw [if_neg hc, spaceOrLoop_append htok.escaped.2 htok.last_cons hd, hend]
  simp only [slice_append]

theorem StandsAt.scanTo (h : StandsAt buf q) : (scanTo buf q.1 equals).2 = q.2.key := by
  obtain ⟨ht, pre, d, w, rfl, hq, -⟩ := h
  rw [hq, rawTag, append_assoc, cons_append, scanTo_equals ht.key]

theorem StandsAt.scanToSpaceOr (h : StandsAt buf q) : ∃ e, scanToSpaceOr buf q.1 comma = .ok (e, rawTag q.2) := by
  obtain ⟨ht, pre, d, w, rfl, hq, hd⟩ := h
  rw [hq]
  exact ⟨_, scanToSpaceOr_tag ht pre w hd⟩

theorem StandsAt.slice (h : StandsAt buf q) :
    ∃ tail, slice buf q.1 buf.length = .ok tail ∧ (Models.scanTo tail 0 equals).2 = q.2.key := by
  obtain ⟨ht, pre, d, w, rfl, hq, -⟩ := h
  refine ⟨rawTag q.2 ++ d :: w, ?_, ?_⟩
  · rw [hq, Models.slice, if_pos ⟨by simp, Nat.le_refl _⟩, drop_left, take_of_length_le]
    simp
  · have hkey := scanTo_equals ht.key [] (q.2.value ++ d :: w)
    rw [rawTag, append_assoc, cons_append]
    exact congrArg snd hkey

/-! ## Sorting the tags -/

theorem tagKeys_eq (z : List Byte) : ∀ {tags : List Tag} (pre : List Byte), (∀ t ∈ tags, IsTag t) →
    tagKeys (pre ++ (rawTags tags ++ space :: z)) (tagStarts (pre.length + 1) tags) = .ok (tags.map key)
  | [], pre, _ => rfl
  | t :: tags, pre, htags => by
    have hbuf : pre ++ (rawTags (t :: tags) ++ space :: z) =
        pre ++ comma :: rawTag t ++ (rawTags tags ++ space :: z) := by
      rw [rawTags_cons]
      simp
    have hrec := tagKeys_eq z (pre ++ comma :: rawTag t) (forall_mem_cons.mp htags).2
    rw [length_append_rawTag] at hrec
    obtain ⟨rest, hrest⟩ : ∃ rest, tagStarts (pre.length + 1 + (rawTag t).length + 1) tags =
        (pre.length + 1 + (rawTag t).length + 1) :: rest := by
      cases tags <;> exact ⟨_, rfl⟩
    have hslice : slice (pre ++ comma :: rawTag t ++ (rawTags tags ++ space :: z)) (pre.length + 1)
        (pre.length + 1 + (rawTag t).length) = .ok (rawTag t) := by
      simpa using slice_append (pre ++ [comma]) (rawTag t) (rawTags tags ++ space :: z)
    have hkey : (scanTo (rawTag t) 0 equals).2 = t.key :=
      congrArg snd (scanTo_equals (htags t mem_cons_self).key [] t.value)
    rw [hrest] at hrec
    rw [hbuf, tagStarts, hrest, tagKeys, Nat.add_sub_cancel, hslice]
    simp only [bind, Except.bind]
    rw [hrec]
    simp only [hkey, map_cons]

theorem tagsSorted_cases (keys : List (List Byte)) :
    (tagsSorted keys = .ok true ∧ keys.Pairwise (· < ·)) ∨ tagsSorted keys = .ok false ∨
      (tagsSorted keys = .error (.error "duplicate tags") ∧ ¬keys.Nodup) := by
  fun_induction tagsSorted keys with
  | case1 => exact .inr (.inl rfl)
  | case2 left rest _ => exact .inr (.inr ⟨rfl, by simp⟩)
  | case3 left right rest hgt hne ih =>
    have hlt : left < right := lt_of_le_of_ne (not_lt.mp hgt) hne
    rcases ih with ⟨hok, hpw⟩ | hok | ⟨herr, hdup⟩
    · exact .inl ⟨hok, pairwise_cons_cons_iff_of_trans.mpr ⟨hlt, hpw⟩⟩
    · exact .inr (.inl hok)
    · exact .inr (.inr ⟨herr, fun hnd => hdup hnd.of_cons⟩)
  | case4 keys hshort =>
    refine .inl ⟨rfl, ?_⟩
    match keys, hshort with
    | [], _ => exact Pairwise.nil
    | [k], _ => exact pairwise_singleton _ k
    | k :: k' :: rest, hshort => exact (hshort k k' rest rfl).elim

theorem copyTags_eq {n : ℕ} : ∀ {L : List (ℕ × Tag)} (out : List Byte), (∀ q ∈ L, StandsAt buf q) →
    n = out.length + (rawTags (L.map snd)).length → copyTags buf n out (L.map fst) = .ok (out ++ rawTags (L.map snd))
  | [], out, _, hn => by
    have hzero : n - out.length = 0 := by
      rw [hn, map_nil, rawTags_nil, length_nil]
      omega
    rw [map_nil, copyTags, hzero]
    rfl
  | q :: L, out, hL, hn => by
    obtain ⟨e, hscan⟩ := (hL q mem_cons_self).scanToSpaceOr
    rw [map_cons, rawTags_cons, length_cons, length_append] at hn
    have htake : (rawTag q.2).take (n - (out.length + 1)) = rawTag q.2 := take_of_length_le (by omega)
    rw [map_cons, copyTags, if_neg (by omega), hscan]
    simp only [bind, Except.bind]
    rw [htake, copyTags_eq _ (forall_mem_cons.mp hL).2]
    · rw [map_cons, rawTags_cons]
      simp
    · rw [length_append, length_cons]
      omega

theorem checkDuplicates_eq : ∀ {L : List (ℕ × Tag)}, (∀ q ∈ L, StandsAt buf q) →
    (L.map fun q => q.2.key).Pairwise (· ≤ ·) → checkDuplicates buf (L.map fst) =
      if (L.map fun q => q.2.key).Nodup then .ok () else .error (.error "duplicate tags")
  | [], _, _ => rfl
  | [q], _, _ => by simp [checkDuplicates]
  | q :: q' :: L, hL, hle => by
    obtain ⟨left, hleft, hkey⟩ := (hL q mem_cons_self).slice
    obtain ⟨right, hright, hkey'⟩ := (hL q' (mem_cons_of_mem q mem_cons_self)).slice
    have hrec := checkDuplicates_eq (forall_mem_cons.mp hL).2 (pairwise_cons.mp hle).2
    rw [map_cons, map_cons, checkDuplicates, hleft]
    simp only [bind, Except.bind]
    rw [hright]
    simp only [hkey, hkey']
    rw [← map_cons, hrec, map_cons]
    by_cases heq : q.2.key = q'.2.key
    · rw [if_pos heq, if_neg]
      simp [heq]
    · -- the keys behind the second are not smaller than it
      have hnot : q.2.key ∉ (q' :: L).map fun q => q.2.key := by
        intro hmem
        have h1 : q.2.key ≤ q'.2.key := rel_of_pairwise_cons hle (by simp)
        rw [map_cons] at hmem
        rcases mem_cons.mp hmem with h2 | h2
        · exact heq h2
        · exact heq (le_antisymm h1 (rel_of_pairwise_cons (pairwise_cons.mp hle).2 h2))
      rw [if_neg heq]
      simp only [map_cons, nodup_cons] at hnot ⊢
      simp only [hnot, not_false_eq_true, true_and]

/-- The key of a measurement with tags: no reserved tag key, no two equal ones, and the tags sorted by their raw keys. -/
def keyOf (m : List Byte) (tags : List Tag) : Except Fault (List Byte) :=
  if ∃ t ∈ tags, t.key ∈ reservedTagKeys then .error (reservedError (tags.map Tag.key))
  else if ¬(tags.map Tag.key).Nodup then .error (.error "duplicate tags")
  else .ok (m ++ rawTags (sortByKey Tag.key tags))

theorem length_rawTags_sortByKey (tags : List Tag) : (rawTags (sortByKey key tags)).length = (rawTags tags).length :=
  ((sortByKey_perm key tags).flatMap_right fun t => comma :: rawTag t).length_eq

theorem insertionSort_starts {pre : List Byte} (htags : ∀ t ∈ tags, IsTag t) :
    insertionSort (less (pre ++ (rawTags tags ++ space :: z))) ((placed (pre.length + 1) tags).map fst) =
      (sortByKey (fun q => q.2.key) (placed (pre.length + 1) tags)).map fst := by
  refine insertionSort_map fun a ha b hb => ?_
  rw [less, (standsAt_of_mem_placed htags ha).scanTo, (standsAt_of_mem_placed htags hb).scanTo]
  exact decide_eq_decide.mpr Iff.rfl

theorem map_snd_sortByKey_placed (i : ℕ) (tags : List Tag) :
    (sortByKey (fun q => q.2.key) (placed i tags)).map snd = sortByKey key tags := by
  have h : sortByKey key ((placed i tags).map snd) = (sortByKey (fun q => q.2.key) (placed i tags)).map snd :=
    insertionSort_map fun a _ b _ => rfl
  rw [← h, map_snd_placed]

/-- **The tags behind a measurement**: `finishKey` answers the key. -/
theorem finishKey_eq (ws m z : List Byte) (htags : ∀ t ∈ tags, IsTag t) :
    finishKey (ws ++ (m ++ (rawTags tags ++ space :: z))) ws.length (ws.length + (m ++ rawTags tags).length)
      (tagStarts (ws.length + m.length + 1) tags) =
      (keyOf m tags).map fun key => (ws.length + (m ++ rawTags tags).length, key) := by
  have hkeys := tagKeys_eq z (ws ++ m) htags
  have hstands := fun q => @standsAt_of_mem_placed z q tags (ws ++ m) htags
  have hstarts := @insertionSort_starts z tags (ws ++ m) htags
  have hkey := slice_append ws (m ++ rawTags tags) (space :: z)
  have hmeasurement := slice_append ws m (rawTags tags ++ space :: z)
  have hhead : (tagStarts (ws.length + m.length + 1) tags).headD 0 - 1 = ws.length + m.length := by
    cases tags <;> simp [tagStarts]
  simp only [length_append, append_assoc] at hkeys hstands hstarts
  rw [append_assoc] at hkey
  generalize ws ++ (m ++ (rawTags tags ++ space :: z)) = buf at hkeys hstands hstarts hkey hmeasurement ⊢
  generalize ws.length + m.length + 1 = n at hkeys hstands hstarts hhead ⊢
  have hfail : ∀ e, failAt buf ws.length (ws.length + (m ++ rawTags tags).length) e =
      (.error e : Except Fault (ℕ × List Byte)) := by
    intro e
    rw [failAt, hkey]
    rfl
  rw [finishKey, hkeys, keyOf]
  simp only [bind, Except.bind, mem_map, exists_exists_and_eq_and]
  by_cases hres : ∃ t ∈ tags, t.key ∈ reservedTagKeys
  · rw [if_pos hres, if_pos hres, hfail]
    rfl
  rw [if_neg hres, if_neg hres]
  rcases tagsSorted_cases (tags.map key) with ⟨hok, hpw⟩ | hok | ⟨herr, hdup⟩
  · -- the tags are sorted already
    have hnd : (tags.map key).Nodup := hpw.imp fun h => ne_of_lt h
    have hsort : sortByKey key tags = tags :=
      insertionSort_of_isChain <| (pairwise_map.mp hpw).isChain.imp fun _ _ h => by
        rw [NotAfter, decide_eq_false_iff_not]
        exact lt_asymm h
    rw [hok, if_neg (not_not.mpr hnd), hsort]
    simp only [hkey]
    rfl
  · -- they have to be sorted
    have hsnd := map_snd_sortByKey_placed n tags
    have hstands : ∀ q ∈ sortByKey (fun q => q.2.key) (placed n tags), StandsAt buf q := fun q hq =>
      hstands q (mem_sortByKey.mp hq)
    generalize sortByKey (fun q : ℕ × Tag => q.2.key) (placed n tags) = L at hstands hstarts hsnd
    have hmap : L.map (fun q => q.2.key) = (sortByKey key tags).map key := by
      rw [← hsnd, map_map]
      rfl
    have hcopy := copyTags_eq (n := (m ++ rawTags tags).length) m hstands (by
      rw [hsnd, length_rawTags_sortByKey, length_append])
    have hcheck := checkDuplicates_eq hstands (by
      rw [hmap]
      exact pairwise_map.mpr (pairwise_sortByKey tags))
    have hnodup : ((sortByKey key tags).map key).Nodup ↔ (tags.map key).Nodup :=
      ((sortByKey_perm key tags).map key).nodup_iff
    have htake : m.take (m ++ rawTags tags).length = m := take_of_length_le (by simp)
    rw [hok]
    simp only [dropLast_tagStarts, hhead, hmeasurement, hkey, hstarts, htake, hcopy, hcheck, hmap, hsnd]
    by_cases hnd : (tags.map key).Nodup
    · rw [if_pos (hnodup.mpr hnd), if_neg (not_not.mpr hnd)]
      rfl
    · rw [if_neg fun h => hnd (hnodup.mp h), if_pos hnd]
      rfl
  · rw [herr, if_pos hdup]
    simp only [hfail]
    rfl

/-! ## The key section of a line -/

/-- **The key section**: whitespace, a measurement, tags, and a blank before the rest of the line. -/
structure KeyText (line ws m : List Byte) (tags : List Tag) (rest : List Byte) : Prop where
  line_eq : line = ws ++ (m ++ (rawTags tags ++ space :: rest))
  ws : ∀ c ∈ ws, isWhitespace c
  head : ∀ c ∈ m.head?, ¬isWhitespace c
  measurement : IsMeasurement m
  tags : ∀ t ∈ tags, IsTag t

theorem skipWhitespace_append {ws : List Byte} (hws : ∀ c ∈ ws, isWhitespace c) (hx : ∀ c ∈ x.head?, ¬isWhitespace c)
    (pre : List Byte) : skipWhitespace (pre ++ (ws ++ x)) pre.length = pre.length + ws.length := by
  have htake : (ws ++ x).takeWhile isWhitespace = ws := by
    rw [takeWhile_append_of_pos hws]
    cases x with
    | nil => simp
    | cons c x => rw [takeWhile_cons_of_neg (hx c rfl), append_nil]
  rw [skipWhitespace, drop_left, htake]

variable {line ws rest : List Byte}

/-- **On a key section** `scanKey` answers the key and the position of the blank. -/
theorem KeyText.scanKey (h : KeyText line ws m tags rest) :
    scanKey line 0 = (keyOf m tags).map fun key => (ws.length + (m ++ rawTags tags).length, key) := by
  obtain ⟨rfl, hws, hhead, hm, htags⟩ := h
  have hstart : skipWhitespace (ws ++ (m ++ (rawTags tags ++ space :: rest))) 0 = ws.length := by
    have hx : ∀ c ∈ (m ++ (rawTags tags ++ space :: rest)).head?, ¬isWhitespace c := by
      intro c hc
      rw [head?_append_of_ne_nil _ hm.ne] at hc
      exact hhead c hc
    simpa using skipWhitespace_append hws hx []
  have hfinish := finishKey_eq ws m rest htags
  rw [Models.scanKey, hstart]
  cases tags with
  | nil =>
    have hscan := scanMeasurement_eq hm ws rest (d := space) rfl
    rw [if_neg (show space ≠ comma by decide)] at hscan
    simp only [rawTags_nil, nil_append, append_nil] at hfinish ⊢
    rw [hscan]
    exact hfinish
  | cons t tags =>
    rw [rawTags_cons, cons_append] at hfinish ⊢
    have hscan := scanMeasurement_eq hm ws (rawTag t ++ rawTags tags ++ space :: rest) (d := comma) rfl
    have hloop := scanStarts_eq rest tags t (ws ++ (m ++ [comma]))
      (2 * (ws ++ (m ++ comma :: (rawTag t ++ rawTags tags ++ space :: rest))).length + 2) []
      (htags t mem_cons_self) (forall_mem_cons.mp htags).2 (by
        have hlen := length_le_length_rawTags tags
        simp only [length_append, length_cons]
        omega)
    have hbuf : ws ++ (m ++ [comma]) ++ (rawTag t ++ (rawTags tags ++ space :: rest)) =
        ws ++ (m ++ comma :: (rawTag t ++ rawTags tags ++ space :: rest)) := by simp
    have hend : ws.length + m.length + 1 + (rawTag t ++ rawTags tags).length =
        ws.length + (m ++ comma :: (rawTag t ++ rawTags tags)).length := by
      simp only [length_append, length_cons]
      omega
    rw [hbuf, length_snoc, nil_append, hend] at hloop
    rw [hscan, if_pos rfl]
    simp only [scanTags_eq, hloop]
    exact hfinish

theorem KeyText.of_scanKey (h : KeyText line ws m tags rest) {pos : ℕ} {key : List Byte}
    (hkey : Models.scanKey line 0 = .ok (pos, key)) :
    keyOf m tags = .ok key ∧ pos = ws.length + (m ++ rawTags tags).length := by
  rw [h.scanKey] at hkey
  rcases hk : keyOf m tags with e | k <;> rw [hk] at hkey
  · cases hkey
  · obtain ⟨hpos, rfl⟩ := Prod.mk.inj (Except.ok.inj hkey)
    exact ⟨rfl, hpos.symm⟩

/-- `scanKey` fails in front of the measurement or of a tag, or the line starts with a key section. -/
theorem scanKey_cases (line : List Byte) : (∃ j e, Models.scanKey line 0 = failAt line (skipWhitespace line 0) j e ∧
      (scanMeasurement line (skipWhitespace line 0) = (j, .error e) ∨
        ∃ i, scanMeasurement line (skipWhitespace line 0) = (i, .ok .tagKey) ∧ scanTags line i = (j, .error e))) ∨
    ∃ ws m tags rest, KeyText line ws m tags rest := by
  obtain ⟨ws, x, hline, hws, hx⟩ : ∃ ws x, line = ws ++ x ∧ (∀ c ∈ ws, isWhitespace c) ∧
      ∀ c ∈ x.head?, ¬isWhitespace c := by
    refine ⟨line.takeWhile isWhitespace, line.dropWhile isWhitespace, takeWhile_append_dropWhile.symm, ?_, ?_⟩
    · exact fun c hc => mem_takeWhile_imp hc
    · intro c hc hw
      have := head?_dropWhile_not isWhitespace line
      rw [Option.mem_def.mp hc] at this
      simp [hw] at this
  have hstart : skipWhitespace line 0 = ws.length := by
    rw [hline]
    simpa using skipWhitespace_append hws hx []
  have hhead : ∀ {m z}, IsMeasurement m → x = m ++ z → ∀ c ∈ m.head?, ¬isWhitespace c := by
    intro m z hm hxm c hc
    exact hx c (by rw [hxm, head?_append_of_ne_nil _ hm.ne]; exact hc)
  rw [Models.scanKey, hstart, hline]
  cases hscan : scanMeasurement (ws ++ x) ws.length with
  | mk i r =>
    cases r with
    | error e => exact .inl ⟨i, e, rfl, .inl rfl⟩
    | ok s =>
      obtain ⟨m, d, z, hxm, hm, hd⟩ := scanMeasurement_ok hscan
      subst hxm
      have hpos := hscan
      rw [scanMeasurement_eq hm ws z hd] at hpos
      split_ifs at hpos with hcomma
      · cases hpos
        subst hcomma
        cases htags : scanTags (ws ++ (m ++ comma :: z)) (ws.length + m.length + 1) with
        | mk j r =>
          cases r with
          | error e => exact .inl ⟨j, e, by simp only [htags], .inr ⟨_, rfl, htags⟩⟩
          | ok starts =>
            rw [← length_snoc _ _ comma, append_snoc, scanTags_eq] at htags
            obtain ⟨t, tags, rest, rfl, ht, hts⟩ := scanStarts_ok htags
            refine .inr ⟨ws, m, t :: tags, rest, ?_, hws, hhead hm rfl, hm, forall_mem_cons.mpr ⟨ht, hts⟩⟩
            rw [rawTags_cons]
            simp
      · cases hpos
        refine .inr ⟨ws, m, [], z, ?_, hws, hhead hm rfl, hm, by simp⟩
        rw [eq_space hd hcomma]
        rfl

/-- **What `scanKey` accepts** is a key section. -/
theorem exists_keyText {r : ℕ × List Byte} (h : Models.scanKey line 0 = .ok r) :
    ∃ ws m tags rest, KeyText line ws m tags rest := by
  rcases scanKey_cases line with ⟨j, e, hfail, -⟩ | htext
  · rw [hfail] at h
    obtain ⟨_, _, h⟩ := bind_eq_ok h
    cases h
  · exact htext

end Influxdb.Models
