import Influxdb.Models.FieldScan
import Influxdb.Models.PointKey

/-!
# TagOrder — the order of the tags

`scanKey` sorts the tags of a line, so that the order in which they were written does not show in the key.  It compares
the raw keys, with their backslashes; readers of the tags compare the unescaped keys.
-/

namespace Influxdb.Models

open List Strconv

variable {line ws m rest : List Byte} {tags : List Tag} {t : Time} {prec : String} {p : Point} {tags' : List Tag}

/-- The tags of a point are in strict order by their keys. -/
def TagsIncreasing (p : Point) : Prop :=
  ∃ tags, p.tags = .ok tags ∧ tags.Pairwise fun a b => a.key < b.key

/-- Unescaping keeps the order of the raw tag keys. -/
def UnescapeKeepsOrder (tags : List Tag) : Prop :=
  ∀ a ∈ tags, ∀ b ∈ tags, a.key < b.key → (unescapedTag a).key < (unescapedTag b).key

theorem KeyText.plain (h : KeyText line ws m tags rest) : Plain (ws ++ (m ++ rawTags tags)).reverse := by
  obtain ⟨pre, c, hpre⟩ : ∃ pre c, ws ++ (m ++ rawTags tags) = pre ++ [c] := by
    have hne : ws ++ (m ++ rawTags tags) ≠ [] := by simp [h.measurement.ne]
    exact ⟨_, _, (dropLast_append_getLast hne).symm⟩
  refine ⟨c, pre.reverse, by rw [hpre, reverse_append, reverse_singleton, singleton_append], ?_⟩
  have hlast : (m ++ rawTags tags).getLastD 0 ≠ backslash := by
    rcases eq_nil_or_concat tags with rfl | ⟨tags', t, rfl⟩
    · rw [rawTags_nil, append_nil]
      exact h.measurement.last
    · have ht := (isToken_rawTag (h.tags t (by simp)))
      rw [getLastD_append, rawTags, concat_eq_append, flatMap_append, flatMap_singleton, getLastD_append, getLastD_cons,
        getLastD_of_ne_nil ht.ne 0]
      exact ht.last
  have hc : (ws ++ (m ++ rawTags tags)).getLastD 0 = c := by rw [hpre, getLastD_concat]
  rw [getLastD_append, getLastD_of_ne_nil (by simp [h.measurement.ne]) 0] at hc
  rw [← hc]
  exact hlast

theorem exists_parseRest (rest : List Byte) (t : Time) (prec : String) :
    ∃ F, ∀ {line ws m tags}, KeyText line ws m tags rest → parsePoint line t prec = keyOf m tags >>= F := by
  obtain ⟨F, hF⟩ := parsePoint_over rest t prec
  refine ⟨F, fun {line ws m tags} h => ?_⟩
  have hline : line = ws ++ (m ++ rawTags tags) ++ space :: rest := by
    rw [h.line_eq]
    simp
  have hscan := h.scanKey
  cases hkey : keyOf m tags with
  | error e =>
    rw [hkey] at hscan
    rw [parsePoint, hscan]
    rfl
  | ok key =>
    rw [hkey, ← length_append] at hscan
    rw [hline] at hscan ⊢
    exact hF _ key h.plain hscan

theorem KeyText.perm (h : KeyText line ws m tags rest) (hperm : tags'.Perm tags) :
    KeyText (ws ++ (m ++ (rawTags tags' ++ space :: rest))) ws m tags' rest :=
  ⟨rfl, h.ws, h.head, h.measurement, fun t ht => h.tags t (hperm.mem_iff.mp ht)⟩

theorem keyOf_perm (hperm : tags'.Perm tags) {key : List Byte} (h : keyOf m tags = .ok key) : keyOf m tags' = .ok key := by
  have hnd : (tags'.map Tag.key).Nodup ↔ (tags.map Tag.key).Nodup := (hperm.map Tag.key).nodup_iff
  have hres : (∃ t ∈ tags', t.key ∈ reservedTagKeys) ↔ ∃ t ∈ tags, t.key ∈ reservedTagKeys := by
    simp only [hperm.mem_iff]
  rw [keyOf] at h ⊢
  split_ifs at h with h1 h2
  rw [if_neg fun h => h1 (hres.mp h), if_neg (not_not.mpr (hnd.mpr h2)), sortByKey_eq_of_perm hperm (hnd.mpr h2), h]

theorem parsePoint_perm (htext : KeyText line ws m tags rest) (hperm : tags'.Perm tags)
    (h : parsePoint line t prec = .ok p) : parsePoint (ws ++ (m ++ (rawTags tags' ++ space :: rest))) t prec = .ok p := by
  obtain ⟨F, hF⟩ := exists_parseRest rest t prec
  rw [← h, hF htext, hF (htext.perm hperm), htext.keyOf h, keyOf_perm hperm (htext.keyOf h)]

theorem nodup_unescaped_iff (htags : ∀ t ∈ tags, IsTag t) :
    (tags.map fun t => (unescapedTag t).key).Nodup ↔ (tags.map Tag.key).Nodup := by
  have hback : tags.map Tag.key = (tags.map fun t => (unescapedTag t).key).map (esc commaSpaceEquals) := by
    rw [map_map]
    exact map_congr_left fun t ht => (reescaped_key (htags t ht)).symm
  constructor
  · intro h
    rw [hback]
    refine h.map fun x y hxy => ?_
    have := congrArg (unesc commaSpaceEquals) hxy
    rwa [unesc_esc (by decide), unesc_esc (by decide)] at this
  · intro h
    rw [hback] at h
    exact Nodup.of_map _ h

theorem parsePoint_of_duplicate (h : KeyText line ws m tags rest)
    (hdup : ¬(tags.map fun t => (unescapedTag t).key).Nodup) (t : Time) (prec : String) :
    ∃ msg, parsePoint line t prec = .error (.error msg) := by
  rw [nodup_unescaped_iff h.tags] at hdup
  obtain ⟨F, hF⟩ := exists_parseRest rest t prec
  rw [hF h, keyOf, if_pos hdup]
  split_ifs
  · exact ⟨_, rfl⟩
  · exact ⟨_, rfl⟩

theorem tagsIncreasing_iff (htext : KeyText line ws m tags rest) (h : parsePoint line t prec = .ok p) :
    TagsIncreasing p ↔ UnescapeKeepsOrder tags := by
  obtain ⟨hnd, hkey⟩ := keyOf_ok (htext.keyOf h)
  have hptags : p.tags = .ok ((sortByKey Tag.key tags).map unescapedTag) := by
    rw [Point.tags, hkey]
    exact parseTags_eq htext.measurement fun t ht => htext.tags t (mem_sortByKey.mp ht)
  have hsorted := pairwise_lt_sortByKey hnd
  simp only [TagsIncreasing, hptags, Except.ok.injEq, exists_eq_left', pairwise_map]
  constructor
  · intro hpw a ha b hb
    -- in the sorted list one of the two comes first, and that is the one with the smaller key
    refine Pairwise.forall_of_forall_of_flip (l := sortByKey Tag.key tags)
      (R := fun a b : Tag => a.key < b.key → (unescapedTag a).key < (unescapedTag b).key) ?_ ?_ ?_
      (mem_sortByKey.mpr ha) (mem_sortByKey.mpr hb)
    · exact fun a _ hlt => absurd hlt (lt_irrefl _)
    · exact hpw.imp fun {a b} hu (_ : a.key < b.key) => hu
    · exact hsorted.imp fun hr hlt => absurd hlt hr.asymm
  · intro hkeep
    exact hsorted.imp_of_mem fun ha hb hlt => hkeep _ (mem_sortByKey.mp ha) _ (mem_sortByKey.mp hb) hlt

/-- **Tag order.**  A line with two tags of equal key is rejected; every order of the tags of an accepted line is
accepted with the same key; and the tags come out in strict order exactly if unescaping keeps the order of the raw tag
keys. -/
theorem tag_order_iff (t : Time) (prec : String) :
    (∀ line ws m tags rest, KeyText line ws m tags rest → ¬(tags.map fun t => (unescapedTag t).key).Nodup →
      ∃ msg, parsePoint line t prec = .error (.error msg)) ∧
    ∀ line ws m tags rest p, KeyText line ws m tags rest → parsePoint line t prec = .ok p →
      (((∀ tags', tags'.Perm tags → ∃ p',
          parsePoint (ws ++ (m ++ (rawTags tags' ++ space :: rest))) t prec = .ok p' ∧ p'.key = p.key) ∧
        TagsIncreasing p) ↔ UnescapeKeepsOrder tags) := by
  refine ⟨fun line ws m tags rest h hdup => parsePoint_of_duplicate h hdup t prec, ?_⟩
  intro line ws m tags rest p htext h
  rw [tagsIncreasing_iff htext h]
  exact and_iff_right fun tags' hperm => ⟨p, parsePoint_perm htext hperm h, rfl⟩

/-- A line with two tags out of order. -/
def twoTagLine : List Byte := ascii "cpu,b=1,a=2 v=1 7"

def twoTags : List Tag := [⟨ascii "b", ascii "1"⟩, ⟨ascii "a", ascii "2"⟩]

theorem keyText_twoTagLine : KeyText twoTagLine [] (ascii "cpu") twoTags (ascii "v=1 7") where
  line_eq := by decide +kernel
  ws := by simp
  head := by decide
  measurement := ⟨by decide, by decide, by decide, by decide⟩
  tags := by
    simp only [twoTags, forall_mem_cons, not_mem_nil, false_imp_iff, implies_true, and_true]
    refine ⟨⟨?_, ?_⟩, ⟨?_, ?_⟩⟩ <;> exact ⟨by decide, by decide, by decide, by decide⟩

theorem tag_order_two_tags : ((∀ tags', tags'.Perm twoTags → ∃ p', parsePoint
        ([] ++ (ascii "cpu" ++ (rawTags tags' ++ space :: ascii "v=1 7"))) (Time.ofUnixNano 0) "n" =
          .ok p' ∧ p'.key = ascii "cpu,a=2,b=1") ∧
      TagsIncreasing ⟨ascii "cpu,a=2,b=1", ascii "v=1", Time.ofUnixNano 7⟩) ↔ UnescapeKeepsOrder twoTags :=
  (tag_order_iff (Time.ofUnixNano 0) "n").2 twoTagLine [] _ twoTags _
    ⟨ascii "cpu,a=2,b=1", ascii "v=1", Time.ofUnixNano 7⟩ keyText_twoTagLine (by decide +kernel)

/-- A line with a tag key that unescaping moves. -/
def movedTagLine : List Byte := ascii "cpu,a\\ b=1,aB=2 v=1 7"

/-- A tag key with an escaped blank sorts behind a letter, and its meaning before it. -/
theorem tags_not_increasing : ∃ p, parsePoint movedTagLine (Time.ofUnixNano 0) "n" = .ok p ∧ ¬TagsIncreasing p := by
  refine ⟨⟨ascii "cpu,aB=2,a\\ b=1", ascii "v=1", Time.ofUnixNano 7⟩, by decide +kernel, ?_⟩
  rintro ⟨tags, htags, hpw⟩
  have hread : Point.tags ⟨ascii "cpu,aB=2,a\\ b=1", ascii "v=1", Time.ofUnixNano 7⟩ =
      .ok [⟨ascii "aB", ascii "2"⟩, ⟨ascii "a b", ascii "1"⟩] := by decide +kernel
  rw [hread] at htags
  rw [← Except.ok.inj htags] at hpw
  revert hpw
  decide +kernel

end Influxdb.Models
