import Influxdb.Tsm1.IndexDelete

/-!
# DeletedRanges — an index and the ranges that were deleted from it

`Applied rs d live D` relates an index of the records `rs` to the ranges `D` that were deleted: a key that is still in
the table has all of its ranges as tombstones, but for those that miss the key, and the ranges of a key that is gone
cover it.  `DeleteRange` keeps this, whatever was deleted before.
-/

namespace Influxdb.Tsm1.Disk

open List IndirectIndex

variable {rec : KeyRecord}

/-! ## Records and ranges -/

def Outside (r : TimeRange) (rec : KeyRecord) : Prop := r.max < rec.minTime ∨ rec.maxTime < r.min

theorem toInt_inInt64 (min max : Word) : InInt64 ⟨min.toInt, max.toInt⟩ := by
  have h1 := min.le_toInt
  have h2 := min.toInt_lt
  have h3 := max.le_toInt
  have h4 := max.toInt_lt
  simp only [InInt64, minInt64, maxInt64]
  omega

theorem KeyRecord.Fits.times (h : rec.Fits) :
    ∃ first last, rec.entries.head? = some first ∧ rec.entries.getLast? = some last ∧
      rec.minTime = first.minTime.toInt ∧ rec.maxTime = last.maxTime.toInt := by
  refine ⟨_, _, head?_eq_some_head h.ne_nil, getLast?_eq_getLast_of_ne_nil h.ne_nil, ?_, ?_⟩
  · rw [KeyRecord.minTime, head?_eq_some_head h.ne_nil]
    rfl
  · rw [KeyRecord.maxTime, getLast?_eq_getLast_of_ne_nil h.ne_nil]
    rfl

theorem KeyRecord.Fits.inInt64 (h : rec.Fits) : InInt64 ⟨rec.minTime, rec.maxTime⟩ := by
  obtain ⟨first, last, -, -, hmin, hmax⟩ := h.times
  rw [hmin, hmax]
  exact toInt_inInt64 _ _

/-- **The verdicts**, and when each is given. -/
theorem verdict_cases (h : rec.Fits) (existing : List TimeRange) (r : TimeRange) :
    (verdict existing r.min r.max rec.entries = .skip ∧ Outside r rec) ∨
    (verdict existing r.min r.max rec.entries = .full ∧ r.min ≤ rec.minTime ∧ rec.maxTime ≤ r.max) ∨
    ∃ newTs, (∀ x, x ∈ newTs ↔ x ∈ existing ∨ x = r) ∧ ByStart newTs ∧
      (verdict existing r.min r.max rec.entries = .left newTs ∨
        verdict existing r.min r.max rec.entries = .covered newTs ∧
          (window newTs).1 ≤ rec.minTime ∧ (window newTs).2 ≥ rec.maxTime) := by
  obtain ⟨first, last, hfirst, hlast, hmin, hmax⟩ := h.times
  rw [verdict, hfirst, hlast]
  simp only [← hmin, ← hmax]
  split_ifs with hskip hfull hcov
  · exact .inl ⟨rfl, hskip.symm⟩
  · exact .inr (.inl ⟨rfl, hfull⟩)
  · refine .inr (.inr ⟨_, ?_, byStart_sortRanges _, .inr ⟨rfl, hcov⟩⟩)
    intro x
    rw [mem_sortRanges, mem_append, mem_singleton]
  · refine .inr (.inr ⟨_, ?_, byStart_sortRanges _, .inl rfl⟩)
    intro x
    rw [mem_sortRanges, mem_append, mem_singleton]

/-! ## The new tombstones of a key -/

section Update

variable {α β : Type} [DecidableEq α] {k : α} {v : β} {l : List (α × β)} {m : α → β}

theorem foldr_update_of_mem (h : (k, v) ∈ l) (hunique : ∀ q ∈ l, q.1 = k → q.2 = v) :
    l.foldr (fun p m => Function.update m p.1 p.2) m k = v := by
  induction l with
  | nil => nomatch h
  | cons q l ih =>
    rw [foldr_cons]
    by_cases hq : q.1 = k
    · rw [← hq, Function.update_self]
      exact hunique q mem_cons_self hq
    · rw [Function.update_of_ne (Ne.symm hq)]
      refine ih ?_ (forall_mem_cons.mp hunique).2
      rcases mem_cons.mp h with rfl | h
      · exact absurd rfl hq
      · exact h

theorem foldr_update_of_not_mem (h : ∀ q ∈ l, q.1 ≠ k) : l.foldr (fun p m => Function.update m p.1 p.2) m k = m k := by
  induction l with
  | nil => rfl
  | cons q l ih =>
    rw [foldr_cons, Function.update_of_ne (h q mem_cons_self).symm, ih (forall_mem_cons.mp h).2]

end Update

theorem eq_of_key_eq {live : List (ℕ × KeyRecord)} (hasc : live.Pairwise fun p q => p.2.key < q.2.key)
    {p q : ℕ × KeyRecord} (hp : p ∈ live) (hq : q ∈ live) (h : p.2.key = q.2.key) : p = q := by
  obtain ⟨i, hi, rfl⟩ := getElem_of_mem hp
  obtain ⟨j, hj, rfl⟩ := getElem_of_mem hq
  rcases lt_trichotomy i j with hlt | rfl | hlt
  · exact absurd h (pairwise_iff_getElem.mp hasc i j hi hj hlt).ne
  · rfl
  · exact absurd h (pairwise_iff_getElem.mp hasc j i hj hi hlt).ne'

section New

variable {d : IndirectIndex} {lo hi : Int} {live : List (ℕ × KeyRecord)} {p : ℕ × KeyRecord} {keys : List Key}
  {m : Key → List TimeRange}

theorem addedOf_fst {q : Key × List TimeRange} (h : d.addedOf lo hi keys p = some q) : q.1 = p.2.key := by
  unfold addedOf at h
  split_ifs at h
  obtain ⟨ts, -, rfl⟩ := Option.map_eq_some_iff.mp h
  rfl

theorem update_added (hasc : live.Pairwise fun p q => p.2.key < q.2.key) (hp : p ∈ live) :
    (live.filterMap (d.addedOf lo hi keys)).reverse.foldr (fun p m => Function.update m p.1 p.2) m p.2.key =
      match d.addedOf lo hi keys p with
      | none => m p.2.key
      | some q => q.2 := by
  -- a pair with the key of `p` comes from `p`
  have hfrom : ∀ q ∈ (live.filterMap (d.addedOf lo hi keys)).reverse, q.1 = p.2.key →
      d.addedOf lo hi keys p = some q := by
    intro q hq hkey
    obtain ⟨p', hp', hadd⟩ := mem_filterMap.mp (mem_reverse.mp hq)
    rw [eq_of_key_eq hasc hp hp' (hkey.symm.trans (addedOf_fst hadd))]
    exact hadd
  rcases hadd : d.addedOf lo hi keys p with _ | q
  · refine foldr_update_of_not_mem fun q hq hkey => ?_
    exact nomatch hadd.symm.trans (hfrom q hq hkey)
  · refine foldr_update_of_mem ?_ fun q' hq' hkey' => ?_
    · rw [← addedOf_fst hadd]
      exact mem_reverse.mpr (mem_filterMap.mpr ⟨p, hp, hadd⟩)
    · have := Option.some.inj ((hfrom q' hq' hkey').symm.trans hadd)
      rw [this]

theorem mem_gone (hasc : live.Pairwise fun p q => p.2.key < q.2.key) (hp : p ∈ live) :
    p.2.key ∈ live.filterMap (d.goneOf lo hi keys) ↔ p.2.key ∈ keys ∧ (d.verdictOf lo hi p).gone = true := by
  rw [mem_filterMap]
  constructor
  · rintro ⟨p', hp', hgone⟩
    unfold goneOf at hgone
    split_ifs at hgone with hin hv
    obtain rfl := eq_of_key_eq hasc hp' hp (Option.some.inj hgone)
    exact ⟨hin, hv⟩
  · rintro ⟨hin, hv⟩
    exact ⟨p, hp, by rw [goneOf, if_pos hin, if_pos hv]⟩

end New

/-! ## Deleting -/

/-- The index after the ranges `D` have been deleted from it. -/
structure Applied (rs : List KeyRecord) (d : IndirectIndex) (live : List (ℕ × KeyRecord))
    (D : Key → List TimeRange) : Prop where
  loaded : Loaded d live
  sub : ∀ p ∈ live, p ∈ layout 0 rs
  sound : ∀ p ∈ live, ∀ r ∈ d.tombstones p.2.key, r ∈ D p.2.key
  complete : ∀ p ∈ live, ∀ r ∈ D p.2.key, r ∈ d.tombstones p.2.key ∨ Outside r p.2
  gone : ∀ p ∈ layout 0 rs, p ∉ live → Covered (D p.2.key) p.2.minTime p.2.maxTime
  int64 : ∀ k, ∀ r ∈ D k, InInt64 r
  fits : ∀ rec ∈ rs, rec.Fits
  span : ∀ rec ∈ rs, rec.minTime ≤ rec.maxTime
  between : ∀ rec ∈ rs, d.minKey ≤ rec.key ∧ rec.key ≤ d.maxKey
  minTime : ∀ rec ∈ rs, d.minTime ≤ rec.minTime
  maxTime : ∀ rec ∈ rs, rec.maxTime ≤ d.maxTime

/-- The ranges with one more for some keys. -/
def extend (D : Key → List TimeRange) (keys : List Key) (r : TimeRange) (k : Key) : List TimeRange :=
  if k ∈ keys then D k ++ [r] else D k

variable {D D' : Key → List TimeRange} {keys : List Key} {r r' : TimeRange} {k : Key}

theorem mem_extend : r' ∈ extend D keys r k ↔ r' ∈ D k ∨ (k ∈ keys ∧ r' = r) := by
  unfold extend
  split_ifs with h
  · rw [mem_append, mem_singleton, and_iff_right h]
  · rw [or_iff_left fun h' => h h'.1]

theorem Covered.mono {all all' : List TimeRange} {lo hi : Int} (h : Covered all lo hi) (hsub : ∀ r ∈ all, r ∈ all') :
    Covered all' lo hi := by
  intro t h1 h2
  obtain ⟨r, hr, ht⟩ := h t h1 h2
  exact ⟨r, hsub r hr, ht⟩

namespace Applied

variable {rs : List KeyRecord} {d : IndirectIndex} {live : List (ℕ × KeyRecord)}

section

variable (h : Applied rs d live D)
include h

theorem weaken (hsub : ∀ rec ∈ rs, ∀ r ∈ D rec.key, r ∈ D' rec.key)
    (hnew : ∀ rec ∈ rs, ∀ r ∈ D' rec.key, r ∈ D rec.key ∨ Outside r rec) (hint : ∀ k, ∀ r ∈ D' k, InInt64 r) :
    Applied rs d live D' where
  loaded := h.loaded
  sub := h.sub
  sound p hp r hr := hsub p.2 (mem_of_mem_layout (h.sub p hp)) r (h.sound p hp r hr)
  complete p hp r hr := by
    rcases hnew p.2 (mem_of_mem_layout (h.sub p hp)) r hr with hr | hout
    · exact h.complete p hp r hr
    · exact .inr hout
  gone p hp hlive := (h.gone p hp hlive).mono fun r hr => hsub p.2 (mem_of_mem_layout hp) r hr
  int64 := hint
  fits := h.fits
  span := h.span
  between := h.between
  minTime := h.minTime
  maxTime := h.maxTime

theorem congr (hD : ∀ k r, r ∈ D' k ↔ r ∈ D k) : Applied rs d live D' :=
  h.weaken (fun rec _ r hr => (hD rec.key r).mpr hr) (fun rec _ r hr => .inl ((hD rec.key r).mp hr))
    fun k r hr => h.int64 k r ((hD k r).mp hr)

theorem int64_extend (hr : InInt64 r) : ∀ k, ∀ r' ∈ extend D keys r k, InInt64 r' := by
  intro k r' hr'
  rcases mem_extend.mp hr' with hr' | ⟨-, rfl⟩
  · exact h.int64 k r' hr'
  · exact hr

theorem extend_outside (hr : InInt64 r)
    (hout : ∀ rec ∈ rs, rec.key ∈ keys → Outside r rec) : Applied rs d live (extend D keys r) := by
  refine h.weaken ?_ ?_ (h.int64_extend hr)
  · exact fun rec _ r' hr' => mem_extend.mpr (.inl hr')
  · intro rec hrec r' hr'
    rcases mem_extend.mp hr' with hr' | ⟨hin, rfl⟩
    · exact .inl hr'
    · exact .inr (hout rec hrec hin)

theorem step (hr : InInt64 r) {gone : List Key} {tombstones : Key → List TimeRange}
    (hsound : ∀ p ∈ live, p.2.key ∉ gone → ∀ x ∈ tombstones p.2.key, x ∈ extend D keys r p.2.key)
    (hcomplete : ∀ p ∈ live, p.2.key ∉ gone → ∀ x ∈ extend D keys r p.2.key, x ∈ tombstones p.2.key ∨ Outside x p.2)
    (hgone : ∀ p ∈ live, p.2.key ∈ gone → Covered (extend D keys r p.2.key) p.2.minTime p.2.maxTime) :
    Applied rs { d.delete gone with tombstones := tombstones } (without live gone) (extend D keys r) := by
  obtain ⟨hloaded, offsets, heq⟩ := h.loaded.delete gone
  have hmem : ∀ p, p ∈ without live gone ↔ p ∈ live ∧ p.2.key ∉ gone := by
    intro p
    rw [without, mem_filter, decide_eq_true_eq]
  refine ⟨{ hloaded with }, ?_, ?_, ?_, ?_, h.int64_extend hr, h.fits, h.span, ?_, ?_, ?_⟩
  · exact fun p hp => h.sub p ((hmem p).mp hp).1
  · exact fun p hp => hsound p ((hmem p).mp hp).1 ((hmem p).mp hp).2
  · exact fun p hp => hcomplete p ((hmem p).mp hp).1 ((hmem p).mp hp).2
  · intro p hp hnot
    by_cases hlive : p ∈ live
    · refine hgone p hlive ?_
      by_contra hkey
      exact hnot ((hmem p).mpr ⟨hlive, hkey⟩)
    · exact (h.gone p hp hlive).mono fun x hx => mem_extend.mpr (.inl hx)
  all_goals rw [heq]
  · exact h.between
  · exact h.minTime
  · exact h.maxTime

theorem delete (hmin : r.min = minInt64) (hmax : r.max = maxInt64) :
    Applied rs (d.delete keys) (without live keys) (extend D keys r) := by
  obtain ⟨-, offsets, heq⟩ := h.loaded.delete keys
  have htombs : { d.delete keys with tombstones := d.tombstones } = d.delete keys := by rw [heq]
  have hr : InInt64 r := by
    simp only [InInt64, hmin, hmax]
    decide
  rw [← htombs]
  refine h.step hr ?_ ?_ ?_
  · exact fun p hp _ x hx => mem_extend.mpr (.inl (h.sound p hp x hx))
  · intro p hp hkey x hx
    exact h.complete p hp x ((mem_extend.mp hx).resolve_right fun hin => hkey hin.1)
  · intro p hp hkey t h1 h2
    have hint := (h.fits p.2 (mem_of_mem_layout (h.sub p hp))).inInt64
    simp only [InInt64] at hint
    exact ⟨r, mem_extend.mpr (.inr ⟨hkey, rfl⟩), by omega, by omega⟩

end

/-- The tombstones of a key after the loop. -/
def newTombstones (d : IndirectIndex) (r : TimeRange) (keys : List Key) (p : ℕ × KeyRecord) : List TimeRange :=
  match d.addedOf r.min r.max keys p with
  | none => d.tombstones p.2.key
  | some q => q.2

/-- A range and one key of the table.  If the key stays, its new tombstones are its ranges, but for those that miss it;
otherwise its ranges cover it. -/
theorem verdict_effect (h : Applied rs d live D) (hr : InInt64 r) {p : ℕ × KeyRecord} (hp : p ∈ live) :
    (¬ (p.2.key ∈ keys ∧ (d.verdictOf r.min r.max p).gone = true) →
      (∀ x ∈ newTombstones d r keys p, x ∈ extend D keys r p.2.key) ∧
      ∀ x ∈ extend D keys r p.2.key, x ∈ newTombstones d r keys p ∨ Outside x p.2) ∧
    (p.2.key ∈ keys ∧ (d.verdictOf r.min r.max p).gone = true →
      Covered (extend D keys r p.2.key) p.2.minTime p.2.maxTime) := by
  have hold : ∀ x ∈ d.tombstones p.2.key, x ∈ extend D keys r p.2.key := fun x hx =>
    mem_extend.mpr (.inl (h.sound p hp x hx))
  by_cases hin : p.2.key ∈ keys
  · have hself : r ∈ extend D keys r p.2.key := mem_extend.mpr (.inr ⟨hin, rfl⟩)
    rw [newTombstones, addedOf, if_pos hin, verdictOf]
    rcases verdict_cases (h.loaded.fits p hp) (d.tombstones p.2.key) r with
      ⟨hv, hout⟩ | ⟨hv, hmin, hmax⟩ | ⟨newTs, hmem, hord, hv⟩
    · rw [hv]
      refine ⟨fun _ => ⟨hold, ?_⟩, fun hg => absurd hg.2 Bool.false_ne_true⟩
      intro x hx
      rcases mem_extend.mp hx with hx | ⟨-, rfl⟩
      · exact h.complete p hp x hx
      · exact .inr hout
    · rw [hv]
      exact ⟨fun hg => absurd ⟨hin, rfl⟩ hg, fun _ t h1 h2 => ⟨r, hself, by omega, by omega⟩⟩
    · have hsub : ∀ x ∈ newTs, x ∈ extend D keys r p.2.key := by
        intro x hx
        rcases (hmem x).mp hx with hx | rfl
        · exact hold x hx
        · exact hself
      rcases hv with hv | ⟨hv, hwindow⟩
      · rw [hv]
        refine ⟨fun _ => ⟨hsub, ?_⟩, fun hg => absurd hg.2 Bool.false_ne_true⟩
        intro x hx
        rcases mem_extend.mp hx with hx | ⟨-, rfl⟩
        · rcases h.complete p hp x hx with hx | hout
          · exact .inl ((hmem x).mpr (.inl hx))
          · exact .inr hout
        · exact .inl ((hmem x).mpr (.inr rfl))
      · rw [hv]
        refine ⟨fun hg => absurd ⟨hin, rfl⟩ hg, fun _ => ?_⟩
        have hspan := h.span p.2 (mem_of_mem_layout (h.sub p hp))
        exact (window_covers hord (fun x hx => h.int64_extend hr _ x (hsub x hx)) hspan hwindow).mono hsub
  · rw [newTombstones, addedOf, if_neg hin]
    refine ⟨fun _ => ⟨hold, ?_⟩, fun hg => absurd hg.1 hin⟩
    intro x hx
    exact h.complete p hp x ((mem_extend.mp hx).resolve_right fun hx => hin hx.1)

/-- **`DeleteRange`** succeeds and deletes the range from the keys, whatever was deleted before. -/
theorem deleteRange (h : Applied rs d live D) (keys : List Key) (hr : InInt64 r) :
    ∃ d' live', d.deleteRange keys r.min r.max = .ok d' ∧ Applied rs d' live' (extend D keys r) := by
  unfold IndirectIndex.deleteRange
  split_ifs with hnil hfull hfile
  · refine ⟨d, live, rfl, h.extend_outside hr ?_⟩
    intro rec _ hin
    rw [hnil] at hin
    nomatch hin
  · exact ⟨_, _, rfl, h.delete hfull.1 hfull.2⟩
  · refine ⟨d, live, rfl, h.extend_outside hr ?_⟩
    intro rec hrec _
    have h1 := h.minTime rec hrec
    have h2 := h.maxTime rec hrec
    rcases hfile with hfile | hfile
    · exact .inr (by omega)
    · exact .inl (by omega)
  have hread : ∀ p ∈ live, d.readEntriesAt (BitVec.ofNat 32 p.1).toNat = .ok (p.2.key, p.2.entries) := by
    intro p hp
    rw [h.loaded.toNat_ofNat hp]
    exact (h.loaded.records p hp).readEntriesAt (h.loaded.fits p hp)
  rw [h.loaded.offsets, deleteRangeLoop_eq hread h.loaded.asc (pairwise_sortKeys keys) fun _ _ => lookup_nil]
  simp only [bind, Except.bind, nil_append, append_nil]
  obtain ⟨-, offsets, heq⟩ := h.loaded.delete (live.filterMap (d.goneOf r.min r.max (sortKeys keys)))
  have hsame : extend D keys r = extend D (sortKeys keys) r := by
    funext k
    simp only [extend, mem_sortKeys]
  have hgone : ∀ p ∈ live, _ := fun p hp => @mem_gone d r.min r.max live p (sortKeys keys) h.loaded.asc hp
  have hnew : ∀ p ∈ live, _ := fun p hp =>
    @update_added d r.min r.max live p (sortKeys keys) d.tombstones h.loaded.asc hp
  refine ⟨_, without live (live.filterMap (d.goneOf r.min r.max (sortKeys keys))), rfl, ?_⟩
  rw [hsame]
  refine h.step hr ?_ ?_ ?_
  · intro p hp hkey
    rw [heq, hnew p hp]
    exact ((h.verdict_effect hr hp).1 (mt (hgone p hp).mpr hkey)).1
  · intro p hp hkey
    rw [heq, hnew p hp]
    exact ((h.verdict_effect hr hp).1 (mt (hgone p hp).mpr hkey)).2
  · intro p hp hkey
    exact (h.verdict_effect hr hp).2 ((hgone p hp).mp hkey)

end Applied

end Influxdb.Tsm1.Disk
