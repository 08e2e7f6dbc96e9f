import Mathlib.Data.List.Dedup
import Influxdb.Lib.Except
import Influxdb.Tsm1.IndexLayout
import Influxdb.Tsm1.Writer

/-!
# IndexRoundTrip — the index that is written is the index that is read

`recorded` are the blocks that calls of `WriteBlock` put into the index, with their positions in the file, and
`grouped` collects them by their keys.  `DirectIndex.Holds` relates the writer of the index to the records it stands
for, and so its bytes are those of `grouped`.  Loading them gives everything back, but for two things: the reader
counts in 32 bits, so an index of 2 GiB cannot be loaded, and a search never goes past the last key.
-/

namespace Influxdb.Tsm1.Disk

open List DirectIndex IndirectIndex TSMWriter Except

variable {r : KeyRecord} {b : List Byte} {iMax : Int}

/-! ## What is recorded -/

structure Added where
  key : Key
  typ : Byte
  entry : IndexEntry

/-- Where the next block is put. -/
def position (n : ℕ) : ℕ := if n = 0 then header.length else n

/-- What some calls record, when `n` bytes have been written. -/
def recorded : ℕ → List BlockWrite → List Added
  | _, [] => []
  | n, c :: cs =>
    if c.block.length = 0 then recorded n cs
    else
      match blockType c.block with
      | .error _ => recorded n cs
      | .ok typ =>
        ⟨c.key, typ, ⟨c.minTime, c.maxTime, BitVec.ofNat 64 (position n), BitVec.ofNat 32 (c.block.length + 4)⟩⟩ ::
          recorded (position n + (c.block.length + 4)) cs

/-- One more entry: for the last record if it has the key, else for a new one. -/
def addRecord (rs : List KeyRecord) (a : Added) : List KeyRecord :=
  match rs.getLast? with
  | none => [⟨a.key, a.typ, [a.entry]⟩]
  | some r =>
    if r.key = a.key then rs.dropLast ++ [{ r with entries := r.entries ++ [a.entry] }]
    else rs ++ [⟨a.key, a.typ, [a.entry]⟩]

/-- The records of some entries. -/
def grouped (as : List Added) : List KeyRecord := as.foldl addRecord []

def DirectIndex.addAll : DirectIndex → List Added → Except String DirectIndex
  | d, [] => .ok d
  | d, a :: as => do
    let d ← d.add a.key a.typ a.entry
    d.addAll as

/-- The records hold the entries of `as` by their keys. -/
structure Groups (as : List Added) (rs : List KeyRecord) : Prop where
  asc : rs.Pairwise fun r r' => r.key < r'.key
  entries : ∀ r ∈ rs, r.entries = (as.filter fun a => a.key = r.key).map (·.entry)
  typ : ∀ r ∈ rs, (as.find? fun a => a.key = r.key).map (·.typ) = some r.typ
  mem_iff : ∀ k, (∃ r ∈ rs, r.key = k) ↔ ∃ a ∈ as, a.key = k

theorem addRecord_of_eq (done : List KeyRecord) {a : Added} (h : r.key = a.key) :
    addRecord (done ++ [r]) a = done ++ [{ r with entries := r.entries ++ [a.entry] }] := by
  rw [addRecord, getLast?_concat, dropLast_concat]
  exact if_pos h

theorem addRecord_of_ne (done : List KeyRecord) {a : Added} (h : r.key ≠ a.key) :
    addRecord (done ++ [r]) a = done ++ [r] ++ [⟨a.key, a.typ, [a.entry]⟩] := by
  rw [addRecord, getLast?_concat]
  exact if_neg h

namespace Groups

variable {as : List Added} {rs done : List KeyRecord} {a : Added} {r : KeyRecord}

theorem nil : Groups [] [] :=
  ⟨Pairwise.nil, by simp, by simp, by simp⟩

theorem entries_concat_of_ne (h : Groups as rs) (hr : r ∈ rs) (hne : a.key ≠ r.key) :
    r.entries = ((as ++ [a]).filter fun a => a.key = r.key).map (·.entry) := by
  rw [filter_append, filter_cons_of_neg (by simpa using hne), filter_nil, append_nil]
  exact h.entries r hr

theorem typ_concat (h : Groups as rs) (hr : r ∈ rs) :
    ((as ++ [a]).find? fun a => a.key = r.key).map (·.typ) = some r.typ := by
  obtain ⟨b, hb, htyp⟩ := Option.map_eq_some_iff.mp (h.typ r hr)
  rw [find?_append, hb]
  exact congrArg some htyp

theorem concat_new (h : Groups as rs) (hlt : ∀ r ∈ rs, r.key < a.key) :
    Groups (as ++ [a]) (rs ++ [⟨a.key, a.typ, [a.entry]⟩]) := by
  have hnew : ∀ b ∈ as, b.key ≠ a.key := by
    intro b hb heq
    obtain ⟨r, hr, hkey⟩ := (h.mem_iff a.key).mpr ⟨b, hb, heq⟩
    exact absurd (hlt r hr) (by rw [hkey]; exact lt_irrefl _)
  refine ⟨?_, forall_mem_append.mpr ⟨?_, ?_⟩, forall_mem_append.mpr ⟨fun r hr => h.typ_concat hr, ?_⟩, ?_⟩
  · exact pairwise_append.mpr ⟨h.asc, pairwise_singleton _ _, fun r hr => forall_mem_singleton.mpr (hlt r hr)⟩
  · exact fun r hr => h.entries_concat_of_ne hr (hlt r hr).ne'
  · simpa using hnew
  · have hnone : as.find? (fun b => b.key = a.key) = none :=
      find?_eq_none.mpr fun b hb => by simpa using hnew b hb
    rw [forall_mem_singleton, find?_append, hnone]
    simp
  · intro k
    simp only [mem_append, mem_singleton, or_and_right, exists_or, exists_eq_left, h.mem_iff]

theorem concat_last (h : Groups as (done ++ [r])) (heq : r.key = a.key) :
    Groups (as ++ [a]) (done ++ [{ r with entries := r.entries ++ [a.entry] }]) := by
  obtain ⟨hdone, -, hlt⟩ := pairwise_append.mp h.asc
  have hlt : ∀ r' ∈ done, r'.key < r.key := fun r' hr' => hlt r' hr' r (mem_singleton_self r)
  have hlast := mem_append_right done (mem_singleton_self r)
  refine ⟨?_, forall_mem_append.mpr ⟨?_, forall_mem_singleton.mpr ?_⟩, forall_mem_append.mpr ⟨?_, ?_⟩, ?_⟩
  · exact pairwise_append.mpr ⟨hdone, pairwise_singleton _ _, fun r' hr' => forall_mem_singleton.mpr (hlt r' hr')⟩
  · exact fun r' hr' => h.entries_concat_of_ne (mem_append_left _ hr') (heq ▸ (hlt r' hr').ne')
  · rw [filter_append, map_append, ← h.entries r hlast]
    simp [heq]
  · exact fun r' hr' => h.typ_concat (mem_append_left _ hr')
  · have htyp := h.typ_concat (a := a) hlast
    exact forall_mem_singleton.mpr htyp
  · intro k
    rw [show (∃ a' ∈ as ++ [a], a'.key = k) ↔ (∃ a' ∈ as, a'.key = k) ∨ a.key = k by
      simp only [mem_append, mem_singleton, or_and_right, exists_or, exists_eq_left], ← h.mem_iff]
    simp only [mem_append, mem_singleton, or_and_right, exists_or, exists_eq_left, heq]
    rw [or_assoc, or_self]

theorem concat (h : Groups as rs) (hle : ∀ b ∈ as, b.key ≤ a.key) : Groups (as ++ [a]) (addRecord rs a) := by
  rcases eq_nil_or_concat' rs with rfl | ⟨done, r, rfl⟩
  · exact h.concat_new (by simp)
  have hlast : r.key ≤ a.key := by
    obtain ⟨b, hb, hkey⟩ := (h.mem_iff r.key).mp ⟨r, by simp, rfl⟩
    exact hkey ▸ hle b hb
  by_cases heq : r.key = a.key
  · rw [addRecord_of_eq done heq]
    exact h.concat_last heq
  · rw [addRecord_of_ne done heq]
    obtain ⟨-, -, hlt⟩ := pairwise_append.mp h.asc
    refine h.concat_new (forall_mem_append.mpr ⟨fun r' hr' => ?_, ?_⟩)
    · exact (hlt r' hr' r (mem_singleton_self r)).trans_le hlast
    · exact forall_mem_singleton.mpr (lt_of_le_of_ne hlast heq)

end Groups

variable {as : List Added}

theorem groups_grouped (hasc : as.Pairwise fun a a' => a.key ≤ a'.key) : Groups as (grouped as) := by
  induction as using reverseRecOn with
  | nil => exact Groups.nil
  | append_singleton as a ih =>
    obtain ⟨h1, -, h2⟩ := pairwise_append.mp hasc
    rw [grouped, foldl_append]
    exact (ih h1).concat fun b hb => h2 b hb a (mem_singleton_self a)

/-! ## The writer of the index -/

/-- What the calls ask of their entries: the keys are in order and not too long, and so are the entries of a key. -/
structure Ordered (as : List Added) : Prop where
  key_ne_nil : ∀ a ∈ as, a.key ≠ []
  key_le : ∀ a ∈ as, a.key.length ≤ 65535
  asc : as.Pairwise fun a a' => a.key ≤ a'.key
  times : as.Pairwise fun a a' => a.key = a'.key → a.entry.minTime.toInt ≤ a'.entry.minTime.toInt
  count_le : ∀ k, (as.filter fun a => a.key = k).length ≤ 65535

theorem Ordered.of_append {as as' : List Added} (h : Ordered (as ++ as')) : Ordered as := by
  refine ⟨?_, ?_, (pairwise_append.mp h.asc).1, (pairwise_append.mp h.times).1, ?_⟩
  · exact (forall_mem_append.mp h.key_ne_nil).1
  · exact (forall_mem_append.mp h.key_le).1
  · intro k
    have := h.count_le k
    rw [filter_append, length_append] at this
    omega

theorem entriesSorted_of_pairwise : ∀ {es : List IndexEntry},
    es.Pairwise (fun e e' => e.minTime.toInt ≤ e'.minTime.toInt) → entriesSorted es = true
  | [], _ => rfl
  | [_], _ => rfl
  | e :: e' :: es, h => by
    obtain ⟨h1, h2⟩ := pairwise_cons.mp h
    rw [entriesSorted, entriesSorted_of_pairwise h2, Bool.and_true, Bool.not_eq_true', decide_eq_false_iff_not, not_lt]
    exact h1 e' mem_cons_self

/-- A record whose entries are in order. -/
structure KeyRecord.Writable (r : KeyRecord) : Prop extends r.Fits where
  key_ne_nil : r.key ≠ []
  sorted : DirectIndex.entriesSorted r.entries = true

theorem Groups.writable {rs : List KeyRecord} (h : Groups as rs) (hord : Ordered as) (hr : r ∈ rs) : r.Writable := by
  obtain ⟨a, ha, hkey⟩ := (h.mem_iff r.key).mp ⟨r, hr, rfl⟩
  have hentries := h.entries r hr
  refine { key_lt := ?_, count_lt := ?_, ne_nil := ?_, key_ne_nil := ?_, sorted := ?_ }
  · have := hord.key_le a ha
    rw [hkey] at this
    omega
  · have := hord.count_le r.key
    rw [hentries, length_map]
    omega
  · rw [hentries]
    intro hnil
    have hmem : a ∈ as.filter fun a => decide (a.key = r.key) := mem_filter.mpr ⟨ha, by simpa using hkey⟩
    rw [map_eq_nil_iff.mp hnil] at hmem
    nomatch hmem
  · rw [← hkey]
    exact hord.key_ne_nil a ha
  · rw [hentries]
    refine entriesSorted_of_pairwise (pairwise_map.mpr ?_)
    refine Pairwise.imp_of_mem ?_ (hord.times.filter _)
    intro b b' hb hb' himp
    have hb := of_decide_eq_true (mem_filter.mp hb).2
    have hb' := of_decide_eq_true (mem_filter.mp hb').2
    exact himp (hb.trans hb'.symm)

/-- The writer stands for the records: all but the last are written. -/
inductive DirectIndex.Holds : DirectIndex → List KeyRecord → Prop
  | new : Holds .new []
  | last (d : DirectIndex) (done : List KeyRecord) (hkey : d.key ≠ []) (hw : d.w = encodeIndex done) :
    Holds d (done ++ [⟨d.key, d.typ, d.entries⟩])

namespace DirectIndex

variable {d : DirectIndex} {done rs : List KeyRecord} {a : Added}

theorem flush_eq (hkey : d.key ≠ []) (hw : d.w = encodeIndex done) (hr : KeyRecord.Writable ⟨d.key, d.typ, d.entries⟩) :
    d.flush = ({ d with
      w := encodeIndex (done ++ [⟨d.key, d.typ, d.entries⟩]), key := [], typ := 0, entries := [] }, none) := by
  have hcount := hr.count_lt
  simp only at hcount
  have hsorted : sortEntries d.entries = d.entries := if_pos hr.sorted
  rw [flush, if_neg (mt length_eq_zero_iff.mp hkey), if_neg (by rw [maxIndexEntries]; omega), hsorted, hw,
    encodeIndex, encodeIndex, flatMap_append, flatMap_singleton]
  rfl

theorem Holds.add (h : d.Holds rs) (hr : ∀ r ∈ rs, r.Writable) (hne : a.key ≠ []) (hle : ∀ r ∈ rs, r.key ≤ a.key) :
    ∃ d', d.add a.key a.typ a.entry = .ok d' ∧ d'.Holds (addRecord rs a) := by
  cases h with
  | new => exact ⟨_, rfl, .last (DirectIndex.new.start a.key a.typ a.entry) [] hne rfl⟩
  | last d done hkey hw =>
    have hmem : (⟨d.key, d.typ, d.entries⟩ : KeyRecord) ∈ done ++ [⟨d.key, d.typ, d.entries⟩] := by simp
    have hlast := hle _ hmem
    rw [add, if_neg (mt length_eq_zero_iff.mp hkey)]
    by_cases heq : d.key = a.key
    · rw [if_pos heq, addRecord_of_eq done heq]
      exact ⟨_, rfl, .last { d with entries := _, size := _ } done hkey hw⟩
    · rw [if_neg heq, if_pos (lt_of_le_of_ne hlast heq), addRecord_of_ne done heq, flush_eq hkey hw (hr _ hmem)]
      exact ⟨_, rfl, .last (start _ a.key a.typ a.entry) (done ++ [⟨d.key, d.typ, d.entries⟩]) hne rfl⟩

theorem Holds.writeTo (h : d.Holds rs) (hr : ∀ r ∈ rs, r.Writable) : d.writeTo = .ok (encodeIndex rs) := by
  cases h with
  | new => rfl
  | last d done hkey hw => rw [writeTo, flush_eq hkey hw (hr _ (by simp))]

end DirectIndex

theorem addAll_grouped : ∀ post pre {d : DirectIndex}, Ordered (pre ++ post) → d.Holds (grouped pre) →
    ∃ d', d.addAll post = .ok d' ∧ d'.Holds (grouped (pre ++ post))
  | [], pre, d, _, h => ⟨d, rfl, by rwa [append_nil]⟩
  | a :: post, pre, d, hord, h => by
    have hgroups := groups_grouped hord.of_append.asc
    have hbefore := (pairwise_append.mp hord.asc).2.2
    have hle : ∀ r ∈ grouped pre, r.key ≤ a.key := by
      intro r hr
      obtain ⟨b, hb, hkey⟩ := (hgroups.mem_iff r.key).mp ⟨r, hr, rfl⟩
      exact hkey ▸ hbefore b hb a mem_cons_self
    obtain ⟨d₁, hadd, h₁⟩ := h.add (fun r hr => hgroups.writable hord.of_append hr)
      (hord.key_ne_nil a (by simp)) hle
    have hgrouped : addRecord (grouped pre) a = grouped (pre ++ [a]) := by
      rw [grouped, grouped, foldl_append]
      rfl
    rw [hgrouped] at h₁
    rw [show pre ++ a :: post = pre ++ [a] ++ post by simp] at hord ⊢
    obtain ⟨d₂, hall, h₂⟩ := addAll_grouped post (pre ++ [a]) hord h₁
    refine ⟨d₂, ?_, h₂⟩
    rw [addAll, hadd]
    exact hall

/-! ## The calls -/

/-- Calls of `WriteBlock` in order: ascending keys of at most 65535 bytes, with at most 65535 blocks each, whose
times ascend. -/
structure InOrder (calls : List BlockWrite) : Prop where
  key_ne_nil : ∀ c ∈ calls, c.key ≠ []
  key_le : ∀ c ∈ calls, c.key.length ≤ 65535
  asc : calls.Pairwise fun c c' => c.key ≤ c'.key
  times : calls.Pairwise fun c c' => c.key = c'.key → c.minTime.toInt ≤ c'.minTime.toInt
  count_le : ∀ k, (calls.filter fun c => c.key = k).length ≤ 65535

theorem recorded_sublist : ∀ n calls,
    ((recorded n calls).map fun a => (a.key, a.entry.minTime)).Sublist (calls.map fun c => (c.key, c.minTime))
  | _, [] => Sublist.slnil
  | n, c :: cs => by
    rw [recorded]
    split_ifs with hblock
    · exact (recorded_sublist n cs).cons _
    · rcases blockType c.block with err | typ
      · exact (recorded_sublist n cs).cons _
      · exact (recorded_sublist _ cs).cons_cons _

theorem InOrder.ordered {calls : List BlockWrite} (h : InOrder calls) (n : ℕ) : Ordered (recorded n calls) := by
  have hsub := recorded_sublist n calls
  have hkey : ∀ {P : Key → Prop}, (∀ c ∈ calls, P c.key) → ∀ a ∈ recorded n calls, P a.key := by
    intro P hP a ha
    obtain ⟨c, hc, heq⟩ := mem_map.mp (hsub.subset (mem_map_of_mem (f := fun a => (a.key, a.entry.minTime)) ha))
    exact (Prod.mk.inj heq).1 ▸ hP c hc
  refine ⟨hkey (P := (· ≠ [])) h.key_ne_nil, hkey (P := (·.length ≤ 65535)) h.key_le, ?_, ?_, ?_⟩
  · have hasc := Pairwise.sublist (R := fun p q => p.1 ≤ q.1) hsub (pairwise_map.mpr h.asc)
    rwa [pairwise_map] at hasc
  · have htimes := Pairwise.sublist (R := fun p q => p.1 = q.1 → p.2.toInt ≤ q.2.toInt) hsub (pairwise_map.mpr h.times)
    rwa [pairwise_map] at htimes
  · intro k
    have hlen := (hsub.filter fun p => p.1 = k).length_le
    rw [filter_map, filter_map, length_map, length_map] at hlen
    exact hlen.trans (h.count_le k)

theorem addAll_writeTo (h : Ordered as) : ∃ w, new.addAll as = .ok w ∧ w.writeTo = .ok (encodeIndex (grouped as)) := by
  obtain ⟨w, hall, hw⟩ := addAll_grouped as [] h .new
  exact ⟨w, hall, hw.writeTo fun r hr => (groups_grouped h.asc).writable h hr⟩

/-! ## An index of 2 GiB -/

section TooLarge

open IndirectIndex

theorem scanKey_ok_at {o : ℕ} {s s' : IndirectIndex.Scan} (hat : At b o r) (hr : r.Fits) (ho : o < 2 ^ 31)
    (hs : s.i = o) (hpos : 0 ≤ iMax) (hlen : iMax ≤ b.length) (hmax : iMax < 2 ^ 31) (h : scanKey b iMax s = .ok s') :
    s'.offsets = s.offsets ++ [s.i] ∧ s'.i = int32 ((o + r.encode.length : ℕ) : Int) ∧
      o + r.encode.length < 2 ^ 31 + 28 := by
  obtain ⟨houtside, hinside⟩ := scanKey_spec hpos hlen hmax ho hs
  rcases hfind : (reads b o).find? (outside iMax) with _ | q
  · have hlast := inside_of_mem hfind (r := (recordEnd b o - 20, recordEnd b o - 12)) (by simp [reads])
    rw [(hat.recordEnd hr).2] at hlast hinside
    cases (hinside hfind).symm.trans h
    exact ⟨by rw [hs], rfl, by omega⟩
  · obtain ⟨msg, -, heq⟩ := houtside q hfind
    cases heq.symm.trans h

theorem scanKeys_too_large (hb : 2 ^ 31 ≤ b.length) (hmax : iMax < 2 ^ 31) :
    ∀ (rs : List KeyRecord) (fuel o : ℕ) (s s' : IndirectIndex.Scan), (∀ r ∈ rs, r.Fits) → b.drop o = encodeIndex rs →
      o < 2 ^ 31 → s.i = o → scanKeys b iMax fuel s = .ok s' → s'.offsets.length < s.offsets.length + rs.length
  | _, 0, _, _, _, _, _, _, _, h => by cases h
  | [], fuel + 1, o, s, s', _, hdrop, ho, _, _ => by
    have hlen := length_le_of_drop hdrop
    omega
  | r :: rs, fuel + 1, o, s, s', hfits, hdrop, ho, hs, h => by
    rw [scanKeys] at h
    by_cases hi : s.i < iMax
    · rw [if_pos hi] at h
      obtain ⟨s₁, hkey, h⟩ := bind_eq_ok h
      obtain ⟨hat, hrest⟩ := At.of_drop hdrop
      obtain ⟨hoffsets, hnext, hlt⟩ := scanKey_ok_at hat (hfits r mem_cons_self) ho hs (by omega) (by omega) hmax hkey
      by_cases hfit : o + r.encode.length < 2 ^ 31
      · rw [int32_of_lt (by omega) (by omega)] at hnext
        have := scanKeys_too_large hb hmax rs fuel _ s₁ s' (forall_mem_cons.mp hfits).2 hrest hfit hnext h
        rw [hoffsets, length_append, length_singleton] at this
        rw [length_cons]
        omega
      · cases fuel with
        | zero => cases h
        | succ fuel =>
          rw [scanKeys_wrapped (by omega) hnext (by omega) (by omega)] at h
          cases h
    · rw [if_neg hi] at h
      cases h
      rw [length_cons]
      omega

theorem unmarshalBinary_too_large {rs : List KeyRecord} {d : IndirectIndex} (hfits : ∀ r ∈ rs, r.Fits)
    (hlen : 2 ^ 31 ≤ (encodeIndex rs).length) (h : unmarshalBinary (encodeIndex rs) = .ok d) :
    d.keyCount ≠ rs.length := by
  rw [unmarshalBinary, if_neg (by omega)] at h
  obtain ⟨s, hscan, h⟩ := bind_eq_ok h
  have hmax : int32 ((encodeIndex rs).length : Int) < 2 ^ 31 := BitVec.toInt_lt
  have hlt := scanKeys_too_large hlen hmax rs _ 0 _ s hfits rfl (by omega) rfl hscan
  have hcount : d.keyCount = s.offsets.length := by
    rcases hhead : s.offsets.head? with _ | firstOfs
    · rw [hhead] at h
      cases h
    rcases hlast : s.offsets.getLast? with _ | lastOfs
    · rw [hhead, hlast] at h
      cases h
    rw [hhead, hlast] at h
    obtain ⟨k₁, -, h⟩ := bind_eq_ok h
    obtain ⟨k₂, -, h⟩ := bind_eq_ok h
    cases h
    exact length_map _
  rw [length_nil, Nat.zero_add] at hlt
  omega

end TooLarge

/-! ## The round trip -/

section RoundTrip

variable (as : List Added)

def keysOf : List Key := (as.map (·.key)).dedup

/-- The block type of a key, that of its first block. -/
def typeOf (key : Key) : Byte := ((as.find? fun a => a.key = key).map (·.typ)).getD 0

def entriesOf (key : Key) : List IndexEntry := (as.filter fun a => a.key = key).map (·.entry)

def indexSize : ℕ := ((keysOf as).map fun key => 5 + key.length + 28 * (entriesOf as key).length).sum

variable {as} {rs : List KeyRecord} {d : IndirectIndex}

theorem Groups.eq_nil_iff (h : Groups as rs) : rs = [] ↔ as = [] := by
  constructor
  · rintro rfl
    refine eq_nil_iff_forall_not_mem.mpr fun a ha => ?_
    obtain ⟨r, hr, -⟩ := (h.mem_iff a.key).mpr ⟨a, ha, rfl⟩
    nomatch hr
  · rintro rfl
    refine eq_nil_iff_forall_not_mem.mpr fun r hr => ?_
    obtain ⟨a, ha, -⟩ := (h.mem_iff r.key).mp ⟨r, hr, rfl⟩
    nomatch ha

variable (h : Groups as rs) (hasc : as.Pairwise fun a a' => a.key ≤ a'.key)
include h hasc

theorem Groups.map_key : rs.map (·.key) = keysOf as := by
  have hkeys : (as.map (·.key)).Pairwise (· ≤ ·) := pairwise_map.mpr hasc
  have hdedup : (keysOf as).Pairwise (· < ·) := by
    have hle := hkeys.sublist (dedup_sublist (as.map (·.key)))
    have hne := nodup_dedup (as.map (·.key))
    exact (hle.and hne).imp fun h => lt_of_le_of_ne h.1 h.2
  refine Pairwise.eq_of_mem_iff (pairwise_map.mpr h.asc) hdedup ?_
  intro k
  rw [keysOf, mem_dedup, mem_map, mem_map]
  exact h.mem_iff k

theorem Groups.length_encodeIndex : (encodeIndex rs).length = indexSize as := by
  rw [encodeIndex, length_flatMap, indexSize, ← h.map_key hasc, map_map]
  refine congrArg sum (map_congr_left fun r hr => ?_)
  rw [Function.comp_apply, r.length_encode, entriesOf, ← h.entries r hr]

theorem Groups.map_key_layout : keysOf as = (layout 0 rs).map fun p => p.2.key := by
  rw [← h.map_key hasc]
  conv_lhs => rw [← map_snd_layout 0 rs]
  rw [map_map]
  rfl

theorem Loads.keyCount_eq (hd : Loads rs d) : d.keyCount = (keysOf as).length := by
  rw [IndirectIndex.keyCount, hd.loaded.length_offsets, h.map_key_layout hasc, length_map]

end RoundTrip

theorem unmarshalBinary_grouped (h : Ordered as) (hlt : indexSize as < 2 ^ 31) :
    ∃ d, unmarshalBinary (encodeIndex (grouped as)) = .ok d ∧ Loads (grouped as) d ∧
      (grouped as ≠ [] → d.minTime = (grouped as).foldl (fun m r => min r.minTime m) maxInt64 ∧
        d.maxTime = (grouped as).foldl (fun m r => max r.maxTime m) 0) := by
  have hgroups := groups_grouped h.asc
  exact unmarshalBinary_encode (fun r hr => (hgroups.writable h hr).toFits) hgroups.asc
    (by rwa [hgroups.length_encodeIndex h.asc])

theorem indexSize_lt {d : IndirectIndex} (h : Ordered as) (hload : unmarshalBinary (encodeIndex (grouped as)) = .ok d)
    (hcount : d.keyCount = (keysOf as).length) : indexSize as < 2 ^ 31 := by
  have hgroups := groups_grouped h.asc
  by_contra hge
  rw [← hgroups.length_encodeIndex h.asc, Nat.not_lt] at hge
  apply unmarshalBinary_too_large (fun r hr => (hgroups.writable h hr).toFits) hge hload
  rw [hcount, ← hgroups.map_key h.asc, length_map]

/-- Entries whose times ascend and do not overlap, key by key. -/
structure Apart (as : List Added) : Prop extends Ordered as where
  span : ∀ a ∈ as, a.entry.minTime.toInt ≤ a.entry.maxTime.toInt
  apart : as.Pairwise fun a a' => a.key = a'.key → a.entry.maxTime.toInt < a'.entry.minTime.toInt

/-- All keys are loaded, and the time range is the one of all entries. -/
structure ExactRange (as : List Added) (d : IndirectIndex) : Prop where
  keyCount : d.keyCount = (keysOf as).length
  minTime : IsLeast {t | ∃ a ∈ as, a.entry.minTime.toInt = t} d.minTime
  maxTime : IsGreatest {t | ∃ a ∈ as, a.entry.maxTime.toInt = t} d.maxTime

/-- The least of some records is the least of all, if the fold does not start below. -/
theorem isLeast_foldl_min_iff {α : Type} [LinearOrder α] {time : KeyRecord → α} {f : IndexEntry → α} {m : α}
    {rs : List KeyRecord} (h : ∀ r ∈ rs, IsLeast {t | ∃ e ∈ r.entries, f e = t} (time r)) :
    IsLeast {t | ∃ r ∈ rs, ∃ e ∈ r.entries, f e = t} (rs.foldl (fun m r => min (time r) m) m) ↔
      ∃ r ∈ rs, ∃ e ∈ r.entries, f e ≤ m := by
  obtain ⟨hmem, hle⟩ := isLeast_foldl_min time rs m
  constructor
  · rintro ⟨⟨r, hr, e, he, heq⟩, -⟩
    exact ⟨r, hr, e, he, heq ▸ hle (.inl rfl)⟩
  · rintro ⟨r, hr, e, he, hem⟩
    have hlower : ∀ r ∈ rs, ∀ e ∈ r.entries, rs.foldl (fun m r => min (time r) m) m ≤ f e := fun r hr e he =>
      (hle (.inr ⟨r, hr, rfl⟩)).trans ((h r hr).2 ⟨e, he, rfl⟩)
    refine ⟨?_, ?_⟩
    · rcases hmem with hm | ⟨r', hr', heq⟩
      · exact ⟨r, hr, e, he, le_antisymm (hem.trans_eq hm.symm) (hlower r hr e he)⟩
      · obtain ⟨e', he', heq'⟩ := (h r' hr').1
        exact ⟨r', hr', e', he', heq'.trans heq⟩
    · rintro t ⟨r, hr, e, he, rfl⟩
      exact hlower r hr e he

theorem Groups.exists_entry_iff {rs : List KeyRecord} (h : Groups as rs) (p : IndexEntry → Prop) :
    (∃ r ∈ rs, ∃ e ∈ r.entries, p e) ↔ ∃ a ∈ as, p a.entry := by
  constructor
  · rintro ⟨r, hr, e, he, hp⟩
    rw [h.entries r hr] at he
    obtain ⟨a, ha, rfl⟩ := mem_map.mp he
    exact ⟨a, (mem_filter.mp ha).1, hp⟩
  · rintro ⟨a, ha, hp⟩
    obtain ⟨r, hr, hkey⟩ := (h.mem_iff a.key).mpr ⟨a, ha, rfl⟩
    refine ⟨r, hr, a.entry, ?_, hp⟩
    rw [h.entries r hr]
    exact mem_map_of_mem (mem_filter.mpr ⟨ha, decide_eq_true hkey.symm⟩)

theorem Groups.apart {as : List Added} {rs : List KeyRecord} (h : Groups as rs) (ha : Apart as) (hr : r ∈ rs) :
    r.entries.Pairwise fun e e' => e.minTime.toInt ≤ e'.minTime.toInt ∧ e.maxTime.toInt ≤ e'.maxTime.toInt := by
  rw [h.entries r hr, pairwise_map]
  refine Pairwise.imp_of_mem ?_ (ha.apart.filter _)
  intro b b' hb hb' hlt
  obtain ⟨hb, hkey⟩ := mem_filter.mp hb
  obtain ⟨hb', hkey'⟩ := mem_filter.mp hb'
  have hlt := hlt ((of_decide_eq_true hkey).trans (of_decide_eq_true hkey').symm)
  have hspan := ha.span b hb
  have hspan' := ha.span b' hb'
  omega

variable (hne : r.entries ≠ []) (hr : r.entries.Pairwise fun e e' =>
  e.minTime.toInt ≤ e'.minTime.toInt ∧ e.maxTime.toInt ≤ e'.maxTime.toInt)
include hne hr

theorem KeyRecord.isLeast_minTime : IsLeast {t | ∃ e ∈ r.entries, e.minTime.toInt = t} r.minTime := by
  obtain ⟨e, es, hes⟩ := exists_cons_of_ne_nil hne
  rw [KeyRecord.minTime, hes]
  rw [hes] at hr
  refine ⟨⟨e, mem_cons_self, rfl⟩, ?_⟩
  rintro t ⟨e', he', rfl⟩
  rcases mem_cons.mp he' with rfl | he'
  · exact le_rfl
  · exact ((pairwise_cons.mp hr).1 e' he').1

theorem KeyRecord.isGreatest_maxTime : IsGreatest {t | ∃ e ∈ r.entries, e.maxTime.toInt = t} r.maxTime := by
  obtain ⟨es, e, hes⟩ := (eq_nil_or_concat' r.entries).resolve_left hne
  rw [KeyRecord.maxTime, hes, getLast?_concat]
  rw [hes] at hr
  refine ⟨⟨e, by simp, rfl⟩, ?_⟩
  rintro t ⟨e', he', rfl⟩
  rcases mem_append.mp he' with he' | he'
  · exact ((pairwise_append.mp hr).2.2 e' he' e (mem_singleton_self e)).2
  · rw [mem_singleton.mp he']
    exact le_rfl

omit hne hr

/-- **The time range of a file.**  The index of some entries is loaded with all keys and the exact time range if and
only if it is below 2 GiB and some entry ends in 1970 or later: the search for the last time starts at 0. -/
theorem time_range_exact_iff (h : Apart as) (hne : as ≠ []) :
    (∃ w b d, DirectIndex.new.addAll as = .ok w ∧ w.writeTo = .ok b ∧ IndirectIndex.unmarshalBinary b = .ok d ∧
        ExactRange as d) ↔ indexSize as < 2 ^ 31 ∧ ∃ a ∈ as, 0 ≤ a.entry.maxTime.toInt := by
  have hgroups := groups_grouped h.asc
  obtain ⟨w, hall, hw⟩ := addAll_writeTo h.toOrdered
  have hmin := @isLeast_foldl_min_iff ℤ _ KeyRecord.minTime (·.minTime.toInt) maxInt64 (grouped as) fun r hr =>
    r.isLeast_minTime (hgroups.writable h.toOrdered hr).ne_nil (hgroups.apart h hr)
  have hmax := @isLeast_foldl_min_iff ℤᵒᵈ _ KeyRecord.maxTime (·.maxTime.toInt) (0 : ℤ) (grouped as) fun r hr =>
    r.isGreatest_maxTime (hgroups.writable h.toOrdered hr).ne_nil (hgroups.apart h hr)
  simp only [hgroups.exists_entry_iff] at hmin hmax
  have hloads : indexSize as < 2 ^ 31 → ∃ d, unmarshalBinary (encodeIndex (grouped as)) = .ok d ∧
      (ExactRange as d ↔ ∃ a ∈ as, 0 ≤ a.entry.maxTime.toInt) := by
    intro hlt
    obtain ⟨d, hload, hd, htimes⟩ := unmarshalBinary_grouped h.toOrdered hlt
    obtain ⟨hmin', hmax'⟩ := htimes (mt hgroups.eq_nil_iff.mp hne)
    refine ⟨d, hload, ?_⟩
    constructor
    · exact fun hexact => hmax.mp (hmax' ▸ hexact.maxTime)
    · intro hpos
      refine ⟨hd.keyCount_eq hgroups h.asc, hmin' ▸ hmin.mpr ?_, hmax' ▸ hmax.mpr hpos⟩
      obtain ⟨a, ha⟩ := exists_mem_of_ne_nil as hne
      exact ⟨a, ha, Int.le_of_lt_add_one a.entry.minTime.toInt_lt⟩
  constructor
  · rintro ⟨w', b, d, hall', hw', hload, hexact⟩
    obtain rfl : w = w' := ok.inj (hall.symm.trans hall')
    obtain rfl := ok.inj (hw.symm.trans hw')
    have hlt := indexSize_lt h.toOrdered hload hexact.keyCount
    obtain ⟨d', hload', hiff⟩ := hloads hlt
    obtain rfl : d = d' := ok.inj (hload.symm.trans hload')
    exact ⟨hlt, hiff.mp hexact⟩
  · rintro ⟨hlt, hpos⟩
    obtain ⟨d, hload, hiff⟩ := hloads hlt
    exact ⟨w, _, d, hall, hw, hload, hiff.mpr hpos⟩

/-- Two keys with two entries each; the first time is one of the second key, the last one of the first. -/
def spread : List Added :=
  [⟨[97], 0, ⟨-9, -7, 5, 4⟩⟩, ⟨[97], 0, ⟨-5, 8, 9, 9⟩⟩, ⟨[98], 1, ⟨-20, -1, 18, 7⟩⟩, ⟨[98], 1, ⟨4, 6, 25, 8⟩⟩]

theorem time_range_exact_spread : ∃ w b d, DirectIndex.new.addAll spread = .ok w ∧ w.writeTo = .ok b ∧
    IndirectIndex.unmarshalBinary b = .ok d ∧ ExactRange spread d := by
  refine (time_range_exact_iff ⟨⟨by decide, by decide, by decide, by decide, ?_⟩, by decide, by decide⟩ ?_).mpr
    ⟨by decide, by decide⟩
  · exact fun k => (length_filter_le _ _).trans (by decide)
  · decide

/-- A file that ends before 1970 ends at 0. -/
theorem time_range_before_1970 : ∃ w b d, DirectIndex.new.addAll [⟨[97], 0, ⟨-5, -3, 5, 9⟩⟩] = .ok w ∧
    w.writeTo = .ok b ∧ IndirectIndex.unmarshalBinary b = .ok d ∧ d.minTime = -5 ∧ d.maxTime = 0 := by
  refine ⟨_, _, _, rfl, rfl, rfl, ?_, ?_⟩ <;> decide

end Influxdb.Tsm1.Disk
