import Influxdb.Tsm1.DeletedRanges
import Influxdb.Tsm1.File
import Influxdb.Tsm1.PooledDecoders
import Influxdb.Tsm1.Reader
import Influxdb.Tsm1.TombstoneFile

/-!
# ReaderDelete — deletions are exact and survive reopening

Every tombstone that is walked over ends up in the index, however the tombstones are batched.  A deletion writes the
tombstones that are needed: those it leaves out miss every key of the file.  So the index shows the same deletions
after each call as after reading all of the file again, and what is read are the points outside of the deleted ranges.
-/

namespace Influxdb.Tsm1.Disk

open List Cursors IndirectIndex Tombstoner

variable {e : IndexEntry}

/-! ## Batches -/

def Tombstone.range (x : Tombstone) : TimeRange := ⟨x.min.toInt, x.max.toInt⟩

theorem Tombstone.inInt64 (x : Tombstone) : InInt64 x.range := toInt_inInt64 x.min x.max

/-- The ranges with those of some tombstones. -/
def withAll (D : Key → List TimeRange) (ts : List Tombstone) : Key → List TimeRange :=
  ts.foldl (fun D x => extend D [x.key] x.range) D

theorem mem_withAll {ts : List Tombstone} {k : Key} {r : TimeRange} : ∀ {D : Key → List TimeRange},
    r ∈ withAll D ts k ↔ r ∈ D k ∨ ∃ x ∈ ts, x.key = k ∧ x.range = r := by
  induction ts with
  | nil => exact fun {D} => ⟨.inl, fun h => h.resolve_right fun ⟨x, hx, _⟩ => nomatch hx⟩
  | cons x ts ih =>
    intro D
    rw [withAll, foldl_cons, ← withAll, ih, mem_extend, mem_singleton, or_assoc, exists_mem_cons_iff]
    exact or_congr_right (or_congr_left (and_congr eq_comm eq_comm))

variable {rs : List KeyRecord} {D D' : Key → List TimeRange} {s : Batch}

/-- The index and the batch stand for the ranges together. -/
def Batch.Stands (rs : List KeyRecord) (s : Batch) (D : Key → List TimeRange) : Prop :=
  ∃ live D₁, Applied rs s.index live D₁ ∧ ∀ k r, r ∈ D k ↔ r ∈ D₁ k ∨ (k ∈ s.batch ∧ r = s.prev.range)

namespace Batch

theorem Stands.apply (h : Stands rs s D) : ∃ index live, s.apply = .ok { s with index := index, batch := [] } ∧
    Applied rs index live D := by
  obtain ⟨live, D₁, happ, hmem⟩ := h
  obtain ⟨d', live', heq, happ'⟩ := happ.deleteRange s.batch s.prev.inInt64
  refine ⟨d', live', ?_, happ'.congr fun k r => (hmem k r).trans mem_extend.symm⟩
  rw [Batch.apply]
  exact congrArg (· >>= _) heq

theorem stands_of_applied {index : IndirectIndex} {live : List (ℕ × KeyRecord)} (h : Applied rs index live D)
    (prev : Tombstone) : Stands rs ⟨index, [], prev⟩ D :=
  ⟨live, D, h, fun _ _ => ⟨.inl, fun h => h.resolve_right fun h => nomatch h.1⟩⟩

theorem Stands.turn (h : Stands rs s D) (x : Tombstone) : ∃ s', s.turn x = .ok s' ∧ Stands rs s' D ∧
    (s'.batch = [] ∨ s'.prev.range = x.range) := by
  unfold Batch.turn
  split_ifs with hturn
  · obtain ⟨index, live, heq, happ⟩ := h.apply
    exact ⟨_, heq, stands_of_applied happ s.prev, .inl rfl⟩
  · refine ⟨s, rfl, h, ?_⟩
    by_cases hnil : s.batch = []
    · exact .inl hnil
    · simp only [ne_eq, hnil, not_false_eq_true, true_and, not_or, not_not] at hturn
      exact .inr (by rw [Tombstone.range, Tombstone.range, hturn.1, hturn.2])

/-- **One tombstone.** -/
theorem Stands.push (h : Stands rs s D) (x : Tombstone) :
    ∃ s', s.push x = .ok s' ∧ Stands rs s' (extend D [x.key] x.range) := by
  obtain ⟨s₁, heq, ⟨live, D₁, happ, hmem⟩, hrange⟩ := h.turn x
  -- the batch with the new key, under the range of `x`
  have hjoin : Stands rs ⟨s₁.index, s₁.batch ++ [x.key], x⟩ (extend D [x.key] x.range) := by
    refine ⟨live, D₁, happ, fun k r => ?_⟩
    rw [mem_extend, hmem, or_assoc, mem_append]
    refine or_congr_right ?_
    rcases hrange with hnil | hprev
    · simp [hnil]
    · rw [hprev, or_and_right]
  rw [Batch.push, heq]
  simp only [bind, Except.bind, fill]
  split_ifs with hfull
  · rcases hrange with hnil | hprev
    · rw [hnil] at hfull
      exact absurd hfull (by simp)
    · have hjoin' : Stands rs { s₁ with batch := s₁.batch ++ [x.key] } (extend D [x.key] x.range) := by
        obtain ⟨live, D₂, happ, hmem⟩ := hjoin
        exact ⟨live, D₂, happ, fun k r => (hmem k r).trans (by rw [hprev])⟩
      obtain ⟨index, live, heq, happ⟩ := hjoin'.apply
      rw [heq]
      exact ⟨_, rfl, stands_of_applied happ x⟩
  · exact ⟨_, rfl, hjoin⟩

/-- **All tombstones.** -/
theorem Stands.foldlM (h : Stands rs s D) (ts : List Tombstone) :
    ∃ s', ts.foldlM Batch.push s = .ok s' ∧ Stands rs s' (withAll D ts) := by
  induction ts generalizing s D with
  | nil => exact ⟨s, rfl, h⟩
  | cons x ts ih =>
    obtain ⟨s₁, heq, h₁⟩ := h.push x
    obtain ⟨s', heq', h'⟩ := ih h₁
    refine ⟨s', ?_, h'⟩
    rw [foldlM_cons, heq]
    exact heq'

theorem Stands.finish (h : Stands rs s D) : ∃ s' live, s.finish = .ok s' ∧ Applied rs s'.index live D := by
  unfold Batch.finish
  split_ifs with hne
  · obtain ⟨index, live, heq, happ⟩ := h.apply
    exact ⟨_, live, heq, happ⟩
  · obtain ⟨live, D₁, happ, hmem⟩ := h
    refine ⟨s, live, rfl, happ.congr fun k r => ?_⟩
    rw [hmem, not_not.mp hne, or_iff_left fun h => nomatch h.1]

end Batch

/-- **`applyTombstones`** adds the ranges of all tombstones that it walks over. -/
theorem Applied.applyTombstones {g : Gzip} {t : TSMReader} {live : List (ℕ × KeyRecord)} {ts : List Tombstone}
    {tombstoner : Tombstoner} (h : Applied rs t.index live D) (hwalk : t.tombstoner.walk g = ((ts, none), tombstoner)) :
    ∃ index live', t.applyTombstones g = .ok { t with index := index, tombstoner := tombstoner } ∧
      Applied rs index live' (withAll D ts) := by
  obtain ⟨s₁, heq₁, h₁⟩ := (Batch.stands_of_applied h ⟨[], 0, 0⟩).foldlM ts
  obtain ⟨s₂, live', heq₂, h₂⟩ := h₁.finish
  refine ⟨s₂.index, live', ?_, h₂⟩
  rw [TSMReader.applyTombstones, hwalk]
  simp only [heq₁, heq₂, bind, Except.bind]
  rfl

/-! ## Files -/

variable (decompress : List Byte → Except String (List Byte)) (file : List Byte)

def storedBlock (e : IndexEntry) : ValueArray Value :=
  match TSMReader.blockAt file e with
  | .ok bytes => TSMReader.pointsOf (decodeBlock decompress .zero bytes).1
  | .error _ => []

def stored (rs : List KeyRecord) (key : Key) : ValueArray Value :=
  (rs.filter (·.key = key)).flatMap fun rec => rec.entries.flatMap (storedBlock decompress file)

/-- The entry describes a block of ascending points exactly, and new decoders read it. -/
structure ExactEntry (e : IndexEntry) : Prop where
  read : ∃ bytes, TSMReader.blockAt file e = .ok bytes ∧ (decodeBlock decompress .zero bytes).1.2 = none
  ne_nil : storedBlock decompress file e ≠ []
  asc : Timed.Asc (storedBlock decompress file e)
  minTime : (storedBlock decompress file e).minTime = e.minTime.toInt
  maxTime : (storedBlock decompress file e).maxTime = e.maxTime.toInt

/-- A file with blocks, the index of the records, and the position of the index. -/
structure ExactFile (rs : List KeyRecord) : Prop where
  bytes : ∃ blocks, file =
    header ++ blocks ++ encodeIndex rs ++ putUint64 (BitVec.ofNat 64 (header ++ blocks).length)
  length_lt : file.length < 2 ^ 63
  ne_nil : rs ≠ []
  fits : ∀ rec ∈ rs, rec.Fits
  asc : rs.Pairwise fun rec rec' => rec.key < rec'.key
  index_lt : (encodeIndex rs).length < 2 ^ 31
  exact : ∀ rec ∈ rs, ∀ e ∈ rec.entries, ExactEntry decompress file e
  within : ∀ rec ∈ rs, ∀ e ∈ rec.entries, rec.minTime ≤ e.minTime.toInt ∧ e.maxTime.toInt ≤ rec.maxTime

variable {decompress file}

theorem ExactEntry.le (h : ExactEntry decompress file e) : e.minTime.toInt ≤ e.maxTime.toInt := by
  rw [← h.minTime, ← h.maxTime]
  exact ValueArray.minTime_le_maxTime h.asc h.ne_nil

theorem ExactEntry.between (h : ExactEntry decompress file e) {p : Int × Value}
    (hp : p ∈ storedBlock decompress file e) : e.minTime.toInt ≤ p.1 ∧ p.1 ≤ e.maxTime.toInt := by
  rw [← h.minTime, ← h.maxTime]
  exact ⟨ValueArray.minTime_le h.asc hp, ValueArray.le_maxTime h.asc hp⟩

theorem verifyVersion_header (rest : List Byte) : verifyVersion (header ++ rest) = .ok () := by
  have hlen : (header ++ rest).length = rest.length + 5 := by
    rw [length_append, Nat.add_comm]
    rfl
  have hmagic : uint32 (header ++ rest) = magicNumber := by
    rw [header, append_assoc, uint32_putUint32_append]
  rw [verifyVersion, if_neg (by omega), if_neg (not_not.mpr hmagic), if_neg (by omega), if_neg]
  exact not_not.mpr rfl

/-- **Opening a file** loads its index. -/
theorem ExactFile.init (h : ExactFile decompress file rs) : ∃ d, init file = .ok d ∧ Loads rs d := by
  obtain ⟨blocks, hfile⟩ := h.bytes
  obtain ⟨d, heq, hloads, -⟩ := unmarshalBinary_encode h.fits h.asc h.index_lt
  refine ⟨d, ?_, hloads⟩
  have hlen := h.length_lt
  have hpos := length_le_encodeIndex rs
  have hne := length_pos_iff.mpr h.ne_nil
  have hsize : file.length = (header ++ blocks).length + (encodeIndex rs).length + 8 := by
    rw [hfile, length_append, length_append, length_putUint64]
  have hofs : file.drop (file.length - 8) = putUint64 (BitVec.ofNat 64 (header ++ blocks).length) := by
    rw [hsize, Nat.add_sub_cancel, hfile, ← length_append, drop_left]
  have hindex : (file.take (file.length - 8)).drop (header ++ blocks).length = encodeIndex rs := by
    rw [hsize, Nat.add_sub_cancel, hfile, ← length_append, take_left, drop_left]
  have hstart : (uint64 (file.drop (file.length - 8))).toNat = (header ++ blocks).length := by
    have h := uint64_putUint64_append (BitVec.ofNat 64 (header ++ blocks).length) []
    rw [append_nil] at h
    rw [hofs, h, BitVec.toNat_ofNat]
    exact Nat.mod_eq_of_lt (by omega)
  have hversion : verifyVersion file = .ok () := by
    rw [hfile, append_assoc, append_assoc]
    exact verifyVersion_header _
  rw [Disk.init, hversion]
  simp only [bind, Except.bind, hstart]
  rw [if_neg (by omega), if_neg (by omega), hindex, heq]

theorem ExactFile.applied (h : ExactFile decompress file rs) {d : IndirectIndex} (hd : Loads rs d) :
    Applied rs d (layout 0 rs) fun _ => [] where
  loaded := hd.loaded
  sub p hp := hp
  sound p _ r hr := by rwa [hd.tombstones] at hr
  complete _ _ _ hr := nomatch hr
  gone p hp hnot := absurd hp hnot
  int64 _ _ hr := nomatch hr
  fits := h.fits
  span rec hrec := by
    obtain ⟨e, he⟩ := exists_mem_of_ne_nil _ (h.fits rec hrec).ne_nil
    have hle := (h.exact rec hrec e he).le
    obtain ⟨h1, h2⟩ := h.within rec hrec e he
    omega
  between rec hrec := by
    obtain ⟨p, hp, rfl⟩ := exists_mem_layout 0 hrec
    exact hd.loaded.between p hp
  minTime := hd.minTime
  maxTime := hd.maxTime

/-! ## Reading -/

/-- The block of an entry has the type byte of booleans. -/
def IsBoolean (file : List Byte) (e : IndexEntry) : Prop :=
  ∃ bytes, TSMReader.blockAt file e = .ok bytes ∧ bytes.headD 0 = blockBoolean

section Readable

variable {pool : Decoders} {bytes : List Byte} (hnone : (decodeBlock decompress .zero bytes).1.2 = none)
include hnone

theorem openBlock_of_head (hhead : bytes.headD 0 = blockBoolean) :
    ∃ tb vb sz, openBlock blockBoolean bytes = .ok (tb, vb, sz) := by
  rcases hopen : openBlock blockBoolean bytes with err | ⟨tb, vb, sz⟩
  · have hne : ∀ typ ∈ [blockFloat64, blockInteger, blockUnsigned], bytes.headD 0 ≠ typ := by
      rw [hhead]
      decide
    simp only [forall_mem_cons, not_mem_nil, false_implies, implies_true, and_true] at hne
    rw [decodeBlock, if_neg hne.1, if_neg hne.2.1, if_neg hne.2.2, if_pos hhead, decodeBooleanBlock, decodeTypedBlock,
      hopen] at hnone
    split_ifs at hnone
    cases hnone
  · exact ⟨tb, vb, sz, rfl⟩

/-- **Used decoders** read the block as well, if they have kept no error or it has no booleans. -/
theorem decodeBlock_clean (hne : (decodeBlock decompress .zero bytes).1.1 ≠ [])
    (h : pool.boolean.err = none ∨ bytes.headD 0 ≠ blockBoolean) :
    (decodeBlock decompress pool bytes).1 = (decodeBlock decompress .zero bytes).1 ∧
      (decodeBlock decompress pool bytes).2.boolean.err = pool.boolean.err := by
  rcases hopen : openBlock blockBoolean bytes with err | ⟨tb, vb, sz⟩
  · obtain ⟨hsame, hbool⟩ := decodeBlock_other hopen pool
    exact ⟨hsame, congrArg _ hbool⟩
  have hsz : tb = [] → sz = 0 := by
    rintro rfl
    exact openBlock_nil hopen
  have herr := h.resolve_right (not_not.mpr (openBlock_head hopen).1)
  rw [decodeBlock_boolean hopen] at hnone hne
  have hmal : ¬ MalformedCount vb := fun hmal => by
    have hbad : (decodeBytes booleanDecoder tb vb sz .zero .zero).1.2 = none := hnone
    rw [decodeBytes_boolean, BooleanDecoder.setBytes_malformed hmal] at hbad
    split_ifs at hbad with htime
    exact htime hbad
  have hvb : vb ≠ [] := by
    rintro rfl
    refine hne (map_eq_nil_iff.mpr ?_)
    rw [decodeBytes_boolean]
    exact (decodePairs_nil_iff _ _ _ _).mpr fun h => absurd (BooleanDecoder.next_true_iff.mp h.2).2 (by decide)
  constructor
  · rw [decodeBlock_boolean hopen, decodeBlock_boolean hopen]
    exact congrArg (Decoded.of .boolean) (decodeBytes_boolean_of_hidden _ _ hsz (.inr (.inr ⟨herr, .inl hvb⟩)))
  · rw [herr, decodeBlock_boolean_err]
    refine ⟨herr, ?_⟩
    rintro ⟨tb', vb', sz', hopen', hmal'⟩
    cases hopen.symm.trans hopen'
    exact hmal hmal'

/-- **A decoder that has kept an error** reads no booleans. -/
theorem decodeBlock_kept (herr : pool.boolean.err ≠ none) (hhead : bytes.headD 0 = blockBoolean) :
    (decodeBlock decompress pool bytes).1.2 ≠ none := by
  obtain ⟨tb, vb, sz, hopen⟩ := openBlock_of_head hnone hhead
  rw [decodeBlock_boolean hopen]
  show (decodeBytes booleanDecoder tb vb sz pool.time pool.boolean).1.2 ≠ none
  rw [decodeBytes_boolean]
  split_ifs with htime
  · exact htime
  · by_cases hmal : MalformedCount vb
    · rw [BooleanDecoder.setBytes_malformed hmal]
      simp
    · rwa [BooleanDecoder.setBytes_err hmal]

end Readable

/-- The tombstones and the ranges agree on some times. -/
def Agree (tombstones ranges : List TimeRange) (lo hi : Int) : Prop :=
  ∀ t, lo ≤ t → t ≤ hi → (Live tombstones t ↔ Live ranges t)

theorem filter_live_covers {tombstones : List TimeRange} (he : ExactEntry decompress file e)
    (hcov : tombstones.any (TSMReader.covers e) = true) :
    ((storedBlock decompress file e).filter fun p => Live tombstones p.1) = [] := by
  obtain ⟨r, hr, hcov⟩ := any_eq_true.mp hcov
  rw [TSMReader.covers, Bool.and_eq_true, decide_eq_true_eq, decide_eq_true_eq] at hcov
  refine filter_eq_nil_iff.mpr fun p hp => ?_
  obtain ⟨h1, h2⟩ := he.between hp
  rw [decide_eq_true_eq]
  intro hlive
  exact hlive r hr ⟨by omega, by omega⟩

theorem map_append_eq_ok {α ε : Type*} {r : Except ε (List α)} {a b : List α} :
    r.map (a ++ ·) = .ok (a ++ b) ↔ r = .ok b := by
  cases r <;> simp [Except.map]

/-- **The blocks of a key** give its points outside of the ranges, exactly if no decoder that has kept an error is used
for booleans. -/
theorem readBlocks_iff {tombstones ranges : List TimeRange} {lo hi : Int} (hagree : Agree tombstones ranges lo hi) :
    ∀ es pool, (∀ e ∈ es, ExactEntry decompress file e ∧ lo ≤ e.minTime.toInt ∧ e.maxTime.toInt ≤ hi) →
      ((TSMReader.readBlocks decompress file tombstones es pool).1 =
        .ok ((es.flatMap (storedBlock decompress file)).filter fun p => Live ranges p.1) ↔
      pool.boolean.err = none ∨ ∀ e ∈ es, tombstones.any (TSMReader.covers e) = false → ¬ IsBoolean file e)
  | [], _, _ => iff_of_true rfl (.inr fun _ h => nomatch h)
  | e :: es, pool, hes => by
    obtain ⟨⟨he, hlo, hhi⟩, hrest⟩ := forall_mem_cons.mp hes
    have hlive : ((storedBlock decompress file e).filter fun p => Live tombstones p.1) =
        (storedBlock decompress file e).filter fun p => Live ranges p.1 := by
      refine filter_congr fun p hp => ?_
      obtain ⟨h1, h2⟩ := he.between hp
      rw [decide_eq_decide]
      exact hagree p.1 (by omega) (by omega)
    rw [TSMReader.readBlocks, flatMap_cons, filter_append, ← hlive, forall_mem_cons]
    split_ifs with hcov
    · rw [filter_live_covers he hcov, nil_append, readBlocks_iff hagree es pool hrest, hcov]
      simp
    obtain ⟨bytes, hread, hnone⟩ := he.read
    have hstored : storedBlock decompress file e = TSMReader.pointsOf (decodeBlock decompress .zero bytes).1 := by
      rw [storedBlock, hread]
    have hne : (decodeBlock decompress .zero bytes).1.1 ≠ [] := fun hnil =>
      he.ne_nil (hstored.trans (map_eq_nil_iff.mpr hnil))
    have hbool : IsBoolean file e ↔ bytes.headD 0 = blockBoolean :=
      ⟨fun ⟨b, hb, hhead⟩ => Except.ok.inj (hread.symm.trans hb) ▸ hhead, fun hhead => ⟨bytes, hread, hhead⟩⟩
    rw [hread, Bool.eq_false_iff.mpr hcov, hbool]
    by_cases hclean : pool.boolean.err = none ∨ bytes.headD 0 ≠ blockBoolean
    · obtain ⟨hsame, hkept⟩ := decodeBlock_clean hnone hne hclean
      have hrestIff := readBlocks_iff hagree es (decodeBlock decompress pool bytes).2 hrest
      rw [← hsame] at hstored hnone
      rcases hdec : decodeBlock decompress pool bytes with ⟨⟨temp, err⟩, pool'⟩
      rw [hdec] at hnone hkept hstored hrestIff
      cases hnone
      simp only [hdec]
      rw [← hstored, excludeTombstones_eq _ he.asc, map_append_eq_ok, hrestIff, hkept]
      refine ⟨fun h => ?_, .imp_right And.right⟩
      exact (em (pool.boolean.err = none)).imp_right fun herr => ⟨fun _ => hclean.resolve_left herr, h.resolve_left herr⟩
    · obtain ⟨herr, hhead⟩ := not_or.mp hclean
      have hfails := decodeBlock_kept hnone herr (not_not.mp hhead)
      rcases hdec : decodeBlock decompress pool bytes with ⟨⟨temp, _ | err⟩, pool'⟩
      · rw [hdec] at hfails
        exact absurd rfl hfails
      · simp only [hdec]
        exact iff_of_false (fun h => nomatch h) fun h => (h.resolve_left herr).1 trivial (not_not.mp hhead)

/-- Reading a key needs no boolean decoder, or the one at hand has kept no error: of its blocks, those under one
deleted range are not read. -/
def TSMReader.Clean (t : TSMReader) (pool : Decoders) (key : Key) : Prop :=
  pool.boolean.err = none ∨ ∀ blocks, t.index.entries key = .ok blocks → ∀ e ∈ blocks,
    (t.index.tombstoneRange key).any (covers e) = false → ¬ IsBoolean t.b e

variable {d : IndirectIndex} {live : List (ℕ × KeyRecord)} {key : Key}

theorem Applied.agree (h : Applied rs d live D) {p : ℕ × KeyRecord} (hp : p ∈ live) :
    Agree (d.tombstones p.2.key) (D p.2.key) p.2.minTime p.2.maxTime := by
  intro t h1 h2
  constructor
  · intro hlive r hr
    rcases h.complete p hp r hr with hr | hout
    · exact hlive r hr
    · rintro ⟨h3, h4⟩
      rcases hout with hout | hout <;> omega
  · exact fun hlive r hr => hlive r (h.sound p hp r hr)

theorem filter_key_eq (h : ExactFile decompress file rs) {rec : KeyRecord} (hrec : rec ∈ rs) :
    rs.filter (·.key = rec.key) = [rec] := by
  obtain ⟨as, bs, rfl⟩ := append_of_mem hrec
  have hasc := h.asc
  rw [pairwise_append] at hasc
  obtain ⟨-, hbs, has⟩ := hasc
  rw [filter_append, filter_cons_of_pos (by simp), filter_eq_nil_iff.mpr, filter_eq_nil_iff.mpr]
  · rfl
  · intro b hb
    simpa using ((pairwise_cons.mp hbs).1 b hb).ne'
  · intro a ha
    simpa using (has a ha rec mem_cons_self).ne

theorem Applied.readAll_iff (hfile : ExactFile decompress file rs) {t : TSMReader} (hb : t.b = file)
    (h : Applied rs t.index live D) (pool : Decoders) (key : Key) :
    (t.readAll decompress pool key).1 = .ok ((stored decompress file rs key).filter fun p => Live (D key) p.1) ↔
      t.Clean pool key := by
  by_cases hlive : ∃ p ∈ live, p.2.key = key
  · obtain ⟨p, hp, rfl⟩ := hlive
    have hrec := mem_of_mem_layout (h.sub p hp)
    rw [TSMReader.readAll, TSMReader.Clean, h.loaded.entries_mem hp, stored, filter_key_eq hfile hrec, flatMap_singleton,
      hb]
    refine (readBlocks_iff (h.agree hp) p.2.entries pool fun e he => ?_).trans (or_congr_right ?_)
    · exact ⟨hfile.exact p.2 hrec e he, hfile.within p.2 hrec e he⟩
    · exact ⟨fun h blocks hblocks => Except.ok.inj hblocks ▸ h, fun h => h _ rfl⟩
  · have hnot : ∀ p ∈ live, p.2.key ≠ key := fun p hp hkey => hlive ⟨p, hp, hkey⟩
    rw [TSMReader.readAll, TSMReader.Clean, h.loaded.entries_not_mem hnot]
    refine iff_of_true (congrArg _ (filter_eq_nil_iff.mpr fun x hx => ?_).symm) (.inr fun blocks hblocks => ?_)
    rotate_left
    · cases hblocks
      exact fun _ he => nomatch he
    -- a point of a key that is gone is in one of its ranges
    obtain ⟨rec, hrec, hblocks⟩ := mem_flatMap.mp hx
    obtain ⟨e, he, hpoint⟩ := mem_flatMap.mp hblocks
    rw [mem_filter, decide_eq_true_eq] at hrec
    obtain ⟨hrec, rfl⟩ := hrec
    obtain ⟨p, hp, rfl⟩ := exists_mem_layout 0 hrec
    have hgone := h.gone p hp fun hp => hnot p hp rfl
    obtain ⟨h1, h2⟩ := (hfile.exact _ hrec e he).between hpoint
    obtain ⟨h3, h4⟩ := hfile.within _ hrec e he
    obtain ⟨r, hr, hhas⟩ := hgone x.1 (by omega) (by omega)
    rw [decide_eq_true_eq]
    exact fun hlive => hlive r hr hhas

theorem Applied.containsValue (hfile : ExactFile decompress file rs) {t : TSMReader} (h : Applied rs t.index live D)
    {ts : Int} (hts : ¬ Live (D key) ts) : t.containsValue key ts = .ok false := by
  rw [TSMReader.containsValue, IndirectIndex.containsValue, IndirectIndex.entry]
  by_cases hlive : ∃ p ∈ live, p.2.key = key
  · obtain ⟨p, hp, rfl⟩ := hlive
    have hrec := mem_of_mem_layout (h.sub p hp)
    rw [h.loaded.entries_mem hp]
    rcases hfind : p.2.entries.find? (·.contains ts) with _ | e
    · simp only [bind, Except.bind, pure, Except.pure, hfind]
    · have hcontains := find?_some hfind
      rw [IndexEntry.contains, Bool.and_eq_true, decide_eq_true_eq, decide_eq_true_eq] at hcontains
      obtain ⟨h1, h2⟩ := hfile.within p.2 hrec e (mem_of_find?_eq_some hfind)
      have hnot : ¬ Live (t.index.tombstones p.2.key) ts := fun hl => hts ((h.agree hp ts (by omega) (by omega)).mp hl)
      simp only [Live, not_forall, not_not] at hnot
      obtain ⟨r, hr, hhas⟩ := hnot
      have hany : (t.index.tombstones p.2.key).any (fun t => decide (t.min ≤ ts) && decide (t.max ≥ ts)) = true :=
        any_eq_true.mpr ⟨r, hr, by simpa [TimeRange.Has] using hhas⟩
      simp only [bind, Except.bind, pure, Except.pure, hfind, hany, Bool.not_true]
  · rw [h.loaded.entries_not_mem fun p hp hkey => hlive ⟨p, hp, hkey⟩]
    rfl

/-! ## Runs -/

namespace TSMReader

/-- A committed deletion, or reading the file and its tombstones again. -/
inductive Op where
  | deleteRange (keys : List Key) (minTime maxTime : Word)
  | reopen

def step (g : Gzip) (t : TSMReader) : Op → Except String TSMReader
  | .deleteRange keys minTime maxTime => t.deleteRange g keys minTime maxTime
  | .reopen => new g t.b t.tombstoner.disk

/-- A file without tombstones is opened, and then calls follow. -/
def run (g : Gzip) (file : List Byte) (ops : List Op) : Except String TSMReader := do
  let t ← new g file none
  ops.foldlM (step g) t

/-- The ranges that a call deletes, with those before it. -/
def Op.deletes (D : Key → List TimeRange) : Op → Key → List TimeRange
  | .deleteRange keys minTime maxTime => extend D keys ⟨minTime.toInt, maxTime.toInt⟩
  | .reopen => D

/-- The ranges that some calls delete from a key. -/
def deleted (ops : List Op) : Key → List TimeRange := ops.foldl Op.deletes fun _ => []

/-- The keys are sorted, and short enough for the length in a tombstone. -/
def Op.Valid : Op → Prop
  | .deleteRange keys _ _ => keys.Pairwise (· ≤ ·) ∧ ∀ k ∈ keys, k.length < 2 ^ 32
  | .reopen => True

end TSMReader

/-- Between calls: the index shows the deleted ranges, and the tombstone file has those that do not miss their keys. -/
structure Shows (g : Gzip) (rs : List KeyRecord) (file : List Byte) (t : TSMReader) (D : Key → List TimeRange) :
    Prop where
  b : t.b = file
  index : ∃ live, Applied rs t.index live D
  tombstones : ∃ ts, Synced g t.tombstoner ts ∧ (∀ x ∈ ts, x.range ∈ D x.key) ∧
    ∀ rec ∈ rs, ∀ r ∈ D rec.key, (∃ x ∈ ts, x.key = rec.key ∧ x.range = r) ∨ Outside r rec

variable {g : Gzip} {t : TSMReader} {keys : List Key} {minTime maxTime : Word}

/-- What a deletion writes: tombstones of its keys and its range, for all keys that the range does not miss. -/
def Enough (rs : List KeyRecord) (keys : List Key) (r : TimeRange) (new : List Tombstone) : Prop :=
  (∀ x ∈ new, x.key ∈ keys ∧ x.range = r) ∧
    ∀ rec ∈ rs, rec.key ∈ keys → (∃ x ∈ new, x.key = rec.key ∧ x.range = r) ∨ Outside r rec

theorem mem_between {minKey maxKey k : Key} (hsorted : keys.Pairwise (· ≤ ·)) (hmin : keys.head? = some minKey)
    (hmax : keys.getLast? = some maxKey) (hk : k ∈ keys) : minKey ≤ k ∧ k ≤ maxKey := by
  constructor
  · obtain ⟨rest, rfl⟩ : ∃ rest, keys = minKey :: rest := head?_eq_some_iff.mp hmin
    exact forall_mem_cons.mpr ⟨le_rfl, (pairwise_cons.mp hsorted).1⟩ k hk
  · obtain ⟨rest, rfl⟩ : ∃ rest, keys = rest ++ [maxKey] := getLast?_eq_some_iff.mp hmax
    rcases mem_append.mp hk with hk | hk
    · exact (pairwise_append.mp hsorted).2.2 k hk maxKey (mem_singleton.mpr rfl)
    · exact (mem_singleton.mp hk).le

/-- **What a deletion adds to the tombstone file** is enough, and the walk after it yields just that. -/
theorem batchDeleteRange_walk (hg : g.Faithful) {live : List (ℕ × KeyRecord)} {ts : List Tombstone}
    (happ : Applied rs t.index live D) (hsync : Synced g t.tombstoner ts) (hsorted : keys.Pairwise (· ≤ ·))
    (hshort : ∀ k ∈ keys, k.length < 2 ^ 32) (minTime maxTime : Word) :
    ∃ new tombstoner, Enough rs keys ⟨minTime.toInt, maxTime.toInt⟩ new ∧ Synced g tombstoner (ts ++ new) ∧
      (t.batchDeleteRange g keys minTime maxTime).b = t.b ∧
      (t.batchDeleteRange g keys minTime maxTime).index = t.index ∧
      ((t.batchDeleteRange g keys minTime maxTime).tombstoner.flush g).walk g = ((new, none), tombstoner) := by
  -- a deletion that is skipped
  have hskip : (∀ rec ∈ rs, rec.key ∈ keys → Outside ⟨minTime.toInt, maxTime.toInt⟩ rec) →
      ∃ new tombstoner, Enough rs keys ⟨minTime.toInt, maxTime.toInt⟩ new ∧ Synced g tombstoner (ts ++ new) ∧
        t.b = t.b ∧ t.index = t.index ∧ (t.tombstoner.flush g).walk g = ((new, none), tombstoner) := by
    intro hout
    refine ⟨[], t.tombstoner, ⟨by simp, fun rec hrec hk => .inr (hout rec hrec hk)⟩, ?_, rfl, rfl, ?_⟩
    · rw [append_nil]
      exact hsync
    · rw [flush, Tombstoner.commit, hsync.pending]
      exact hsync.walk_again
  rw [TSMReader.batchDeleteRange]
  rcases hmin : keys.head? with _ | minKey
  · rw [head?_eq_none_iff] at hmin
    subst hmin
    exact hskip fun rec _ hk => absurd hk not_mem_nil
  rcases hmax : keys.getLast? with _ | maxKey
  · rw [getLast?_eq_none_iff] at hmax
    subst hmax
    cases hmin
  simp only
  split_ifs with hkey htime
  · refine hskip fun rec hrec hk => ?_
    obtain ⟨h1, h2⟩ := mem_between hsorted hmin hmax hk
    obtain ⟨h3, h4⟩ := happ.between rec hrec
    rw [overlapsKeyRange, Bool.and_eq_false_iff, decide_eq_false_iff_not, decide_eq_false_iff_not] at hkey
    rcases hkey with hkey | hkey
    · exact absurd (h3.trans h2) hkey
    · exact absurd (h1.trans h4) hkey
  · refine hskip fun rec hrec _ => ?_
    have h1 := happ.minTime rec hrec
    have h2 := happ.maxTime rec hrec
    rw [overlapsTimeRange, Bool.and_eq_false_iff, decide_eq_false_iff_not, decide_eq_false_iff_not] at htime
    rcases htime with htime | htime
    · exact .inl (show maxTime.toInt < rec.minTime by omega)
    · exact .inr (show rec.maxTime < minTime.toInt by omega)
  · obtain ⟨tombstoner, hwalk, hsync'⟩ :=
      @Synced.walk_flush keys minTime maxTime g ts t.tombstoner t.index.containsKey hg hsync hshort
    refine ⟨_, tombstoner, ⟨?_, ?_⟩, hsync', rfl, rfl, hwalk⟩
    · refine forall_mem_map.mpr fun k hk => ?_
      exact ⟨mem_of_mem_filter hk, rfl⟩
    · intro rec hrec hk
      obtain ⟨h1, h2⟩ := happ.between rec hrec
      have hcontains : t.index.containsKey rec.key = true := by
        rw [containsKey, Bool.and_eq_true, decide_eq_true_eq, decide_eq_true_eq]
        exact ⟨h1, h2⟩
      refine .inl ⟨⟨rec.key, minTime, maxTime⟩, ?_, rfl, rfl⟩
      exact mem_map.mpr ⟨rec.key, mem_filter.mpr ⟨hk, hcontains⟩, rfl⟩

namespace Shows

variable (hg : g.Faithful) (hfile : ExactFile decompress file rs)

include hfile in
theorem new (disk : Option (List Byte)) {ts : List Tombstone}
    (hdisk : Appendable g disk) (hwalk : freshWalk g disk = (ts, none)) (hsound : ∀ x ∈ ts, x.range ∈ D x.key)
    (hcomplete : ∀ rec ∈ rs, ∀ r ∈ D rec.key, (∃ x ∈ ts, x.key = rec.key ∧ x.range = r) ∨ Outside r rec)
    (hint : ∀ k, ∀ r ∈ D k, InInt64 r) : ∃ t, TSMReader.new g file disk = .ok t ∧ Shows g rs file t D := by
  obtain ⟨d, hinit, hloads⟩ := hfile.init
  obtain ⟨tombstoner, hwalk', hsync⟩ := synced_new disk hdisk hwalk
  obtain ⟨index, live, happly, happ⟩ :=
    @Applied.applyTombstones rs _ g ⟨file, d, .new disk⟩ _ _ _ (hfile.applied hloads) hwalk'
  refine ⟨⟨file, index, tombstoner⟩, ?_, rfl, ⟨live, happ.weaken ?_ ?_ hint⟩, ts, hsync, hsound, hcomplete⟩
  · rw [TSMReader.new, hinit]
    exact happly
  · intro rec _ r hr
    obtain ⟨x, hx, hkey, rfl⟩ := (mem_withAll.mp hr).resolve_left fun h => nomatch h
    rw [← hkey]
    exact hsound x hx
  · intro rec hrec r hr
    exact (hcomplete rec hrec r hr).imp_left fun hx => mem_withAll.mpr (.inr hx)

include hfile in
theorem reopen (h : Shows g rs file t D) : ∃ t', TSMReader.new g t.b t.tombstoner.disk = .ok t' ∧ Shows g rs file t' D := by
  obtain ⟨live, happ⟩ := h.index
  obtain ⟨ts, hsync, hsound, hcomplete⟩ := h.tombstones
  rw [h.b]
  exact new hfile _ hsync.disk hsync.walk hsound hcomplete happ.int64

include hg in
theorem deleteRange (h : Shows g rs file t D) (hsorted : keys.Pairwise (· ≤ ·))
    (hshort : ∀ k ∈ keys, k.length < 2 ^ 32) : ∃ t', t.deleteRange g keys minTime maxTime = .ok t' ∧
      Shows g rs file t' (extend D keys ⟨minTime.toInt, maxTime.toInt⟩) := by
  obtain ⟨live, happ⟩ := h.index
  obtain ⟨ts, hsync, hsound, hcomplete⟩ := h.tombstones
  rw [TSMReader.deleteRange]
  split_ifs with hnil
  · have hsame : extend D keys ⟨minTime.toInt, maxTime.toInt⟩ = D := by
      funext k
      rw [extend, hnil, if_neg not_mem_nil]
    rw [hsame]
    exact ⟨t, rfl, h⟩
  obtain ⟨new, tombstoner, ⟨hnew, henough⟩, hsync', hb, hindex, hwalk⟩ :=
    batchDeleteRange_walk hg happ hsync hsorted hshort minTime maxTime
  rw [TSMReader.commit]
  generalize t.batchDeleteRange g keys minTime maxTime = t₁ at hb hindex hwalk
  rw [← hindex] at happ
  obtain ⟨index, live', happly, happ'⟩ := @Applied.applyTombstones rs D g { t₁ with tombstoner := t₁.tombstoner.flush g }
    live new tombstoner happ hwalk
  have hsub : ∀ x ∈ new, x.range ∈ extend D keys ⟨minTime.toInt, maxTime.toInt⟩ x.key := fun x hx =>
    mem_extend.mpr (.inr (hnew x hx))
  refine ⟨_, happly, hb.trans h.b, ⟨live', happ'.weaken ?_ ?_ ?_⟩, ts ++ new, hsync', ?_, ?_⟩
  · intro rec _ r hr
    rcases mem_withAll.mp hr with hr | ⟨x, hx, hkey, rfl⟩
    · exact mem_extend.mpr (.inl hr)
    · rw [← hkey]
      exact hsub x hx
  · intro rec hrec r hr
    rcases mem_extend.mp hr with hr | ⟨hk, rfl⟩
    · exact .inl (mem_withAll.mpr (.inl hr))
    · exact (henough rec hrec hk).imp_left fun hx => mem_withAll.mpr (.inr hx)
  · exact happ.int64_extend (toInt_inInt64 _ _)
  · exact forall_mem_append.mpr ⟨fun x hx => mem_extend.mpr (.inl (hsound x hx)), hsub⟩
  · intro rec hrec r hr
    rcases mem_extend.mp hr with hr | ⟨hk, rfl⟩
    · exact (hcomplete rec hrec r hr).imp_left (Exists.imp fun x => And.imp_left (mem_append_left _))
    · exact (henough rec hrec hk).imp_left (Exists.imp fun x => And.imp_left (mem_append_right _))

include hg hfile

theorem step (h : Shows g rs file t D) {op : TSMReader.Op} (hop : op.Valid) :
    ∃ t', t.step g op = .ok t' ∧ Shows g rs file t' (op.deletes D) := by
  cases op with
  | deleteRange keys minTime maxTime => exact h.deleteRange hg hop.1 hop.2
  | reopen => exact h.reopen hfile

/-- **Every run** shows the ranges that it has deleted. -/
theorem run {ops : List TSMReader.Op} (hops : ∀ op ∈ ops, op.Valid) (h : Shows g rs file t D) :
    ∃ t', ops.foldlM (TSMReader.step g) t = .ok t' ∧ Shows g rs file t' (ops.foldl TSMReader.Op.deletes D) := by
  induction ops generalizing t D with
  | nil => exact ⟨t, rfl, h⟩
  | cons op ops ih =>
    obtain ⟨t₁, heq₁, h₁⟩ := h.step hg hfile (hops op mem_cons_self)
    obtain ⟨t', heq, h'⟩ := ih (forall_mem_cons.mp hops).2 h₁
    refine ⟨t', ?_, h'⟩
    rw [foldlM_cons, heq₁]
    exact heq

end Shows

/-- **Deletions are exact and survive reopening.**  Every run on a file with exact entries succeeds; then a key has its
points outside of the deleted ranges, exactly if no boolean decoder that has kept an error is needed to read it, and no
time of a deleted range is there. -/
theorem readAll_after_deletes_iff (g : Gzip) (hg : g.Faithful) (decompress : List Byte → Except String (List Byte))
    (file : List Byte) (rs : List KeyRecord) (hfile : ExactFile decompress file rs) (ops : List TSMReader.Op)
    (hops : ∀ op ∈ ops, op.Valid) : ∃ t, TSMReader.run g file ops = .ok t ∧
      (∀ pool key, (t.readAll decompress pool key).1 =
        .ok ((stored decompress file rs key).filter fun p => Live (TSMReader.deleted ops key) p.1) ↔ t.Clean pool key) ∧
      ∀ key ts, (∃ r ∈ TSMReader.deleted ops key, r.Has ts) → t.containsValue key ts = .ok false := by
  obtain ⟨t₀, heq₀, h₀⟩ := Shows.new (g := g) (D := fun _ => []) hfile none trivial rfl (by simp) (by simp)
    (by simp)
  obtain ⟨t, heq, h⟩ := h₀.run hg hfile hops
  obtain ⟨live, happ⟩ := h.index
  refine ⟨t, ?_, happ.readAll_iff hfile h.b, ?_⟩
  · rw [TSMReader.run, heq₀]
    exact heq
  · rintro key ts ⟨r, hr, hhas⟩
    exact happ.containsValue hfile fun hlive => hlive r hr hhas

/-- A checksum and a block with the integers 5 at time 1 and 7 at time 3. -/
def sampleBlock : List Byte :=
  [0, 0, 0, 0, 1, 17, 0, 0, 0, 0, 0, 0, 0, 0, 1, 0, 0, 0, 0, 0, 0, 0, 2, 0, 0, 0, 0, 0, 0, 0, 0, 10, 0, 0, 0, 0, 0, 0,
    0, 4]

/-- The index of a file with this block. -/
def sampleRecord : KeyRecord := ⟨[99], blockInteger, [⟨1, 3, 5, 40⟩]⟩

/-- A file with one block. -/
def fileOf (block : List Byte) (rec : KeyRecord) : List Byte :=
  header ++ block ++ encodeIndex [rec] ++ putUint64 (BitVec.ofNat 64 (header ++ block).length)

theorem exactFile_fileOf {block : List Byte} {rec : KeyRecord} {e : IndexEntry} (hrec : rec.entries = [e])
    (hfits : rec.Fits) (hlen : (fileOf block rec).length < 2 ^ 63) (hindex : (encodeIndex [rec]).length < 2 ^ 31)
    (he : ExactEntry .ok (fileOf block rec) e) : ExactFile .ok (fileOf block rec) [rec] where
  bytes := ⟨block, rfl⟩
  length_lt := hlen
  ne_nil := by simp
  fits := forall_mem_singleton.mpr hfits
  asc := pairwise_singleton _ _
  index_lt := hindex
  exact := by rwa [forall_mem_singleton, hrec, forall_mem_singleton]
  within := by
    rw [forall_mem_singleton, KeyRecord.minTime, KeyRecord.maxTime, hrec]
    simp

theorem sample_stored : stored .ok (fileOf sampleBlock sampleRecord) [sampleRecord] [99] =
    [(1, .integer 5), (3, .integer 7)] := by
  decide +kernel

theorem sample_exact : ExactFile .ok (fileOf sampleBlock sampleRecord) [sampleRecord] := by
  have hblock : storedBlock .ok (fileOf sampleBlock sampleRecord) ⟨1, 3, 5, 40⟩ = [(1, .integer 5), (3, .integer 7)] := by
    decide +kernel
  refine exactFile_fileOf rfl ⟨by decide, by decide, by decide⟩ (by decide +kernel) (by decide +kernel)
    ⟨⟨sampleBlock.drop 4, by decide +kernel, by decide +kernel⟩, ?_, ?_, ?_, ?_⟩
  all_goals
    rw [hblock]
    simp [Timed.Asc, ValueArray.minTime, ValueArray.maxTime]

/-- A deletion, reopening and a deletion that misses every point. -/
theorem readAll_after_deletes_reopened :
    ∃ t, TSMReader.run .plain (fileOf sampleBlock sampleRecord)
        [.deleteRange [[98], [99]] 1 2, .reopen, .deleteRange [[99]] 4 9] = .ok t ∧
      (t.readAll .ok .zero [99]).1 = .ok [(3, .integer 7)] ∧ t.containsValue [99] 2 = .ok false := by
  obtain ⟨t, hrun, hread, hcontains⟩ := readAll_after_deletes_iff .plain Gzip.plain_faithful .ok _ [sampleRecord]
    sample_exact [.deleteRange [[98], [99]] 1 2, .reopen, .deleteRange [[99]] 4 9]
    (by simp [TSMReader.Op.Valid, pairwise_cons, show [98#8] ≤ [99#8] by decide])
  refine ⟨t, hrun, ?_, hcontains [99] 2 ?_⟩
  · rw [(hread .zero [99]).mpr (.inl rfl), sample_stored]
    decide
  · exact ⟨⟨1, 2⟩, by decide, by decide⟩

/-- A checksum and a block with the boolean true at time 1. -/
def booleanBlock : List Byte := [0, 0, 0, 0, 2, 9, 0, 0, 0, 0, 0, 0, 0, 0, 1, 16, 1, 128]

def booleanRecord : KeyRecord := ⟨[99], blockBoolean, [⟨1, 1, 5, 18⟩]⟩

theorem boolean_exact : ExactFile .ok (fileOf booleanBlock booleanRecord) [booleanRecord] := by
  have hblock : storedBlock .ok (fileOf booleanBlock booleanRecord) ⟨1, 1, 5, 18⟩ = [(1, .boolean true)] := by
    decide +kernel
  refine exactFile_fileOf rfl ⟨by decide, by decide, by decide⟩ (by decide +kernel) (by decide +kernel)
    ⟨⟨booleanBlock.drop 4, by decide +kernel, by decide +kernel⟩, ?_, ?_, ?_, ?_⟩
  all_goals
    rw [hblock]
    simp [Timed.Asc, ValueArray.minTime, ValueArray.maxTime]

/-- A damaged block of booleans has been read, from any file: a good one of another file, without deletions, cannot. -/
theorem readAll_after_damage : ExactFile .ok (fileOf booleanBlock booleanRecord) [booleanRecord] ∧
    ∃ t, TSMReader.run .plain (fileOf booleanBlock booleanRecord) [] = .ok t ∧
      stored .ok (fileOf booleanBlock booleanRecord) [booleanRecord] [99] = [(1, .boolean true)] ∧
      (t.readAll .ok (decodeBlocks .ok .zero [[2, 9, 0, 0, 0, 0, 0, 0, 0, 0, 1, 16, 128]]) [99]).1 =
        .error "BooleanDecoder: invalid count" :=
  ⟨boolean_exact, _, rfl, by decide +kernel, by decide +kernel⟩

end Influxdb.Tsm1.Disk
