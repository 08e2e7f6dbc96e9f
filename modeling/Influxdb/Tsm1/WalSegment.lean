import Influxdb.Lib.Snappy
import Influxdb.Tsm1.WalCodec

/-!
# WalSegment — segments of the write ahead log (`wal.go`)

A segment is a list of frames: the type of an entry, the length of its compressed bytes, and these bytes.  The reader
counts the bytes of the frames that it could decode.  Whatever stands behind the frames that were written, the reader
returns their entries first, and where it stops with an error its count is the end of the last frame that was intact.
-/

namespace Influxdb.Tsm1.Wal

open List

/-! ## Writing -/

/-- `WALSegmentWriter`, with what has been written to the file. -/
structure WALSegmentWriter where
  file : List Byte
  size : ℕ
deriving DecidableEq

/-- The header of an entry and its compressed bytes. -/
def frame (entryType : Byte) (compressed : List Byte) : List Byte :=
  [entryType] ++ putUint32 (BitVec.ofNat 32 compressed.length) ++ compressed

def WALSegmentWriter.write (w : WALSegmentWriter) (entryType : Byte) (compressed : List Byte) : WALSegmentWriter :=
  ⟨w.file ++ frame entryType compressed, w.size + (5 + compressed.length)⟩

variable (s : Snappy)

/-- What `writeToLog` does to the segment: `dst` is the buffer of the pool. -/
def WALSegmentWriter.writeToLog (w : WALSegmentWriter) (e : WALEntry) (dst : List Byte) :
    Except String WALSegmentWriter := do
  let b ← e.encode dst
  let compressed ← s.encode b
  .ok (w.write e.type compressed)

/-- Write entries, each with a buffer of the pool. -/
def WALSegmentWriter.writeAll (w : WALSegmentWriter) (es : List (WALEntry × List Byte)) :
    Except String WALSegmentWriter :=
  es.foldlM (fun w e => w.writeToLog s e.1 e.2) w

/-! ## Reading -/

def eof : String := "EOF"

def errUnexpectedEOF : String := "unexpected EOF"

/-- `io.ReadFull` of `k` bytes, and what is left. -/
def readFull (k : ℕ) (rest : List Byte) : Except String (List Byte) × List Byte :=
  if k ≤ rest.length then (.ok (rest.take k), rest.drop k)
  else (.error (if rest.length = 0 then eof else errUnexpectedEOF), [])

/-- `WALSegmentReader`, with what is left of the file. -/
structure WALSegmentReader where
  rest : List Byte
  entry : Option WALEntry
  n : ℕ
  err : Option String

def newWALSegmentReader (file : List Byte) : WALSegmentReader := ⟨file, none, 0, none⟩

/-- Decompress a block and make an entry of it. -/
def decodeBlock (entryType : Byte) (b : List Byte) : Except String WALEntry := do
  let _ ← s.decodedLen b
  let data ← s.decode b
  WALEntry.unmarshalBinary entryType data

namespace WALSegmentReader

/-- `Next`.  The entry that is left behind by an error cannot be seen: `Read` returns the error. -/
def next (s : Snappy) (r : WALSegmentReader) : Bool × WALSegmentReader :=
  match readFull 5 r.rest with
  | (.error e, rest) => if e = eof then (false, { r with rest }) else (true, { r with rest, err := some e })
  | (.ok lv, rest) =>
    let entryType := lv.headD 0
    let length := (uint32 (lv.drop 1)).toNat
    match readFull length rest with
    | (.error e, rest) => (true, { r with rest, err := some e })
    | (.ok b, rest) =>
      match decodeBlock s entryType b with
      | .error e => (true, { r with rest, err := some e })
      | .ok e => (true, ⟨rest, some e, r.n + (5 + b.length), none⟩)

def read (r : WALSegmentReader) : Except String (Option WALEntry) :=
  match r.err with
  | some e => .error e
  | none => .ok r.entry

def count (r : WALSegmentReader) : ℕ := r.n

/-- The loop of a client: read entries until there are no more, or up to the first error. -/
def readAll (s : Snappy) : ℕ → WALSegmentReader → Option (List WALEntry × WALSegmentReader)
  | 0, _ => none
  | fuel + 1, r =>
    match r.next s with
    | (false, r) => some ([], r)
    | (true, r) =>
      match r.read with
      | .ok (some e) => (readAll s fuel r).map fun l => (e :: l.1, l.2)
      | _ => some ([], r)

end WALSegmentReader

/-! ## Frames that are intact -/

section Frames

variable {s : Snappy} {typ : Byte} {b rest file : List Byte} {e : WALEntry} {es es' : List WALEntry}

/-- Bytes that are frames of entries, one behind the other. -/
inductive Intact (s : Snappy) : List Byte → List WALEntry → Prop
  | nil : Intact s [] []
  | cons {typ : Byte} {b rest : List Byte} {e : WALEntry} {es : List WALEntry} (hlen : b.length < 2 ^ 32)
      (hdecode : decodeBlock s typ b = .ok e) (hrest : Intact s rest es) : Intact s (frame typ b ++ rest) (e :: es)

theorem length_frame (typ : Byte) (b : List Byte) : (frame typ b).length = 5 + b.length := by
  rw [frame, length_append, length_append, length_singleton, length_putUint32]

theorem Intact.append {file' : List Byte} (h : Intact s file es) (h' : Intact s file' es') :
    Intact s (file ++ file') (es ++ es') := by
  induction h with
  | nil => exact h'
  | cons hlen hdecode _ ih =>
    rw [append_assoc, cons_append]
    exact .cons hlen hdecode ih

theorem writeToLog_intact (hs : s.Exact) {w w' : WALSegmentWriter} {dst : List Byte} (he : e.Encodable)
    (h : w.writeToLog s e dst = .ok w') : ∃ f, w'.file = w.file ++ f ∧ Intact s f [e] := by
  obtain ⟨b, hb, hread⟩ := WALEntry.unmarshalBinary_encode he dst
  rw [WALSegmentWriter.writeToLog] at h
  obtain ⟨b', hb', h⟩ := bind_eq_ok h
  cases hb.symm.trans hb'
  obtain ⟨compressed, hcompressed, h⟩ := bind_eq_ok h
  cases h
  have hdecode : decodeBlock s e.type compressed = .ok e := by
    rw [decodeBlock, hs.decodedLen hcompressed, hs.decode hcompressed]
    exact hread
  have hframe := Intact.cons (hs.short hcompressed) hdecode .nil
  rw [append_nil] at hframe
  exact ⟨_, rfl, hframe⟩

/-- **A segment** that has been written is intact. -/
theorem writeAll_intact (hs : s.Exact) : ∀ {l : List (WALEntry × List Byte)} {w w' : WALSegmentWriter},
    (∀ e ∈ l, e.1.Encodable) → w.writeAll s l = .ok w' → ∃ f, w'.file = w.file ++ f ∧ Intact s f (l.map Prod.fst)
  | [], w, w', _, h => by
    cases h
    exact ⟨[], (append_nil _).symm, .nil⟩
  | e :: l, w, w', hl, h => by
    rw [WALSegmentWriter.writeAll, foldlM_cons] at h
    obtain ⟨w₁, h₁, h⟩ := bind_eq_ok h
    obtain ⟨f₁, hf₁, hintact₁⟩ := writeToLog_intact hs (hl e mem_cons_self) h₁
    obtain ⟨f, hf, hintact⟩ := writeAll_intact hs (forall_mem_cons.mp hl).2 h
    refine ⟨f₁ ++ f, ?_, hintact₁.append hintact⟩
    rw [hf, hf₁, append_assoc]

end Frames

namespace WALSegmentReader

variable {s : Snappy} {r r' : WALSegmentReader} {es : List WALEntry} {more : Bool}

theorem readFull_append {a : List Byte} {k : ℕ} (h : a.length = k) (rest : List Byte) :
    readFull k (a ++ rest) = (.ok a, rest) := by
  rw [readFull, if_pos (by rw [length_append]; omega), take_left' h, drop_left' h]

theorem next_frame {typ : Byte} {b rest : List Byte} {e : WALEntry} (hlen : b.length < 2 ^ 32)
    (hdecode : decodeBlock s typ b = .ok e) (hr : r.rest = frame typ b ++ rest) :
    r.next s = (true, ⟨rest, some e, r.n + (frame typ b).length, none⟩) := by
  have hheader : readFull 5 r.rest = (.ok ([typ] ++ putUint32 (BitVec.ofNat 32 b.length)), b ++ rest) := by
    rw [hr, frame, append_assoc]
    exact readFull_append (by simp) _
  have hlength : (uint32 (([typ] ++ putUint32 (BitVec.ofNat 32 b.length)).drop 1)).toNat = b.length := by
    have h := uint32_putUint32_append (BitVec.ofNat 32 b.length) []
    rw [append_nil] at h
    rw [drop_left' length_singleton, h, BitVec.toNat_ofNat, Nat.mod_eq_of_lt hlen]
  rw [next, hheader]
  simp only [hlength, readFull_append (rfl : b.length = b.length) rest]
  rw [singleton_append, headD_cons, hdecode, length_frame]

/-- **What `Next` can do**: there is nothing left, it fails, or it reads an intact frame. -/
theorem next_cases (h : r.next s = (more, r')) : (more = false ∧ r'.n = r.n ∧ r'.err = r.err) ∨
    (more = true ∧ r'.n = r.n ∧ r'.err ≠ none) ∨
    (more = true ∧ ∃ typ b e, b.length < 2 ^ 32 ∧ decodeBlock s typ b = .ok e ∧ r.rest = frame typ b ++ r'.rest ∧
      r' = ⟨r'.rest, some e, r.n + (frame typ b).length, none⟩) := by
  rw [next] at h
  by_cases hheader : 5 ≤ r.rest.length
  · rw [readFull, if_pos hheader] at h
    simp only at h
    -- the first five bytes are a type and a length
    obtain ⟨typ, lv, hlv, htake⟩ : ∃ typ lv, lv.length = 4 ∧ r.rest.take 5 = typ :: lv := by
      have hfive : (r.rest.take 5).length = 5 := length_take_of_le hheader
      match hrest : r.rest.take 5, hfive with
      | typ :: lv, hfive => exact ⟨typ, lv, Nat.succ.inj hfive, rfl⟩
    rw [htake, headD_cons, drop_one, tail_cons] at h
    by_cases hbody : (uint32 lv).toNat ≤ (r.rest.drop 5).length
    · rw [readFull, if_pos hbody] at h
      simp only at h
      rcases hdecode : decodeBlock s typ ((r.rest.drop 5).take (uint32 lv).toNat) with err | e
      · rw [hdecode] at h
        cases h
        exact .inr (.inl ⟨rfl, rfl, nofun⟩)
      · rw [hdecode] at h
        cases h
        have hlen : ((r.rest.drop 5).take (uint32 lv).toNat).length = (uint32 lv).toNat := length_take_of_le hbody
        refine .inr (.inr ⟨rfl, typ, _, e, by rw [hlen]; exact BitVec.isLt _, hdecode, ?_, ?_⟩)
        · rw [frame, hlen, BitVec.ofNat_toNat, BitVec.setWidth_eq, putUint32_uint32 hlv, append_assoc,
            take_append_drop, singleton_append, ← htake, take_append_drop]
        · rw [length_frame]
    · rw [readFull, if_neg hbody] at h
      cases h
      exact .inr (.inl ⟨rfl, rfl, nofun⟩)
  · rw [readFull, if_neg hheader] at h
    simp only at h
    split_ifs at h with hnil heq heq
    · cases h
      exact .inl ⟨rfl, rfl, rfl⟩
    · exact absurd rfl heq
    · exact absurd heq (by decide)
    · cases h
      exact .inr (.inl ⟨rfl, rfl, nofun⟩)

theorem readAll_append {file : List Byte} (h : Intact s file es) (tail : List Byte) :
    ∀ {fuel : ℕ} (entry : Option WALEntry) (n : ℕ), (file ++ tail).length < fuel → ∃ fuel' entry', tail.length < fuel' ∧
      readAll s fuel ⟨file ++ tail, entry, n, none⟩ =
        (readAll s fuel' ⟨tail, entry', n + file.length, none⟩).map fun l => (es ++ l.1, l.2) := by
  induction h with
  | nil =>
    intro fuel entry n hfuel
    refine ⟨fuel, entry, hfuel, ?_⟩
    rw [nil_append, length_nil, Nat.add_zero]
    exact Option.map_id'.symm
  | @cons typ b rest e es hlen hdecode _ ih =>
    intro fuel entry n hfuel
    rw [append_assoc, length_append, length_frame] at hfuel
    cases fuel with
    | zero => nomatch hfuel
    | succ fuel =>
      obtain ⟨fuel', entry', hfuel', heq⟩ := ih (some e) (n + (frame typ b).length)
        (show (rest ++ tail).length < fuel by omega)
      refine ⟨fuel', entry', hfuel', ?_⟩
      have hnext := next_frame (s := s) (r := ⟨frame typ b ++ rest ++ tail, entry, n, none⟩) hlen hdecode
        (append_assoc _ _ _)
      rw [readAll, hnext]
      simp only [read]
      rw [heq, Option.map_map, length_append, Nat.add_assoc]
      rfl

/-- Every run of the loop returns; it has read intact frames, counted them, and stopped behind them. -/
theorem readAll_intact : ∀ {fuel : ℕ} {r : WALSegmentReader}, r.rest.length < fuel → r.err = none →
    ∃ es r', readAll s fuel r = some (es, r') ∧
      (r'.err ≠ none → ∃ pre post, r.rest = pre ++ post ∧ Intact s pre es ∧ r'.n = r.n + pre.length)
  | 0, _, hfuel, _ => nomatch hfuel
  | fuel + 1, r, hfuel, herr => by
    rcases hnext : r.next s with ⟨more, r₁⟩
    rcases next_cases hnext with ⟨rfl, hn, herr₁⟩ | ⟨rfl, hn, herr₁⟩ | ⟨rfl, typ, b, e, hlen, hdecode, hrest, hr₁⟩
    · refine ⟨[], r₁, by rw [readAll, hnext], fun hne => ?_⟩
      exact absurd (herr₁.trans herr) hne
    · refine ⟨[], r₁, ?_, fun _ => ⟨[], r.rest, rfl, .nil, by rw [hn, length_nil, Nat.add_zero]⟩⟩
      obtain ⟨err, heq⟩ := Option.ne_none_iff_exists'.mp herr₁
      rw [readAll, hnext]
      simp only [read, heq]
    · have hfuel₁ : r₁.rest.length < fuel := by
        rw [hrest, length_append, length_frame] at hfuel
        omega
      obtain ⟨es, r', heq, hcount⟩ := readAll_intact hfuel₁ (by rw [hr₁])
      refine ⟨e :: es, r', ?_, fun hne => ?_⟩
      · have hread : r₁.read = .ok (some e) := by rw [hr₁]; rfl
        rw [readAll, hnext]
        simp only [hread, heq, Option.map_some]
      · obtain ⟨pre, post, hpre, hintact, hn⟩ := hcount hne
        refine ⟨frame typ b ++ pre, post, ?_, .cons hlen hdecode hintact, ?_⟩
        · rw [hrest, hpre, append_assoc]
        · have hn₁ : r₁.n = r.n + (frame typ b).length := by rw [hr₁]
          rw [hn, hn₁, length_append, Nat.add_assoc]

end WALSegmentReader

/-! ## Damaged segments -/

/-- **Entries are read back, and a damaged segment loses only its tail.**  An entry gives back what went into it, from
any buffer.  Of a segment of such entries with any bytes behind it, the entries are read first; if there is an error, the
count is the end of the last frame that is intact, at or behind the end of the entries. -/
theorem segment_loses_only_tail (hs : s.Exact) :
    (∀ e, e.Encodable → ∀ dst, ∃ b, e.encode dst = .ok b ∧ WALEntry.unmarshalBinary e.type b = .ok e) ∧
    ∀ (es : List (WALEntry × List Byte)) (w : WALSegmentWriter), (∀ e ∈ es, e.1.Encodable) →
      WALSegmentWriter.writeAll s ⟨[], 0⟩ es = .ok w → ∀ tail fuel, (w.file ++ tail).length < fuel →
        ∃ more r, (newWALSegmentReader (w.file ++ tail)).readAll s fuel = some (es.map Prod.fst ++ more, r) ∧
          (r.err ≠ none → w.file.length ≤ r.count ∧
            ∃ pre post, w.file ++ tail = pre ++ post ∧ pre.length = r.count ∧ Intact s pre (es.map Prod.fst ++ more)) := by
  refine ⟨fun e he dst => WALEntry.unmarshalBinary_encode he dst, ?_⟩
  intro es w hes hw tail fuel hfuel
  obtain ⟨f, hfile, hintact⟩ := writeAll_intact hs hes hw
  rw [nil_append] at hfile
  rw [← hfile] at hintact
  obtain ⟨fuel', entry', hfuel', hfirst⟩ := WALSegmentReader.readAll_append hintact tail none 0 hfuel
  obtain ⟨more, r, hmore, hcount⟩ :=
    WALSegmentReader.readAll_intact (s := s) (r := ⟨tail, entry', 0 + w.file.length, none⟩) hfuel' rfl
  refine ⟨more, r, ?_, fun herr => ?_⟩
  · rw [newWALSegmentReader, hfirst, hmore, Option.map_some]
  · obtain ⟨pre, post, htail, hpre, hn⟩ := hcount herr
    simp only [Nat.zero_add] at hn
    refine ⟨by rw [WALSegmentReader.count, hn]; omega, w.file ++ pre, post, ?_, ?_, hintact.append hpre⟩
    · show w.file ++ tail = _
      rw [show tail = pre ++ post from htail, append_assoc]
    · rw [WALSegmentReader.count, hn, length_append]

/-- A write of two values and a deletion. -/
def sampleEntries : List (WALEntry × List Byte) :=
  [(.write ⟨[([97], [(7, .boolean true), (8, .boolean false)])], nodup_singleton _⟩, []), (.delete ⟨[[97], [98]]⟩, [])]

def sampleSegment : WALSegmentWriter :=
  ⟨[1, 0, 0, 0, 26, 3, 0, 1, 97, 0, 0, 0, 2, 0, 0, 0, 0, 0, 0, 0, 7, 1, 0, 0, 0, 0, 0, 0, 0, 8, 0,
    2, 0, 0, 0, 3, 97, 10, 98], 39⟩

/-- A frame behind the entries is cut off. -/
theorem segment_loses_only_tail_cut :
    ∃ more r, (newWALSegmentReader (sampleSegment.file ++ [1, 0, 0, 0, 9, 1])).readAll .plain 100 =
        some (sampleEntries.map Prod.fst ++ more, r) ∧ (r.err ≠ none → sampleSegment.file.length ≤ r.count ∧ ∃ pre post,
        sampleSegment.file ++ [1, 0, 0, 0, 9, 1] = pre ++ post ∧ pre.length = r.count ∧
        Intact .plain pre (sampleEntries.map Prod.fst ++ more)) := by
  refine (segment_loses_only_tail .plain Snappy.plain_exact).2 sampleEntries sampleSegment ?_ (by decide +kernel)
    [1, 0, 0, 0, 9, 1] 100 (by decide)
  refine forall_mem_cons.mpr ⟨?_, forall_mem_singleton.mpr ⟨by decide, by decide, by decide⟩⟩
  exact forall_mem_singleton.mpr ⟨by decide, ⟨by decide, by decide⟩, by decide, by simp⟩

/-- **What is not read back**: a key with a newline comes back as two keys, one empty key as none, and the lengths and
counts from `2 ^ 32` on do not fit. -/
theorem entries_not_read_back :
    (∃ b, (DeleteWALEntry.mk [[97, 10, 98]]).encode [] = .ok b ∧ DeleteWALEntry.unmarshalBinary b = ⟨[[97], [98]]⟩) ∧
    (∃ b, (DeleteWALEntry.mk [[]]).encode [] = .ok b ∧ DeleteWALEntry.unmarshalBinary b = ⟨[]⟩) ∧
    (∀ b, DeleteRangeWALEntry.unmarshalBinary b ≠ .ok ⟨[replicate (2 ^ 32) 0], 0, 0⟩) ∧
    (∀ b, WriteWALEntry.unmarshalBinary b ≠ .ok ⟨[([97], replicate (2 ^ 32) (0, .boolean true))], nodup_singleton _⟩) ∧
    (∀ b, WriteWALEntry.unmarshalBinary b ≠
      .ok ⟨[([97], [(0, .string (replicate (2 ^ 32) 0))])], nodup_singleton _⟩) := by
  refine ⟨⟨_, rfl, by decide⟩, ⟨_, rfl, by decide⟩, fun b h => ?_, fun b h => ?_, fun b h => ?_⟩
  · have hlt := DeleteRangeWALEntry.unmarshalBinary_bounded h _ mem_cons_self
    rw [length_replicate] at hlt
    exact Nat.lt_irrefl _ hlt
  · have hlt := (WriteWALEntry.unmarshalBinary_bounded h _ mem_cons_self).count
    rw [length_replicate] at hlt
    exact Nat.lt_irrefl _ hlt
  · have hlt := (WriteWALEntry.unmarshalBinary_bounded h _ mem_cons_self).strings _ mem_cons_self _ rfl
    rw [length_replicate] at hlt
    exact Nat.lt_irrefl _ hlt

end Influxdb.Tsm1.Wal
