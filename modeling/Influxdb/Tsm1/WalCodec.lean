import Influxdb.Lib.Except
import Influxdb.Tsm1.Wal

/-!
# WalCodec — log entries are read back as they were written

`Encode` writes the fields of an entry side by side, whatever buffer it is handed, and `UnmarshalBinary` takes them
apart again.  Lengths and counts have 16 and 32 bits, so an entry that is read never has longer ones; keys to delete are
separated by newlines, so none of them can have one.
-/

namespace Influxdb.Tsm1.Wal

open List Emits Nat
open BitVec (ofNat toNat_ofNat isLt)

variable {b : List Byte} {vs : List (Word × Value)} {w : WriteWALEntry} {v : Value} {total : ℕ} {keys : List Key}
variable {p : Key × List (Word × Value)} {read : List Byte → Value}

namespace WriteWALEntry

/-! ## The bytes of a write -/

def valueBytes : Value → List Byte
  | .float v | .integer v | .unsigned v => putUint64 v
  | .boolean v => [if v then 1 else 0]
  | .string v => putUint32 (BitVec.ofNat 32 v.length) ++ v

def pointBytes (p : Word × Value) : List Byte := putUint64 p.1 ++ valueBytes p.2

def typeOf (vs : List (Word × Value)) : Byte :=
  match vs with
  | [] => 0
  | p :: _ => entryType p.2

def groupBytes (p : Key × List (Word × Value)) : List Byte :=
  [typeOf p.2] ++ (putUint16 (BitVec.ofNat 16 p.1.length) ++ (p.1 ++
    (putUint32 (BitVec.ofNat 32 p.2.length) ++ p.2.flatMap pointBytes)))

theorem length_groupBytes (p : Key × List (Word × Value)) :
    (groupBytes p).length = 7 + p.1.length + (p.2.flatMap pointBytes).length := by
  simp only [groupBytes, length_append, length_putUint16, length_putUint32, length_singleton]
  omega

structure SingleType (vs : List (Word × Value)) : Prop where
  nonempty : vs ≠ []
  same : ∀ p ∈ vs, entryType p.2 = typeOf vs

theorem encodeValue_emits (v : Value) : Emits (encodeValue v) (valueBytes v) := by
  cases v with
  | float v | integer v | unsigned v | boolean v => exact .put _
  | string v => exact (put _).andThen (.copy v)

theorem encodeKey_emits (h : SingleType p.2) : Emits (encodeKey p) (groupBytes p) := by
  obtain ⟨k, vs⟩ := p
  cases vs with
  | nil => exact absurd rfl h.nonempty
  | cons q vs =>
    refine (put _).andThen ((put _).andThen ((copy _).andThen ((put _).andThen ?_)))
    refine forEach fun x hx => (put _).andThen ?_
    simp only [show entryType x.2 = entryType q.2 from h.same x hx, ne_eq, not_true_eq_false, if_false]
    exact encodeValue_emits x.2

theorem length_points {width : ℕ} (h : ∀ p ∈ vs, (valueBytes p.2).length = width) :
    (vs.flatMap pointBytes).length = (8 + width) * vs.length := by
  induction vs with
  | nil => rfl
  | cons p vs ih =>
    have hp := h p mem_cons_self
    rw [flatMap_cons, length_append, ih (forall_mem_cons.mp h).2, pointBytes,
      length_append, length_putUint64, hp, length_cons, mul_succ]
    omega

theorem string_of_entryType (h : entryType v = stringEntryType) : ∃ s, v = .string s := by
  cases v with
  | string s => exact ⟨s, rfl⟩
  | float | integer | unsigned | boolean => nomatch h

theorem stringsSize_eq (h : ∀ p ∈ vs, entryType p.2 = stringEntryType) :
    ∃ n, stringsSize vs = some n ∧ (vs.flatMap pointBytes).length = 8 * vs.length + n := by
  induction vs with
  | nil => exact ⟨0, rfl, rfl⟩
  | cons p vs ih =>
    obtain ⟨n, hn, hlen⟩ := ih (forall_mem_cons.mp h).2
    obtain ⟨t, v⟩ := p
    obtain ⟨v, rfl⟩ := string_of_entryType (h (t, v) mem_cons_self)
    refine ⟨4 + v.length + n, by rw [stringsSize, hn]; rfl, ?_⟩
    rw [flatMap_cons, length_append, hlen, length_cons, pointBytes, length_append,
      length_putUint64, valueBytes, length_append, length_putUint32]
    omega

/-- The value of a type that stands at the start of the bytes. -/
def readOf (typ : Byte) (b : List Byte) : Value :=
  if typ = float64EntryType then .float (uint64 b)
  else if typ = integerEntryType then .integer (uint64 b)
  else if typ = unsignedEntryType then .unsigned (uint64 b)
  else .boolean (b.headD 0 = 1)

def widthOf (typ : Byte) : ℕ := if typ = booleanEntryType then 1 else 8

/-- Values of this type have a fixed width. -/
theorem fixed_of_entryType (h : entryType v ≠ stringEntryType) : (valueBytes v).length = widthOf (entryType v) ∧
    (∀ rest, readOf (entryType v) (valueBytes v ++ rest) = v) ∧ ∀ nvals b, readValues (entryType v) nvals b =
      readFixedChecked (widthOf (entryType v)) (readOf (entryType v)) nvals b := by
  cases v with
  | string v => exact absurd rfl h
  | float v | integer v | unsigned v =>
    exact ⟨length_putUint64 v, fun b => congrArg _ (uint64_putUint64_append v b), fun _ _ => rfl⟩
  | boolean v => exact ⟨rfl, fun _ => by cases v <;> rfl, fun _ _ => rfl⟩

theorem valuesSize_eq (h : SingleType vs) : valuesSize vs = some (vs.flatMap pointBytes).length := by
  obtain ⟨hne, hsame⟩ := h
  cases vs with
  | nil => exact absurd rfl hne
  | cons p vs =>
    obtain ⟨t, v⟩ := p
    by_cases hv : entryType v = stringEntryType
    · obtain ⟨n, hn, hlen⟩ := stringsSize_eq fun p hp => (hsame p hp).trans hv
      obtain ⟨v, rfl⟩ := string_of_entryType hv
      rw [hlen, valuesSize, hn, Option.map_some]
    · -- all values have the width of the first one
      have hlen := length_points fun p (hp : p ∈ (t, v) :: vs) => by
        rw [(fixed_of_entryType (by rw [hsame p hp]; exact hv)).1, hsame p hp]
      rw [hlen]
      cases v with
      | string v => exact absurd rfl hv
      | boolean v => exact congrArg some (add_mul 8 1 _).symm
      | float v | integer v | unsigned v => exact congrArg some (add_mul 8 8 _).symm

variable {l : List (Key × List (Word × Value))}

theorem sizeLoop_eq (h : ∀ p ∈ l, SingleType p.2) (n : ℕ) :
    sizeLoop l (7 * l.length + n) = some (n + (l.flatMap groupBytes).length) := by
  induction l generalizing n with
  | nil => simp [sizeLoop]
  | cons p l ih =>
    have harg : 7 * (p :: l).length + n + p.1.length + (p.2.flatMap pointBytes).length =
        7 * l.length + (n + (groupBytes p).length) := by
      rw [length_groupBytes, length_cons]
      omega
    rw [sizeLoop, valuesSize_eq (h p mem_cons_self)]
    show sizeLoop l (7 * (p :: l).length + n + p.1.length + (p.2.flatMap pointBytes).length) = _
    rw [harg, ih (forall_mem_cons.mp h).2, flatMap_cons, length_append, add_assoc]

theorem marshalSize_eq (h : ∀ p ∈ w.values, SingleType p.2) : w.marshalSize = (w.values.flatMap groupBytes).length := by
  rw [marshalSize, show 7 * w.values.length = 7 * w.values.length + 0 from rfl, sizeLoop_eq h, Option.getD_some,
    zero_add]

/-- **`Encode`**, into any buffer. -/
theorem encode_eq (h : ∀ p ∈ w.values, SingleType p.2) (dst : List Byte) :
    w.encode dst = .ok (w.values.flatMap groupBytes) := by
  have hemits : Emits (fun o => w.values.foldlM (fun o p => encodeKey p o) o) (w.values.flatMap groupBytes) :=
    forEach fun p hp => encodeKey_emits (h p hp)
  have hroom : (w.values.flatMap groupBytes).length ≤
      (if dst.length < w.marshalSize then replicate w.marshalSize 0 else dst.take w.marshalSize).length := by
    rw [← marshalSize_eq h]
    split_ifs with hlt
    · rw [length_replicate]
    · rw [length_take]
      omega
  rw [encode]
  simp only [hemits.run hroom]
  exact congrArg Except.ok take_left

/-! ## Reading a write -/

theorem readFixed_points {width : ℕ} (rest : List Byte)
    (h : ∀ p ∈ vs, (valueBytes p.2).length = width ∧ ∀ rest, read (valueBytes p.2 ++ rest) = p.2) :
    readFixed width read vs.length (vs.flatMap pointBytes ++ rest) = (vs, rest) := by
  induction vs with
  | nil => rfl
  | cons p vs ih =>
    obtain ⟨hwidth, hread⟩ := h p mem_cons_self
    have hdrop : (pointBytes p).length = 8 + width := by
      rw [pointBytes, length_append, length_putUint64, hwidth]
    have hvalue : (pointBytes p ++ (vs.flatMap pointBytes ++ rest)).drop 8 =
        valueBytes p.2 ++ (vs.flatMap pointBytes ++ rest) := by
      rw [pointBytes, append_assoc, drop_left' (length_putUint64 _)]
    have htime : uint64 (pointBytes p ++ (vs.flatMap pointBytes ++ rest)) = p.1 := by
      rw [pointBytes, append_assoc, uint64_putUint64_append]
    rw [flatMap_cons, append_assoc, length_cons, readFixed]
    simp only [htime, hvalue, hread, drop_left' hdrop]
    rw [ih (forall_mem_cons.mp h).2]

theorem readStrings_points (rest : List Byte) (h : ∀ p ∈ vs, ∃ s, p.2 = .string s ∧ s.length < 2 ^ 32) :
    readStrings vs.length (vs.flatMap pointBytes ++ rest) = .ok (vs, rest) := by
  induction vs with
  | nil => rfl
  | cons p vs ih =>
    obtain ⟨t, v⟩ := p
    obtain ⟨s, rfl, hlt⟩ := h (t, v) mem_cons_self
    have hlen : (ofNat 32 s.length).toNat = s.length := by
      rw [toNat_ofNat, mod_eq_of_lt hlt]
    have hassoc : ((t, Value.string s) :: vs).flatMap pointBytes ++ rest =
        putUint64 t ++ (putUint32 (ofNat 32 s.length) ++ (s ++ (vs.flatMap pointBytes ++ rest))) := by
      simp only [flatMap_cons, pointBytes, valueBytes, append_assoc]
    rw [hassoc, length_cons, readStrings]
    simp only [uint64_putUint64_append, drop_left' (length_putUint64 t), uint32_putUint32_append, hlen,
      drop_left' (length_putUint32 _), drop_left, take_left]
    rw [if_neg (by simp only [length_append, length_putUint64, length_putUint32]; omega),
      if_neg (by simp only [length_append, length_putUint32]; omega),
      if_neg (by rw [length_append]; omega), ih (forall_mem_cons.mp h).2]
    rfl

structure Fits (vs : List (Word × Value)) : Prop extends SingleType vs where
  count : vs.length < 2 ^ 32
  strings : ∀ p ∈ vs, ∀ s, p.2 = .string s → s.length < 2 ^ 32

theorem readValues_points (h : Fits vs) (rest : List Byte) :
    readValues (typeOf vs) vs.length (vs.flatMap pointBytes ++ rest) = .ok (vs, rest) := by
  by_cases htyp : typeOf vs = stringEntryType
  · rw [htyp]
    refine readStrings_points rest fun p hp => ?_
    obtain ⟨s, hs⟩ := string_of_entryType ((h.same p hp).trans htyp)
    exact ⟨s, hs, h.strings p hp s hs⟩
  · have hread : ∀ p ∈ vs, (valueBytes p.2).length = widthOf (typeOf vs) ∧
        ∀ rest, readOf (typeOf vs) (valueBytes p.2 ++ rest) = p.2 := by
      intro p hp
      have hne : entryType p.2 ≠ stringEntryType := by
        rw [h.same p hp]
        exact htyp
      obtain ⟨hlen, hread, -⟩ := fixed_of_entryType hne
      rw [← h.same p hp]
      exact ⟨hlen, hread⟩
    have hfixed : readValues (typeOf vs) vs.length (vs.flatMap pointBytes ++ rest) =
        readFixedChecked (widthOf (typeOf vs)) (readOf (typeOf vs)) vs.length (vs.flatMap pointBytes ++ rest) := by
      cases vs with
      | nil => exact absurd rfl h.nonempty
      | cons p vs => exact (fixed_of_entryType htyp).2.2 _ _
    have hlen := length_points fun p hp => (hread p hp).1
    rw [hfixed, readFixedChecked, if_neg (by rw [length_append]; omega), readFixed_points rest hread]

theorem readKey_groupBytes (hkey : p.1.length ≤ 65535) (h : Fits p.2) (htotal : p.2.length ≤ total) (rest : List Byte) :
    readKey total (typeOf p.2) ((groupBytes p).drop 1 ++ rest) = .ok (p, rest) := by
  obtain ⟨k, vs⟩ := p
  have hk : (ofNat 16 k.length).toNat = k.length := by
    rw [toNat_ofNat]
    exact mod_eq_of_lt (by simpa using lt_succ_of_le hkey)
  have hn : (ofNat 32 vs.length).toNat = vs.length := by
    rw [toNat_ofNat, mod_eq_of_lt h.count]
  have hpos : vs.length ≠ 0 := fun hzero => h.nonempty (length_eq_zero_iff.mp hzero)
  have hassoc : (groupBytes (k, vs)).drop 1 ++ rest = putUint16 (ofNat 16 k.length) ++ (k ++
      (putUint32 (ofNat 32 vs.length) ++ (vs.flatMap pointBytes ++ rest))) := by
    simp only [groupBytes, singleton_append, drop_one, tail_cons, append_assoc]
  rw [hassoc, readKey]
  simp only [uint16_putUint16_append, hk, drop_left' (length_putUint16 _), drop_left, take_left,
    uint32_putUint32_append, hn, drop_left' (length_putUint32 _)]
  rw [if_neg (by simp only [length_append, length_putUint16]; omega), if_neg (by simp only [length_append]; omega),
    if_neg (by simp only [length_append, length_putUint32]; omega),
    if_neg (by simp only at htotal; omega), readValues_points h]
  rfl

theorem length_le_length_points (vs : List (Word × Value)) : vs.length ≤ (vs.flatMap pointBytes).length := by
  induction vs with
  | nil => exact le_rfl
  | cons p vs ih =>
    rw [length_cons, flatMap_cons, length_append, pointBytes, length_append, length_putUint64]
    omega

theorem unmarshalLoop_groups : ∀ {fuel : ℕ} {w : WriteWALEntry} (hnodup : ((w.values ++ l).map Prod.fst).Nodup),
      (∀ p ∈ l, p.1.length ≤ 65535 ∧ Fits p.2 ∧ p.2.length ≤ total) → l.length < fuel →
        unmarshalLoop total fuel (l.flatMap groupBytes) w = .ok ⟨w.values ++ l, hnodup⟩ := by
  induction l with
  | nil =>
    intro fuel w hnodup _ hfuel
    cases fuel with
    | zero => nomatch hfuel
    | succ fuel =>
      obtain ⟨values, hw⟩ := w
      simp only [flatMap_nil, unmarshalLoop, append_nil]
  | cons p l ih =>
    intro fuel w hnodup h hfuel
    cases fuel with
    | zero => nomatch hfuel
    | succ fuel =>
      obtain ⟨hkey, hfits, htotal⟩ := h p mem_cons_self
      have hfresh : p.1 ∉ w.values.map Prod.fst := by
        rw [map_append, map_cons, nodup_append] at hnodup
        exact fun hmem => hnodup.2.2 p.1 hmem p.1 mem_cons_self rfl
      have hset : (w.set p.1 p.2).values = w.values ++ [p] := Assoc.put_of_not_mem hfresh p.2
      have hbytes : (p :: l).flatMap groupBytes = typeOf p.2 :: ((groupBytes p).drop 1 ++ l.flatMap groupBytes) := rfl
      rw [hbytes, unmarshalLoop, readKey_groupBytes hkey hfits htotal]
      show unmarshalLoop total fuel (l.flatMap groupBytes) (w.set p.1 p.2) = _
      have hnodup' : (((w.set p.1 p.2).values ++ l).map Prod.fst).Nodup := by
        rw [hset, append_assoc]
        exact hnodup
      rw [ih hnodup' (forall_mem_cons.mp h).2 (lt_of_succ_lt_succ hfuel)]
      congr 2
      rw [hset, append_assoc]
      rfl

/-- **A write is read back**: the keys, their times and their values. -/
theorem unmarshalBinary_groups (h : ∀ p ∈ w.values, p.1.length ≤ 65535 ∧ Fits p.2) :
    unmarshalBinary (w.values.flatMap groupBytes) = .ok w := by
  have hlen : ∀ {l : List (Key × List (Word × Value))}, l.length ≤ (l.flatMap groupBytes).length ∧
      ∀ p ∈ l, p.2.length ≤ (l.flatMap groupBytes).length := by
    intro l
    induction l with
    | nil => simp
    | cons p l ih =>
      have hp := length_le_length_points p.2
      rw [flatMap_cons, length_append, length_groupBytes]
      refine ⟨by rw [length_cons]; omega, forall_mem_cons.mpr ⟨by omega, fun q hq => ?_⟩⟩
      have := ih.2 q hq
      omega
  have hnodup : ((empty.values ++ w.values).map Prod.fst).Nodup := w.nodup
  rw [unmarshalBinary, unmarshalLoop_groups hnodup
    (fun p hp => ⟨(h p hp).1, (h p hp).2, hlen.2 p hp⟩) (lt_succ_of_le hlen.1)]
  rfl

/-! ## What a write that is read can be -/

/-- The counts and lengths that 32 bits can hold. -/
structure Bounded (vs : List (Word × Value)) : Prop where
  count : vs.length < 2 ^ 32
  strings : ∀ p ∈ vs, ∀ s, p.2 = .string s → s.length < 2 ^ 32

theorem readFixed_bounded (width : ℕ) (hread : ∀ b s, read b ≠ .string s) :
    ∀ n b, (readFixed width read n b).1.length = n ∧ ∀ p ∈ (readFixed width read n b).1, ∀ s, p.2 ≠ .string s
  | 0, _ => ⟨rfl, fun _ h => nomatch h⟩
  | n + 1, b => by
    obtain ⟨hlen, hmem⟩ := readFixed_bounded width hread n (b.drop (8 + width))
    exact ⟨congrArg succ hlen, forall_mem_cons.mpr ⟨hread _, hmem⟩⟩

theorem readStrings_bounded : ∀ {n : ℕ} {b : List Byte} {r : List (Word × Value) × List Byte},
    readStrings n b = .ok r → r.1.length = n ∧ ∀ p ∈ r.1, ∀ s, p.2 = .string s → s.length < 2 ^ 32
  | 0, _, _, h => by
    cases h
    exact ⟨rfl, fun _ h => nomatch h⟩
  | n + 1, b, r, h => by
    rw [readStrings] at h
    obtain ⟨r', hr', h⟩ := bind_eq_ok (ok_of_ite (ok_of_ite (ok_of_ite h)))
    obtain ⟨hlen, hmem⟩ := readStrings_bounded hr'
    cases h
    refine ⟨congrArg succ hlen, forall_mem_cons.mpr ⟨fun s hs => ?_, hmem⟩⟩
    cases hs
    exact lt_of_le_of_lt (length_take_le _ _) (isLt _)

theorem readValues_bounded {typ : Byte} {n : ℕ} {r : List (Word × Value) × List Byte}
    (h : readValues typ n b = .ok r) : r.1.length = n ∧ ∀ p ∈ r.1, ∀ s, p.2 = .string s → s.length < 2 ^ 32 := by
  have hfixed : ∀ {width : ℕ} {read : List Byte → Value}, (∀ b s, read b ≠ .string s) →
      readFixedChecked width read n b = .ok r →
        r.1.length = n ∧ ∀ p ∈ r.1, ∀ s, p.2 = .string s → s.length < 2 ^ 32 := by
    intro width read hread h
    cases ok_of_ite h
    obtain ⟨hlen, hmem⟩ := readFixed_bounded width hread n b
    exact ⟨hlen, fun p hp s hs => absurd hs (hmem p hp s)⟩
  unfold readValues at h
  split_ifs at h
  · exact hfixed (fun b s hs => by simp at hs) h
  · exact hfixed (fun b s hs => by simp at hs) h
  · exact hfixed (fun b s hs => by simp at hs) h
  · exact hfixed (fun b s hs => by simp at hs) h
  · exact readStrings_bounded h

theorem readKey_bounded {typ : Byte} {r : (Key × List (Word × Value)) × List Byte}
    (h : readKey total typ b = .ok r) : Bounded r.1.2 := by
  rw [readKey] at h
  obtain ⟨r', hr', h⟩ := bind_eq_ok (ok_of_ite (ok_of_ite (ok_of_ite (ok_of_ite h))))
  obtain ⟨hlen, hmem⟩ := readValues_bounded hr'
  cases h
  exact ⟨hlen ▸ isLt _, hmem⟩

theorem unmarshalLoop_bounded : ∀ {fuel : ℕ} {b : List Byte} {w w' : WriteWALEntry},
    unmarshalLoop total fuel b w = .ok w' → (∀ p ∈ w.values, Bounded p.2) → ∀ p ∈ w'.values, Bounded p.2
  | 0, _, _, _, h => nomatch h
  | _ + 1, [], _, _, h => by
    cases h
    exact id
  | fuel + 1, typ :: b, w, w', h => by
    intro hw
    rw [unmarshalLoop] at h
    obtain ⟨r, hr, h⟩ := bind_eq_ok h
    refine unmarshalLoop_bounded h fun p hp => ?_
    rcases Assoc.mem_put hp with rfl | hp
    · exact readKey_bounded hr
    · exact hw p hp

/-- **Every write that is read** has counts and strings of less than `2 ^ 32`. -/
theorem unmarshalBinary_bounded (h : unmarshalBinary b = .ok w) : ∀ p ∈ w.values, Bounded p.2 :=
  unmarshalLoop_bounded h fun _ hp => nomatch hp

end WriteWALEntry

/-! ## Deletions -/

namespace DeleteWALEntry

def keyBytes (keys : List Key) : List Byte := keys.flatMap (· ++ [newline])

theorem length_keyBytes (keys : List Key) : (keyBytes keys).length = keys.length + (keys.map length).sum := by
  induction keys with
  | nil => rfl
  | cons k keys ih =>
    rw [keyBytes, flatMap_cons, ← keyBytes, length_append, length_append, ih, length_singleton,
      length_cons, map_cons, sum_cons]
    omega

theorem keyBytes_eq (h : keys ≠ []) : keyBytes keys = [newline].intercalate keys ++ [newline] := by
  induction keys with
  | nil => exact absurd rfl h
  | cons k keys ih =>
    cases keys with
    | nil => simp [keyBytes, intercalate]
    | cons k' keys =>
      rw [keyBytes, flatMap_cons, ← keyBytes, ih (by simp), intercalate_cons_cons]
      simp only [append_assoc]

/-- **`Encode`**, into any buffer. -/
theorem encode_eq {w : DeleteWALEntry} (h : w.keys ≠ []) (dst : List Byte) :
    w.encode dst = .ok ([newline].intercalate w.keys) := by
  have hemits : Emits (fun o => w.keys.foldlM (fun o k => encodeKey k o) o) (keyBytes w.keys) :=
    forEach fun k _ => (copy k).andThen (.copy [newline])
  have hroom : (keyBytes w.keys).length ≤
      (if dst.length < w.marshalSize then replicate w.marshalSize 0 else dst).length := by
    rw [length_keyBytes, ← marshalSize]
    split_ifs with hlt
    · rw [length_replicate]
    · omega
  rw [encode]
  simp only [hemits.run hroom]
  show (if (keyBytes w.keys).length = 0 then _ else Except.ok (take ((keyBytes w.keys).length - 1) _)) = _
  rw [keyBytes_eq h, length_append, length_singleton, if_neg (succ_ne_zero _), Nat.add_sub_cancel, append_assoc,
    take_left]

/-- **Keys are read back** if no key has a newline, but for one empty key. -/
theorem unmarshalBinary_intercalate (h : keys ≠ []) (hempty : keys ≠ [[]])
    (hline : ∀ k ∈ keys, newline ∉ k) : unmarshalBinary ([newline].intercalate keys) = ⟨keys⟩ := by
  have hlen : ([newline].intercalate keys).length ≠ 0 := by
    intro hzero
    have hnil := length_eq_zero_iff.mp hzero
    match keys, h, hempty with
    | [[]], _, hempty => exact hempty rfl
    | [x :: k], _, _ => simp [intercalate] at hnil
    | k :: k' :: keys, _, _ =>
      rw [intercalate_cons_cons] at hnil
      simp at hnil
  rw [unmarshalBinary, if_neg hlen, splitOn_intercalate newline hline h]

end DeleteWALEntry

namespace DeleteRangeWALEntry

def keyBytes (k : Key) : List Byte := putUint32 (BitVec.ofNat 32 k.length) ++ k

theorem length_keys (keys : List Key) : (keys.flatMap keyBytes).length = keys.length * 4 + (keys.map length).sum := by
  induction keys with
  | nil => rfl
  | cons k keys ih =>
    rw [flatMap_cons, length_append, ih, keyBytes, length_append, length_putUint32, length_cons, map_cons, sum_cons]
    omega

def entryBytes (w : DeleteRangeWALEntry) : List Byte :=
  putUint64 w.min ++ (putUint64 w.max ++ w.keys.flatMap keyBytes)

/-- **`Encode`**, into any buffer. -/
theorem encode_eq (w : DeleteRangeWALEntry) (dst : List Byte) : w.encode dst = .ok w.entryBytes := by
  have hkeys : Emits (fun o => w.keys.foldlM (fun o k => encodeKey k o) o) (w.keys.flatMap keyBytes) :=
    forEach fun k _ => (put _).andThen (.copy k)
  have hemits := (put (putUint64 w.min)).andThen ((put (putUint64 w.max)).andThen hkeys)
  have hlen : w.entryBytes.length = w.marshalSize := by
    rw [entryBytes, length_append, length_append, length_putUint64, length_putUint64, length_keys, marshalSize]
    omega
  have hroom : w.entryBytes.length ≤
      (if dst.length < w.marshalSize then replicate w.marshalSize 0 else dst).length := by
    rw [hlen]
    split_ifs with hlt
    · rw [length_replicate]
    · omega
  obtain ⟨o₁, h₁, heq⟩ := bind_eq_ok (hemits.run hroom)
  obtain ⟨o₂, h₂, heq⟩ := bind_eq_ok heq
  rw [encode]
  simp only [h₁]
  show (Out.put (putUint64 w.max) o₁ >>= _) = _
  rw [h₂]
  show (w.keys.foldlM (fun o k => encodeKey k o) o₂ >>= _) = _
  rw [heq]
  exact congrArg Except.ok take_left

theorem readKeys_keys (h : ∀ k ∈ keys, k.length < 2 ^ 32) :
    ∀ {fuel : ℕ}, keys.length < fuel → readKeys fuel (keys.flatMap keyBytes) = .ok keys := by
  induction keys with
  | nil =>
    intro fuel hfuel
    cases fuel with
    | zero => nomatch hfuel
    | succ fuel => rfl
  | cons k keys ih =>
    intro fuel hfuel
    cases fuel with
    | zero => nomatch hfuel
    | succ fuel =>
      have hk : (ofNat 32 k.length).toNat = k.length := by
        rw [toNat_ofNat, mod_eq_of_lt (h k mem_cons_self)]
      have hassoc : (k :: keys).flatMap keyBytes =
          putUint32 (ofNat 32 k.length) ++ (k ++ keys.flatMap keyBytes) := by
        rw [flatMap_cons, keyBytes, append_assoc]
      rw [hassoc, readKeys]
      simp only [uint32_putUint32_append, hk, drop_left' (length_putUint32 _), drop_left, take_left]
      rw [if_neg (by simp only [length_append, length_putUint32]; omega),
        if_neg (by simp only [length_append, length_putUint32]; omega),
        if_neg (by rw [length_append]; omega),
        ih (forall_mem_cons.mp h).2 (lt_of_succ_lt_succ hfuel)]
      rfl

/-- **A deletion of a range is read back.** -/
theorem unmarshalBinary_entryBytes {w : DeleteRangeWALEntry} (h : ∀ k ∈ w.keys, k.length < 2 ^ 32) :
    unmarshalBinary w.entryBytes = .ok w := by
  have hlen := length_keys w.keys
  have hkeys : w.entryBytes.drop 16 = w.keys.flatMap keyBytes := by
    rw [entryBytes, ← append_assoc]
    exact drop_left' (by simp)
  have hmax : w.entryBytes.drop 8 = putUint64 w.max ++ w.keys.flatMap keyBytes :=
    drop_left' (length_putUint64 _)
  have hmin : uint64 w.entryBytes = w.min := uint64_putUint64_append _ _
  have hsize : w.entryBytes.length = 16 + (w.keys.flatMap keyBytes).length := by
    simp only [entryBytes, length_append, length_putUint64]
    omega
  rw [unmarshalBinary, if_neg (by omega), hkeys, hmax, uint64_putUint64_append, hmin,
    readKeys_keys h (by omega)]
  rfl

theorem readKeys_bounded : ∀ {fuel : ℕ} {b : List Byte} {keys : List Key}, readKeys fuel b = .ok keys →
    ∀ k ∈ keys, k.length < 2 ^ 32
  | 0, _, _, h => nomatch h
  | fuel + 1, b, keys, h => by
    rw [readKeys] at h
    split at h
    · cases h
      exact fun _ hk => nomatch hk
    · obtain ⟨keys', hkeys', h⟩ := bind_eq_ok (ok_of_ite (ok_of_ite h))
      cases h
      exact forall_mem_cons.mpr ⟨lt_of_le_of_lt (length_take_le _ _) (isLt _), readKeys_bounded hkeys'⟩

/-- **Every deletion of a range that is read** has keys of less than `2 ^ 32` bytes. -/
theorem unmarshalBinary_bounded {w : DeleteRangeWALEntry} (h : unmarshalBinary b = .ok w) :
    ∀ k ∈ w.keys, k.length < 2 ^ 32 := by
  rw [unmarshalBinary] at h
  obtain ⟨keys, hkeys, h⟩ := bind_eq_ok (ok_of_ite h)
  cases h
  exact readKeys_bounded hkeys

end DeleteRangeWALEntry

/-! ## Entries -/

namespace WALEntry

/-- The entries whose bytes say what they are. -/
def Encodable : WALEntry → Prop
  | .write w => ∀ p ∈ w.values, p.1.length ≤ 65535 ∧ WriteWALEntry.Fits p.2
  | .delete w => w.keys ≠ [] ∧ w.keys ≠ [[]] ∧ ∀ k ∈ w.keys, newline ∉ k
  | .deleteRange w => ∀ k ∈ w.keys, k.length < 2 ^ 32

/-- **Entries are read back**, whatever buffer they are written into. -/
theorem unmarshalBinary_encode {e : WALEntry} (h : e.Encodable) (dst : List Byte) :
    ∃ b, e.encode dst = .ok b ∧ unmarshalBinary e.type b = .ok e := by
  cases e with
  | write w =>
    refine ⟨_, WriteWALEntry.encode_eq (fun p hp => (h p hp).2.toSingleType) dst, ?_⟩
    show (WriteWALEntry.unmarshalBinary _).map WALEntry.write = _
    rw [WriteWALEntry.unmarshalBinary_groups h]
    rfl
  | delete w =>
    refine ⟨_, DeleteWALEntry.encode_eq h.1 dst, ?_⟩
    show Except.ok (WALEntry.delete (DeleteWALEntry.unmarshalBinary _)) = _
    rw [DeleteWALEntry.unmarshalBinary_intercalate h.1 h.2.1 h.2.2]
  | deleteRange w =>
    refine ⟨_, w.encode_eq dst, ?_⟩
    show (DeleteRangeWALEntry.unmarshalBinary _).map WALEntry.deleteRange = _
    rw [DeleteRangeWALEntry.unmarshalBinary_entryBytes h]
    rfl

end WALEntry

end Influxdb.Tsm1.Wal
