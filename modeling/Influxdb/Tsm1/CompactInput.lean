import Mathlib.Algebra.Order.BigOperators.Group.List
import Mathlib.Algebra.Order.Ring.Nat
import Influxdb.Tsm1.CompactMerge

/-!
# CompactInput — the inputs of a compaction, key by key

An input is at position `p` of its file when the blocks of the first `p` keys were taken and its buffer
is empty or holds the blocks of the next key (`InputAt`).  Filling the buffers, choosing the smallest
key and taking its blocks are then steps on the positions (`Slot`), and the blocks taken are exactly
the blocks of that key in all files, in file order (`takeKey_blocks`).
-/

namespace Influxdb.Tsm1

open List Cursors Timed BlockIterator

variable {Buf V : Type*} {ki : KeyIndex Buf} {it : BlockIterator Buf}

def blockOf (r : TSMReader Buf) (ki : KeyIndex Buf) (e : IndexEntry Buf) : Block Buf :=
  { key := ki.key, minTime := e.minTime, maxTime := e.maxTime, typ := ki.typ, b := e.b
    tombstones := r.tombstoneRange ki.key, readMin := maxInt64, readMax := minInt64 }

def keyBlocks (r : TSMReader Buf) (ki : KeyIndex Buf) : List (Block Buf) := ki.entries.map (blockOf r ki)

/-- A file and the number of its keys that were taken. -/
structure Slot (Buf : Type*) where
  reader : TSMReader Buf
  pos : ℕ

namespace Slot

def head? (s : Slot Buf) : Option (KeyIndex Buf) := s.reader.index[s.pos]?

def blocks (s : Slot Buf) : List (Block Buf) := (s.head?.map (keyBlocks s.reader)).getD []

/-- Move past the key, if the file is at it. -/
def advance (key : Key) (s : Slot Buf) : Slot Buf :=
  if s.head?.map (·.key) = some key then { s with pos := s.pos + 1 } else s

end Slot

/-- The input stands at the slot's position, its buffer empty or filled. -/
structure InputAt (s : Slot Buf) (inp : Input Buf) : Prop where
  reader_eq : inp.iter.r = s.reader
  n_eq : inp.iter.n = s.reader.index.length
  err_eq : inp.iter.err = none
  entries_le : inp.iter.entries.length ≤ 1
  state : inp.buf = [] ∧ inp.iter.i = s.pos ∨ inp.buf ≠ [] ∧ inp.buf = s.blocks ∧ inp.iter.i = s.pos + 1

/-- The input stands at the slot's position, its buffer filled with the next key if there is one. -/
structure InputFilled (s : Slot Buf) (inp : Input Buf) : Prop extends InputAt s inp where
  buf_eq : inp.buf = s.blocks

section Fill

variable {C : BlockCodec Buf V} {typeOf : Key → BlockType} {r : TSMReader Buf} {s : Slot Buf}
  {inp : Input Buf} {ki : KeyIndex Buf}

theorem TSMReader.Sound.key_lt (h : r.Sound C typeOf) {i j : ℕ} {a b : KeyIndex Buf} (hij : i < j)
    (ha : r.index[i]? = some a) (hb : r.index[j]? = some b) : a.key < b.key := by
  obtain ⟨hi, rfl⟩ := List.getElem?_eq_some_iff.mp ha
  obtain ⟨hj, rfl⟩ := List.getElem?_eq_some_iff.mp hb
  exact pairwise_iff_getElem.mp h.keys_asc i j hi hj hij

theorem Slot.blocks_ne_nil (h : s.reader.Sound C typeOf) (hk : s.head? = some ki) : s.blocks ≠ [] := by
  have hne := h.entries_ne_nil ki (mem_of_getElem? hk)
  simpa [Slot.blocks, hk, keyBlocks] using hne

theorem Slot.blocks_eq (hk : s.head? = some ki) : s.blocks = keyBlocks s.reader ki := by
  simp [Slot.blocks, hk]

theorem Slot.blocks_eq_nil (hk : s.head? = none) : s.blocks = [] := by
  simp [Slot.blocks, hk]

/-- Behind the last entry of a key, `PeekNext` does not show the same key: not at the end of the file,
and not when it looks one key too far. -/
theorem peekNext_ne (h : r.Sound C typeOf) (hr : it.r = r) {p : ℕ}
    (hi : it.i = p + 1) (hk : r.index[p]? = some ki) (he : it.entries.length ≤ 1) : it.peekNext ≠ ki.key := by
  have hne := h.key_ne_nil ki (mem_of_getElem? hk)
  rw [peekNext, if_neg (by omega)]
  split_ifs with h1
  · rw [keyAt, hr, hi]
    cases hj : r.index[p + 1 + 1]? with
    | none => simpa using hne.symm
    | some kj =>
      have := h.key_lt (by omega) hk hj
      simpa using this.ne'
  · exact hne.symm

theorem readRest_spec (h : r.Sound C typeOf) {p : ℕ} (hk : r.index[p]? = some ki) :
    ∀ (es : List (IndexEntry Buf)) (e : IndexEntry Buf) (fuel : ℕ) (inp : Input Buf),
      inp.iter.r = r → inp.iter.i = p + 1 → inp.iter.err = none → inp.iter.key = ki.key →
      inp.iter.typ = ki.typ → inp.iter.entries = e :: es → es.length < fuel → ∃ e', Input.readRest ki.key fuel inp =
        some { inp with iter := { inp.iter with entries := [e'] }, buf := inp.buf ++ es.map (blockOf r ki) }
  | [], e, fuel, inp, hr, hi, _, _, _, he, hf => by
    obtain ⟨fuel, rfl⟩ : ∃ n, fuel = n + 1 := ⟨fuel - 1, by omega⟩
    refine ⟨e, ?_⟩
    rw [Input.readRest, if_neg (peekNext_ne h hr hi hk (by simp [he]))]
    obtain ⟨f, ⟨r', i, n, k, entries, err, typ⟩, buf⟩ := inp
    simp only at he
    simp [he]
  | e₂ :: es, e, fuel, inp, hr, hi, herr, hkey, htyp, he, hf => by
    obtain ⟨fuel, rfl⟩ : ∃ n, fuel = n + 1 := ⟨fuel - 1, by omega⟩
    have hpeek : inp.iter.peekNext = ki.key := by
      rw [peekNext, he, if_pos (by simp), hkey]
    have hnext : inp.iter.next.2 = { inp.iter with entries := e₂ :: es } := by
      simp [BlockIterator.next, herr, he]
    have hread : BlockIterator.read { inp.iter with entries := e₂ :: es } = some (blockOf r ki e₂) := by
      simp [BlockIterator.read, blockOf, hkey, htyp, hr]
    obtain ⟨e', he'⟩ := readRest_spec h hk es e₂ fuel
      { inp with iter := { inp.iter with entries := e₂ :: es }, buf := inp.buf ++ [blockOf r ki e₂] }
      hr hi herr hkey htyp rfl (by simpa using hf)
    refine ⟨e', ?_⟩
    rw [Input.readRest, if_pos hpeek, hnext]
    simp only [hread, Option.bind_some]
    rw [he']
    simp

theorem next_of_end (herr : it.err = none) (he : it.entries.length ≤ 1)
    (hn : it.n ≤ it.i) : it.next = (false, { it with entries := [] }) := by
  have htail : it.entries.tail = [] := by
    rw [← length_eq_zero_iff, length_tail]; omega
  unfold BlockIterator.next
  rw [if_neg (by simp [herr])]
  split_ifs with h1
  · obtain ⟨r', i, n, k, entries, err, typ⟩ := it
    simp only at h1
    simp [h1.2]
  · simp only [htail, ne_eq, not_true_eq_false, if_false]
    rw [BlockIterator.nextKey, if_neg (by simp only; omega)]

theorem next_of_key (herr : it.err = none) (he : it.entries.length ≤ 1)
    (hn : it.n = it.r.index.length) (hk : it.r.index[it.i]? = some ki) (hne : ki.entries ≠ []) :
    it.next = (true, { it with key := ki.key, typ := ki.typ, entries := ki.entries, i := it.i + 1 }) := by
  have htail : it.entries.tail = [] := by
    rw [← length_eq_zero_iff, length_tail]; omega
  have hlt : it.i < it.r.index.length := (List.getElem?_eq_some_iff.mp hk).1
  unfold BlockIterator.next
  rw [if_neg (by simp [herr]), if_neg (by omega)]
  simp only [htail, ne_eq, not_true_eq_false, if_false]
  rw [BlockIterator.nextKey, if_pos (by simp only; omega)]
  simp [hk, hn, hne]

theorem fill_spec (h : s.reader.Sound C typeOf) (ha : InputAt s inp) (log : ErrorLog) {fuel : ℕ}
    (hf : ∀ ki ∈ s.reader.index, ki.entries.length ≤ fuel) :
    ∃ inp', inp.fill fuel log = some (inp', log) ∧ InputFilled s inp' := by
  rcases ha.state with ⟨hbuf, hi⟩ | ⟨hne, hbuf, hi⟩
  · rw [Input.fill, if_neg (by simp [hbuf])]
    cases hk : s.head? with
    | none =>
      have hn : inp.iter.n ≤ inp.iter.i := by
        have := getElem?_eq_none_iff.mp hk
        rw [ha.n_eq, hi]
        exact this
      refine ⟨{ inp with iter := { inp.iter with entries := [] } }, ?_, ?_⟩
      · simp [next_of_end ha.err_eq ha.entries_le hn, ha.err_eq]
      · exact ⟨⟨ha.reader_eq, ha.n_eq, ha.err_eq, by simp, .inl ⟨hbuf, hi⟩⟩, by rw [Slot.blocks_eq_nil hk]; exact hbuf⟩
    | some ki =>
      have hmem : ki ∈ s.reader.index := mem_of_getElem? hk
      have hkey : inp.iter.r.index[inp.iter.i]? = some ki := by rw [ha.reader_eq, hi]; exact hk
      obtain ⟨e, es, hes⟩ := exists_cons_of_ne_nil (h.entries_ne_nil ki hmem)
      have hnext := next_of_key ha.err_eq ha.entries_le (by rw [ha.n_eq, ha.reader_eq]) hkey
        (h.entries_ne_nil ki hmem)
      obtain ⟨e', he'⟩ := readRest_spec h hk es e fuel
        { inp with
          iter := { inp.iter with
            key := ki.key, typ := ki.typ, entries := ki.entries, i := inp.iter.i + 1 }
          buf := inp.buf ++ [blockOf s.reader ki e] }
        ha.reader_eq (by simp [hi]) ha.err_eq rfl rfl hes
        (by have := hf ki hmem; rw [hes, length_cons] at this; omega)
      have hread : read { inp.iter with
          key := ki.key, typ := ki.typ, entries := ki.entries, i := inp.iter.i + 1 } =
          some (blockOf s.reader ki e) := by
        simp [BlockIterator.read, hes, blockOf, ha.reader_eq]
      refine ⟨{ inp with
          iter := { inp.iter with key := ki.key, typ := ki.typ, entries := [e'], i := inp.iter.i + 1 }
          buf := inp.buf ++ [blockOf s.reader ki e] ++ es.map (blockOf s.reader ki) }, ?_, ?_⟩
      · rw [hnext]
        simp only [if_true, hread, Option.bind_some]
        rw [show (blockOf s.reader ki e).key = ki.key from rfl, he']
        simp only [Option.map_some, ha.err_eq]
      · have hfull : inp.buf ++ [blockOf s.reader ki e] ++ es.map (blockOf s.reader ki) = s.blocks := by
          rw [Slot.blocks_eq hk, keyBlocks, hes, hbuf]
          rfl
        exact ⟨⟨ha.reader_eq, ha.n_eq, ha.err_eq, by simp,
          .inr ⟨by simp, hfull, by simp [hi]⟩⟩, hfull⟩
  · exact ⟨inp, by rw [Input.fill, if_pos hne], ha, hbuf⟩

end Fill

/-! ## All inputs -/

section Inputs

open BatchKeyIterator

variable {C : BlockCodec Buf V} {typeOf : Key → BlockType} {slots : List (Slot Buf)}
  {inputs : List (Input Buf)}

theorem fillInputs_spec {fuel : ℕ} (log : ErrorLog) (ha : Forall₂ InputAt slots inputs)
    (h : ∀ s ∈ slots, s.reader.Sound C typeOf) (hf : ∀ s ∈ slots, ∀ ki ∈ s.reader.index, ki.entries.length ≤ fuel) :
    ∃ inputs', fillInputs fuel inputs log = some (inputs', log) ∧ Forall₂ InputFilled slots inputs' := by
  induction ha with
  | nil => exact ⟨[], rfl, Forall₂.nil⟩
  | @cons s inp slots inputs has _ ih =>
    obtain ⟨inp', h1, h2⟩ := fill_spec (h s mem_cons_self) has log (hf s mem_cons_self)
    obtain ⟨inputs', h3, h4⟩ := ih (forall_mem_cons.mp h).2
      (forall_mem_cons.mp hf).2
    exact ⟨inp' :: inputs', by simp [fillInputs, h1, h3], Forall₂.cons h2 h4⟩

theorem InputFilled.buf_cases {s : Slot Buf} {inp : Input Buf} (hi : InputFilled s inp)
    (h : s.reader.Sound C typeOf) : (s.head? = none ∧ inp.buf = []) ∨
      ∃ ki b bs, s.head? = some ki ∧ inp.buf = b :: bs ∧ b.key = ki.key ∧ b.typ = ki.typ := by
  cases hk : s.head? with
  | none => exact .inl ⟨rfl, by rw [hi.buf_eq, Slot.blocks_eq_nil hk]⟩
  | some ki =>
    obtain ⟨e, es, hes⟩ := exists_cons_of_ne_nil (h.entries_ne_nil ki (mem_of_getElem? hk))
    refine .inr ⟨ki, blockOf s.reader ki e, es.map (blockOf s.reader ki), rfl, ?_, rfl, rfl⟩
    rw [hi.buf_eq, Slot.blocks_eq hk, keyBlocks, hes, map_cons]

theorem minKey_cons {s : Slot Buf} {inp : Input Buf} (hi : InputFilled s inp) (h : s.reader.Sound C typeOf)
    (m : Key × BlockType) : ∃ m₁, minKey (inp :: inputs) m = minKey inputs m₁ ∧
      (m₁ = m ∨ ∃ ki, s.head? = some ki ∧ m₁ = (ki.key, ki.typ)) ∧ (m.1 ≠ [] → m₁.1 ≠ [] ∧ m₁.1 ≤ m.1) ∧
      ∀ ki, s.head? = some ki → m₁.1 ≠ [] ∧ m₁.1 ≤ ki.key := by
  rcases hi.buf_cases h with ⟨hk, hbuf⟩ | ⟨ki, b, bs, hk, hbuf, hbk, hbt⟩
  · rw [minKey, hbuf, hk]
    exact ⟨m, rfl, .inl rfl, fun hm => ⟨hm, le_rfl⟩, nofun⟩
  · simp only [minKey, hbuf, hbk, hbt, hk, Option.some.injEq, forall_eq', exists_eq_left']
    refine ⟨_, rfl, ?_⟩
    split_ifs with hc
    · exact ⟨.inr rfl, fun hm => ⟨h.key_ne_nil ki (mem_of_getElem? hk), (hc.resolve_left hm).le⟩,
        h.key_ne_nil ki (mem_of_getElem? hk), le_rfl⟩
    · rw [not_or, not_lt] at hc
      exact ⟨.inl rfl, fun hm => ⟨hm, le_rfl⟩, hc⟩

theorem minKey_spec (ha : Forall₂ InputFilled slots inputs)
    (h : ∀ s ∈ slots, s.reader.Sound C typeOf) : ∀ {m m' : Key × BlockType}, m' = minKey inputs m →
      (m' = m ∨ ∃ s ∈ slots, ∃ ki, s.head? = some ki ∧ m' = (ki.key, ki.typ)) ∧ (m.1 ≠ [] → m'.1 ≠ [] ∧ m'.1 ≤ m.1) ∧
      (∀ s ∈ slots, ∀ ki, s.head? = some ki → m'.1 ≠ [] ∧ m'.1 ≤ ki.key) := by
  induction ha with
  | nil => rintro m _ rfl; exact ⟨.inl rfl, fun hm => ⟨hm, le_rfl⟩, by simp⟩
  | @cons s inp slots inputs has _ ih =>
    intro m m' hm'
    obtain ⟨m₁, heq, hcand, hle, hhead⟩ := minKey_cons has (h s mem_cons_self) m
    obtain ⟨h1, h2, h3⟩ := ih (forall_mem_cons.mp h).2 (hm'.trans heq)
    have hbelow : ∀ {k : Key}, m₁.1 ≠ [] ∧ m₁.1 ≤ k → m'.1 ≠ [] ∧ m'.1 ≤ k :=
      fun hk => ⟨(h2 hk.1).1, (h2 hk.1).2.trans hk.2⟩
    refine ⟨?_, fun hm => hbelow (hle hm), forall_mem_cons.mpr ⟨fun ki hk => hbelow (hhead ki hk), h3⟩⟩
    rcases h1 with rfl | h1
    · exact hcand.imp_right fun hki => ⟨s, mem_cons_self, hki⟩
    · exact .inr (exists_mem_cons_of_exists h1)

theorem takeKey_spec (key : Key) (ha : Forall₂ InputFilled slots inputs) (h : ∀ s ∈ slots, s.reader.Sound C typeOf) :
    (takeKey key inputs).1 = slots.flatMap (fun s => if s.head?.map (·.key) = some key then s.blocks else []) ∧
      Forall₂ InputAt (slots.map (Slot.advance key)) (takeKey key inputs).2 := by
  induction ha with
  | nil => exact ⟨rfl, Forall₂.nil⟩
  | @cons s inp slots inputs has _ ih =>
    have hs := h s mem_cons_self
    obtain ⟨h1, h2⟩ := ih (forall_mem_cons.mp h).2
    rw [flatMap_cons, map_cons]
    rcases has.buf_cases hs with ⟨hk, hbuf⟩ | ⟨ki, b, bs, hk, hbuf, hbk, -⟩
    · have hadv : Slot.advance key s = s := if_neg (by simp [hk])
      simp only [takeKey, hbuf, hk, Option.map_none, reduceCtorEq, if_false, nil_append]
      exact ⟨h1, Forall₂.cons (by rw [hadv]; exact has.toInputAt) h2⟩
    · simp only [takeKey, hbuf, hk, Option.map_some, Option.some.injEq, hbk]
      by_cases hkey : ki.key = key
      · have hadv : Slot.advance key s = { s with pos := s.pos + 1 } := if_pos (by simp [hk, hkey])
        simp only [if_pos hkey, h1]
        refine ⟨by rw [← hbuf, has.buf_eq], Forall₂.cons ?_ h2⟩
        rw [hadv]
        rcases has.state with ⟨hnil, -⟩ | ⟨-, -, hi⟩
        · rw [hnil] at hbuf; exact absurd hbuf (by simp)
        · exact ⟨has.reader_eq, has.n_eq, has.err_eq, has.entries_le, .inl ⟨rfl, hi⟩⟩
      · have hadv : Slot.advance key s = s := if_neg (by simp [hk, hkey])
        simp only [if_neg hkey, nil_append]
        exact ⟨h1, Forall₂.cons (by rw [hadv]; exact has.toInputAt) h2⟩

end Inputs

/-! ## Keys passed and keys pending -/

section Positions

variable {C : BlockCodec Buf V} {typeOf : Key → BlockType} {slots : List (Slot Buf)} {key : Key}

/-- The key is still to come in some file. -/
def Pending (slots : List (Slot Buf)) (key : Key) : Prop :=
  ∃ s ∈ slots, ∃ ki ∈ s.reader.index.drop s.pos, ki.key = key

/-- Every key passed in some file is smaller than every key pending in some file. -/
def Separated (slots : List (Slot Buf)) : Prop :=
  ∀ s ∈ slots, ∀ ki ∈ s.reader.index.take s.pos, ∀ key, Pending slots key → ki.key < key

def fileBlocks (r : TSMReader Buf) (key : Key) : List (Block Buf) :=
  (r.index.filter (fun ki => ki.key = key)).flatMap (keyBlocks r)

variable {s : Slot Buf}

theorem Slot.head?_mem_drop (hk : s.head? = some ki) : ki ∈ s.reader.index.drop s.pos := by
  obtain ⟨hlt, rfl⟩ := List.getElem?_eq_some_iff.mp hk
  exact mem_drop_iff_getElem.mpr ⟨0, by omega, rfl⟩

theorem Slot.drop_eq (hk : s.head? = some ki) : s.reader.index.drop s.pos = ki :: s.reader.index.drop (s.pos + 1) := by
  obtain ⟨hlt, rfl⟩ := List.getElem?_eq_some_iff.mp hk
  exact drop_eq_getElem_cons hlt

theorem Slot.drop_eq_nil (hk : s.head? = none) : s.reader.index.drop s.pos = [] :=
  drop_of_length_le (getElem?_eq_none_iff.mp hk)

theorem Slot.take_succ_eq (hk : s.head? = some ki) :
    s.reader.index.take (s.pos + 1) = s.reader.index.take s.pos ++ [ki] := by
  obtain ⟨hlt, rfl⟩ := List.getElem?_eq_some_iff.mp hk
  rw [take_succ_eq_append_getElem hlt]

theorem Slot.head?_lt (h : s.reader.Sound C typeOf)
    (hk : s.head? = some ki) : ∀ kj ∈ s.reader.index.drop (s.pos + 1), ki.key < kj.key := by
  have hd := h.keys_asc.sublist (drop_sublist s.pos _)
  rw [Slot.drop_eq hk] at hd
  exact (pairwise_cons.mp hd).1

theorem fileBlocks_eq (hs : s ∈ slots) (h : s.reader.Sound C typeOf)
    (hsep : Separated slots) (hp : Pending slots key) (hmin : ∀ ki, s.head? = some ki → key ≤ ki.key) :
    fileBlocks s.reader key = if s.head?.map (·.key) = some key then s.blocks else [] := by
  have htake : (s.reader.index.take s.pos).filter (fun ki => ki.key = key) = [] :=
    filter_eq_nil_iff.mpr fun ki hki => by simpa using (hsep s hs ki hki key hp).ne
  have hsplit : s.reader.index.filter (fun ki => ki.key = key) =
      (s.reader.index.drop s.pos).filter (fun ki => ki.key = key) := by
    conv_lhs => rw [← take_append_drop s.pos s.reader.index]
    rw [filter_append, htake, nil_append]
  rw [fileBlocks, hsplit]
  cases hk : s.head? with
  | none => simp [Slot.drop_eq_nil hk]
  | some ki =>
    have hrest : (s.reader.index.drop (s.pos + 1)).filter (fun ki => ki.key = key) = [] :=
      filter_eq_nil_iff.mpr fun kj hkj => by
        simpa using ((hmin ki hk).trans_lt (Slot.head?_lt h hk kj hkj)).ne'
    rw [Slot.drop_eq hk, filter_cons, hrest, Slot.blocks_eq hk]
    by_cases hkey : ki.key = key <;> simp [hkey]

/-- Advancing past a smallest key: the keys passed are the old ones and this one, and the keys still to
come are larger. -/
theorem Slot.advance_spec (h : s.reader.Sound C typeOf)
    (hmin : ∀ ki, s.head? = some ki → key ≤ ki.key) : (∀ ki ∈ (s.advance key).reader.index.take (s.advance key).pos,
        ki ∈ s.reader.index.take s.pos ∨ ki.key = key) ∧
      (∀ ki ∈ (s.advance key).reader.index.drop (s.advance key).pos, ki ∈ s.reader.index.drop s.pos ∧ key < ki.key) ∧
      (∀ ki ∈ s.reader.index.drop s.pos, ki.key ≠ key →
        ki ∈ (s.advance key).reader.index.drop (s.advance key).pos) := by
  cases hk : s.head? with
  | none =>
    have hadv : s.advance key = s := if_neg (by simp [hk])
    rw [hadv, Slot.drop_eq_nil hk]
    exact ⟨fun ki hki => .inl hki, by simp, by simp⟩
  | some ki =>
    by_cases hkey : ki.key = key
    · have hadv : s.advance key = { s with pos := s.pos + 1 } := if_pos (by simp [hk, hkey])
      simp only [hadv, Slot.take_succ_eq hk, Slot.drop_eq hk, mem_append, mem_cons, not_mem_nil, or_false]
      refine ⟨?_, fun kj hkj => ⟨.inr hkj, hkey ▸ Slot.head?_lt h hk kj hkj⟩, ?_⟩
      · rintro kj (hkj | rfl)
        · exact .inl hkj
        · exact .inr hkey
      · rintro kj (rfl | hkj) hne
        · exact absurd hkey hne
        · exact hkj
    · have hadv : s.advance key = s := if_neg (by simp [hk, hkey])
      rw [hadv]
      refine ⟨fun kj hkj => .inl hkj, fun kj hkj => ⟨hkj, ?_⟩, fun kj hkj _ => hkj⟩
      have hlt : key < ki.key := lt_of_le_of_ne (hmin ki hk) (Ne.symm hkey)
      rw [Slot.drop_eq hk] at hkj
      rcases mem_cons.mp hkj with rfl | hkj
      · exact hlt
      · exact hlt.trans (Slot.head?_lt h hk kj hkj)

variable (h : ∀ s ∈ slots, s.reader.Sound C typeOf)
  (hmin : ∀ s ∈ slots, ∀ ki, s.head? = some ki → key ≤ ki.key)

include h hmin

theorem pending_advance {key' : Key} :
    Pending (slots.map (Slot.advance key)) key' ↔ Pending slots key' ∧ key' ≠ key := by
  constructor
  · rintro ⟨s', hs', ki, hki, rfl⟩
    obtain ⟨s, hs, rfl⟩ := mem_map.mp hs'
    obtain ⟨h1, h2⟩ := (Slot.advance_spec (h s hs) (hmin s hs)).2.1 ki hki
    exact ⟨⟨s, hs, ki, h1, rfl⟩, h2.ne'⟩
  · rintro ⟨⟨s, hs, ki, hki, rfl⟩, hne⟩
    exact ⟨_, mem_map_of_mem hs, ki, (Slot.advance_spec (h s hs) (hmin s hs)).2.2 ki hki hne, rfl⟩

theorem lt_of_pending_advance {key' : Key} (hp : Pending (slots.map (Slot.advance key)) key') : key < key' := by
  obtain ⟨s', hs', ki, hki, rfl⟩ := hp
  obtain ⟨s, hs, rfl⟩ := mem_map.mp hs'
  exact ((Slot.advance_spec (h s hs) (hmin s hs)).2.1 ki hki).2

theorem Separated.advance (hsep : Separated slots) (hp : Pending slots key) :
    Separated (slots.map (Slot.advance key)) := by
  refine forall_mem_map.mpr fun s hs ki hki key' hp' => ?_
  have hlt := lt_of_pending_advance h hmin hp'
  rcases (Slot.advance_spec (h s hs) (hmin s hs)).1 ki hki with hki | rfl
  · exact (hsep s hs ki hki key hp).trans hlt
  · exact hlt

end Positions

/-- The number of keys still to be taken, over all files. -/
def keysLeft (slots : List (Slot Buf)) : ℕ := (slots.map fun s => s.reader.index.length - s.pos).sum

theorem keysLeft_advance_lt {slots : List (Slot Buf)} {key : Key}
    (h : ∃ s ∈ slots, ∃ ki, s.head? = some ki ∧ ki.key = key) :
    keysLeft (slots.map (Slot.advance key)) < keysLeft slots := by
  have hle : ∀ s : Slot Buf, (s.advance key).reader.index.length - (s.advance key).pos ≤
      s.reader.index.length - s.pos := fun s => by
    unfold Slot.advance
    split_ifs
    · simp only; omega
    · exact le_rfl
  obtain ⟨s, hs, ki, hk, hkey⟩ := h
  rw [keysLeft, keysLeft, map_map]
  refine sum_lt_sum _ _ (fun s _ => hle s) ⟨s, hs, ?_⟩
  have hlt := (List.getElem?_eq_some_iff.mp hk).1
  have hadv : s.advance key = { s with pos := s.pos + 1 } := if_pos (by simp [hk, hkey])
  simp only [Function.comp_apply, hadv]
  omega

end Influxdb.Tsm1
