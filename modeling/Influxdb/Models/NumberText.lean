import Influxdb.Lib.Except
import Influxdb.Models.Points

/-!
# NumberText — what `scanFields` accepts for a number or a boolean is read back

`scanNumber` and `scanBoolean` find the end of a value and check it; the accessors of `FieldIterator` parse the text
again, with `strconv`.  A number is parsed by the scanner only if it is so long that it could be out of range: a shorter
one has to be in range by its shape.
-/

namespace Influxdb.Models

open List Strconv FieldIterator Nat

variable {x t : List Byte} {n : ℕ} {c : Byte} {v y : List Byte} {p : Byte} {st st₁ st' : NumberScan}

/-- The end of a value: the end of the bytes, a comma or a blank. -/
def AtStop (x : List Byte) : Prop := ∀ c, x.head? = some c → c = comma ∨ c = space

/-- A byte that belongs to a number or a boolean: no separator, quote or backslash. -/
def isWord (c : Byte) : Bool := c != comma && c != space && c != quote && c != backslash

/-- The text is of a type other than string, and the accessor of its type succeeds. -/
def Readable (v : List Byte) : Prop :=
  (fieldTypeOf v).1 ≠ .empty ∧ (fieldTypeOf v).1 ≠ .string ∧
    ∀ start stop key, ∃ w, FieldIterator.value ⟨start, stop, key, (fieldTypeOf v).2, (fieldTypeOf v).1⟩ = .ok (some w)

theorem readable_of_type {w : List Byte} {ty : FieldType} (htype : fieldTypeOf v = (ty, w))
    (hty : ty ≠ .empty ∧ ty ≠ .string)
    (hvalue : ∀ start stop key, ∃ u, value ⟨start, stop, key, w, ty⟩ = .ok (some u)) : Readable v := by
  rw [Readable, htype]
  exact ⟨hty.1, hty.2, hvalue⟩

/-! ## The loop of `scanNumber` -/

/-- What the loop has read behind the byte `p`: the text `t`, and what it has found in it. -/
structure NumberRead (p : Byte) (t : List Byte) (st st' : NumberScan) : Prop where
  word : ∀ c ∈ t, isWord c
  isInt : st'.isInt.toNat = st.isInt.toNat + t.count 105
  isUnsigned : st'.isUnsigned.toNat = st.isUnsigned.toNat + t.count 117
  decimal : st'.decimal.toNat = st.decimal.toNat + t.count 46
  marks : (st.isInt && st.isUnsigned) = false → (st'.isInt && st'.isUnsigned) = false
  scientific : st'.scientific = false → st.scientific = false
  plain : p ≠ 101 ∧ p ≠ 69 → st'.scientific = false → ∀ c ∈ t, isNumeric c ∨ c = 105 ∨ c = 117

theorem NumberRead.nil (p : Byte) (st : NumberScan) : NumberRead p [] st st where
  word := by simp
  isInt := rfl
  isUnsigned := rfl
  decimal := rfl
  marks := id
  scientific := id
  plain := by simp

theorem NumberRead.cons {c : Byte} (h : NumberRead p [c] st st₁)
    (ht : NumberRead c t st₁ st') : NumberRead p (c :: t) st st' where
  word := forall_mem_cons.mpr ⟨h.word _ mem_cons_self, ht.word⟩
  isInt := by rw [ht.isInt, h.isInt, add_assoc, ← count_append]; rfl
  isUnsigned := by rw [ht.isUnsigned, h.isUnsigned, add_assoc, ← count_append]; rfl
  decimal := by rw [ht.decimal, h.decimal, add_assoc, ← count_append]; rfl
  marks := fun hm => ht.marks (h.marks hm)
  scientific := fun hs => h.scientific (ht.scientific hs)
  plain := by
    intro hp hs
    have hc := forall_mem_singleton.mp (h.plain hp (ht.scientific hs))
    refine forall_mem_cons.mpr ⟨hc, ht.plain ?_ hs⟩
    constructor <;> rintro rfl <;> exact absurd hc (by decide)

/-- What a byte of a number does to the state; `p` is the byte before. -/
def NumberStep (p c : Byte) (st st₁ : NumberScan) : Prop :=
  (c = 105 ∧ (st.isInt || st.isUnsigned) = false ∧ st₁ = { st with isInt := true }) ∨
  (c = 117 ∧ (st.isInt || st.isUnsigned) = false ∧ st₁ = { st with isUnsigned := true }) ∨
  (c = 46 ∧ st.decimal = false ∧ st₁ = { st with decimal := true }) ∨
  ((c = 101 ∨ c = 69) ∧ st₁ = { st with scientific := true }) ∨
  ((c = 43 ∨ c = 45) ∧ (p = 101 ∨ p = 69) ∧ st₁ = st) ∨
  (isDigit c ∧ st₁ = st)

/-- **A round of the loop** reads a mark, a point, an exponent, its sign or a digit, or it fails, whatever follows. -/
theorem scanNumberLoop_round (p : Byte) (i : ℕ) (st : NumberScan) (hc : ¬(c = comma ∨ c = space)) :
    (∃ st₁, (∀ y, scanNumberLoop p (c :: y) i st = scanNumberLoop c y (i + 1) st₁) ∧ NumberStep p c st st₁) ∨
    ∀ y, scanNumberLoop p (c :: y) i st = .error errInvalidNumber := by
  by_cases hi : c = 105 ∧ 0 < i ∧ ¬(st.isInt || st.isUnsigned)
  · refine .inl ⟨_, fun y => ?_, .inl ⟨hi.1, by simpa using hi.2.2, rfl⟩⟩
    rw [scanNumberLoop, if_neg hc, if_pos hi]
  by_cases hu : c = 117 ∧ 0 < i ∧ ¬(st.isInt || st.isUnsigned)
  · refine .inl ⟨_, fun y => ?_, .inr (.inl ⟨hu.1, by simpa using hu.2.2, rfl⟩)⟩
    rw [scanNumberLoop, if_neg hc, if_neg hi, if_pos hu]
  by_cases hpoint : c = 46
  · subst hpoint
    cases hd : st.decimal with
    | true =>
      refine .inr fun y => ?_
      rw [scanNumberLoop, if_neg hc, if_neg hi, if_neg hu, if_pos ⟨rfl, hd⟩]
    | false =>
      refine .inl ⟨{ st with decimal := true }, fun y => ?_, .inr (.inr (.inl ⟨rfl, hd, rfl⟩))⟩
      rw [scanNumberLoop, if_neg hc, if_neg hi, if_neg hu, if_neg (by simp [hd])]
      simp only [if_pos]
      rw [if_neg (by simp), if_neg (by simp), if_neg (by simp), if_neg (by decide)]
  have hstart : ∀ y, scanNumberLoop p (c :: y) i st =
      if 0 < i ∧ (c = 101 ∨ c = 69) then scanNumberLoop c y (i + 1) { st with scientific := true }
      else if (c = 43 ∨ c = 45) ∧ (p = 101 ∨ p = 69) then scanNumberLoop c y (i + 1) st
      else if 2 ≤ y.length ∧ (c = 78 ∨ c = 110) then .error errInvalidNumber
      else if ¬isNumeric c then .error errInvalidNumber
      else scanNumberLoop c y (i + 1) st := by
    intro y
    rw [scanNumberLoop, if_neg hc, if_neg hi, if_neg hu, if_neg fun hd => hpoint hd.1]
    simp only [if_neg hpoint]
  by_cases he : 0 < i ∧ (c = 101 ∨ c = 69)
  · refine .inl ⟨_, fun y => ?_, .inr (.inr (.inr (.inl ⟨he.2, rfl⟩)))⟩
    rw [hstart, if_pos he]
  by_cases hsign : (c = 43 ∨ c = 45) ∧ (p = 101 ∨ p = 69)
  · refine .inl ⟨_, fun y => ?_, .inr (.inr (.inr (.inr (.inl ⟨hsign.1, hsign.2, rfl⟩))))⟩
    rw [hstart, if_neg he, if_pos hsign]
  by_cases hnum : isNumeric c
  · have hletter : ¬(c = 78 ∨ c = 110) := by
      rintro (rfl | rfl) <;> exact absurd hnum (by decide)
    refine .inl ⟨st, fun y => ?_, .inr (.inr (.inr (.inr (.inr ⟨?_, rfl⟩))))⟩
    · rw [hstart, if_neg he, if_neg hsign, if_neg fun h => hletter h.2, if_neg (not_not.mpr hnum)]
    · rw [isNumeric, Bool.or_eq_true] at hnum
      exact hnum.resolve_right fun h46 => hpoint (beq_iff_eq.mp h46)
  · refine .inr fun y => ?_
    rw [hstart, if_neg he, if_neg hsign, if_pos hnum, ite_self]

theorem scanNumberLoop_cons {c : Byte} {i m : ℕ} (hc : ¬(c = comma ∨ c = space))
    (h : scanNumberLoop p (c :: x) i st = .ok (m, st')) :
    ∃ st₁, (∀ y, scanNumberLoop p (c :: y) i st = scanNumberLoop c y (i + 1) st₁) ∧ NumberStep p c st st₁ := by
  refine (scanNumberLoop_round p i st hc).resolve_right fun herr => ?_
  rw [herr] at h
  cases h

theorem NumberRead.one {c : Byte} (h : NumberStep p c st st₁) : NumberRead p [c] st st₁ := by
  rcases h with ⟨rfl, hm, rfl⟩ | ⟨rfl, hm, rfl⟩ | ⟨rfl, hd, rfl⟩ | ⟨hc, rfl⟩ | ⟨hc, hp, rfl⟩ | ⟨hc, rfl⟩
  · rw [Bool.or_eq_false_iff] at hm
    constructor <;> simp [hm.1, hm.2, isWord, backslash]
  · rw [Bool.or_eq_false_iff] at hm
    constructor <;> simp [hm.1, hm.2, isWord, backslash]
  · constructor <;> simp [hd, isWord, backslash, isNumeric]
  · rcases hc with rfl | rfl
    · constructor <;> simp [isWord, backslash]
    · constructor <;> simp [isWord, backslash]
  · have hno : p ≠ 101 ∧ p ≠ 69 → False := fun h => hp.elim h.1 h.2
    rcases hc with rfl | rfl
    · constructor <;> simp +contextual [isWord, backslash, hno]
    · constructor <;> simp +contextual [isWord, backslash, hno]
  · have hword : ∀ d, isDigit d → isWord d ∧ d ≠ 105 ∧ d ≠ 117 ∧ d ≠ 46 := by decide
    obtain ⟨hw, h105, h117, h46⟩ := hword c hc
    refine ⟨by simpa using hw, ?_, ?_, ?_, id, id, by simp [isNumeric, hc]⟩
    · rw [count_cons_of_ne h105, count_nil, add_zero]
    · rw [count_cons_of_ne h117, count_nil, add_zero]
    · rw [count_cons_of_ne h46, count_nil, add_zero]

/-- **The loop** stops at the end of the value. -/
theorem scanNumberLoop_ok : ∀ {x : List Byte} {p : Byte} {i m : ℕ} {st st' : NumberScan},
    scanNumberLoop p x i st = .ok (m, st') →
    ∃ t rest, x = t ++ rest ∧ m = i + t.length ∧ AtStop rest ∧ NumberRead p t st st'
  | [], p, i, m, st, st', h => by
    cases h
    exact ⟨[], [], rfl, rfl, by simp [AtStop], .nil p st⟩
  | c :: x, p, i, m, st, st', h => by
    by_cases hstop : c = comma ∨ c = space
    · rw [scanNumberLoop, if_pos hstop] at h
      cases h
      refine ⟨[], c :: x, rfl, rfl, ?_, .nil p st⟩
      intro d hd
      cases hd
      exact hstop
    · obtain ⟨st₁, hrun, hround⟩ := scanNumberLoop_cons hstop h
      rw [hrun] at h
      obtain ⟨t, rest, rfl, rfl, hrest, hread⟩ := scanNumberLoop_ok h
      exact ⟨c :: t, rest, rfl, by rw [length_cons]; omega, hrest, (NumberRead.one hround).cons hread⟩

/-! ## Numbers -/

theorem fieldTypeOf_number {t : List Byte} (hc : isNumeric c ∨ c = 45) : fieldTypeOf (c :: t) =
      if (c :: t).getLast? = some 105 then (.integer, (c :: t).dropLast)
      else if (c :: t).getLast? = some 117 then (.unsigned, (c :: t).dropLast) else (.float, c :: t) := by
  have hfirst : ∀ c, isNumeric c ∨ c = 45 → c ≠ quote ∧ c ∈ ascii "0123456789-.nNiIu" := by
    decide +kernel
  obtain ⟨hq, hmem⟩ := hfirst c hc
  rw [fieldTypeOf, if_neg hq, if_pos hmem]

theorem exists_digits {m : Byte} (hm : m = 105 ∨ m = 117) (hlast : t.getLast? = some m)
    (hmark : t.count 105 + t.count 117 ≤ 1) (hpoint : t.count 46 = 0)
    (hplain : ∀ c ∈ t, isNumeric c ∨ c = 105 ∨ c = 117) : ∃ d, t = d ++ [m] ∧ ∀ c ∈ d, isDigit c := by
  obtain ⟨d, rfl⟩ := getLast?_eq_some_iff.mp hlast
  refine ⟨d, rfl, fun c hc => ?_⟩
  have hone : d.count 105 = 0 ∧ d.count 117 = 0 := by
    rw [count_append, count_append] at hmark
    rcases hm with rfl | rfl
    · have : [(105 : Byte)].count 105 = 1 := rfl
      omega
    · have : [(117 : Byte)].count 117 = 1 := rfl
      omega
  have hzero : d.count 46 = 0 := by
    rw [count_append] at hpoint
    omega
  have hnot : ∀ e, d.count e = 0 → c ≠ e := by
    rintro e he rfl
    exact count_eq_zero.mp he hc
  rcases hplain c (mem_append_left _ hc) with hnum | h105 | h117
  · rw [isNumeric, Bool.or_eq_true] at hnum
    exact hnum.resolve_right fun h => hnot 46 hzero (beq_iff_eq.mp h)
  · exact absurd h105 (hnot _ hone.1)
  · exact absurd h117 (hnot _ hone.2)

theorem getLast?_signed {neg : Bool} {m : Byte} (hm : m ≠ 45)
    (h : (signed neg t).getLast? = some m) : t.getLast? = some m := by
  cases neg with
  | false => exact h
  | true =>
    cases t with
    | nil => exact absurd (Option.some.inj h).symm hm
    | cons c t => exact h

theorem fieldTypeOf_signed {neg : Bool} (hfirst : neg = false → ∃ c t', t = c :: t' ∧ isNumeric c) :
    fieldTypeOf (signed neg t) = if (signed neg t).getLast? = some 105 then (.integer, (signed neg t).dropLast)
      else if (signed neg t).getLast? = some 117 then (.unsigned, (signed neg t).dropLast)
      else (.float, signed neg t) := by
  cases neg with
  | true => exact fieldTypeOf_number (.inr rfl)
  | false =>
    obtain ⟨c, t', rfl, hc⟩ := hfirst rfl
    exact fieldTypeOf_number (.inl hc)

theorem checkParse_ite {α : Type} {r : Except String α} {msg : String → String} {m : ℕ} {P : Prop} [Decidable P]
    (h : (if P then checkParse r msg m else .ok m) = .ok n) : n = m ∧ (P → ∃ a, r = .ok a) := by
  split_ifs at h with hP
  · cases r with
    | error e => cases h
    | ok a => exact ⟨(Except.ok.inj h).symm, fun _ => ⟨a, rfl⟩⟩
  · exact ⟨(Except.ok.inj h).symm, fun hp => absurd hp hP⟩

/-- **What passes the checks**: an integer or an unsigned integer with its mark at the end, or a float; numbers that
are so long that they could be out of range have been parsed. -/
theorem checkNumber_cases {text : List Byte} (h : checkNumber text st = .ok n) :
    n = text.length ∧ 0 < text.length - st.isInt.toNat - st.decimal.toNat - (text.head? == some 45).toNat ∧
      ((st.isInt = true ∧ st.decimal = false ∧ st.scientific = false ∧ text.getLast? = some 105 ∧
          (19 ≤ text.length - 1 → ∃ v, parseInt text.dropLast = .ok v)) ∨
        (st.isInt = false ∧ st.isUnsigned = true ∧ st.decimal = false ∧ st.scientific = false ∧
          text.getLast? = some 117 ∧ text.head? ≠ some 45 ∧
          (20 ≤ text.length - 1 → ∃ v, parseUint text.dropLast = .ok v)) ∨ (st.isInt = false ∧ st.isUnsigned = false ∧
          (st.scientific = true ∨ 25 ≤ text.length → ∃ v, parseFloat text = .ok v))) := by
  rw [checkNumber] at h
  obtain ⟨hmix, h⟩ := passed_of_ite h
  obtain ⟨hdigits, h⟩ := passed_of_ite h
  have hpos := pos_of_ne_zero hdigits
  have hmark : (st.isInt || st.isUnsigned) = true → st.decimal = false ∧ st.scientific = false := by
    intro hm
    rw [hm, Bool.true_and, Bool.not_eq_true, Bool.or_eq_false_iff] at hmix
    exact hmix
  by_cases hint : st.isInt = true
  · rw [if_pos hint] at h
    obtain ⟨hlast, h⟩ := passed_of_ite h
    obtain ⟨hd, hs⟩ := hmark (by rw [hint, Bool.true_or])
    obtain ⟨hn, hparse⟩ := checkParse_ite h
    exact ⟨hn, hpos, .inl ⟨hint, hd, hs, not_not.mp hlast, fun hlen => hparse (.inl hlen)⟩⟩
  rw [if_neg hint] at h
  rw [Bool.not_eq_true] at hint
  by_cases huns : st.isUnsigned = true
  · rw [if_pos huns] at h
    obtain ⟨hlast, h⟩ := passed_of_ite h
    obtain ⟨hneg, h⟩ := passed_of_ite h
    obtain ⟨hd, hs⟩ := hmark (by rw [huns, Bool.or_true])
    obtain ⟨hn, hparse⟩ := checkParse_ite h
    exact ⟨hn, hpos, .inr (.inl ⟨hint, huns, hd, hs, not_not.mp hlast, hneg, hparse⟩)⟩
  rw [if_neg huns] at h
  rw [Bool.not_eq_true] at huns
  obtain ⟨hn, hparse⟩ := checkParse_ite h
  exact ⟨hn, hpos, .inr (.inr ⟨hint, huns, fun hlen => hparse (hlen.imp_right .inl)⟩)⟩

theorem natValue_lt_pow {d : List Byte} {k : ℕ} (hd : ∀ c ∈ d, isDigit c) (hlen : d.length ≤ k) : natValue d < 10 ^ k :=
  (natValue_lt hd).trans_le (Nat.pow_le_pow_right (by omega) hlen)

/-- **A checked number** is read by the accessor of its type: `neg` says that it begins with a minus sign. -/
theorem readable_of_checkNumber (neg : Bool) {t : List Byte} (hp : p ≠ 101 ∧ p ≠ 69)
    (hread : NumberRead p t {} st) (hfirst : neg = false → ∃ c t', t = c :: t' ∧ isNumeric c)
    (h : checkNumber (signed neg t) st = .ok n) : n = (signed neg t).length ∧ Readable (signed neg t) := by
  have htype := fieldTypeOf_signed hfirst
  have hint : st.isInt.toNat = 0 + t.count 105 := hread.isInt
  have huns : st.isUnsigned.toNat = 0 + t.count 117 := hread.isUnsigned
  have hdec : st.decimal.toNat = 0 + t.count 46 := hread.decimal
  have hhead : ((signed neg t).head? == some 45) = neg := by
    cases neg with
    | true => rfl
    | false =>
      obtain ⟨c, t', rfl, hc⟩ := hfirst rfl
      have : ∀ c, isNumeric c → (some c == some 45) = false := by decide
      exact this c hc
  obtain ⟨hn, hpos, hcases⟩ := checkNumber_cases h
  refine ⟨hn, ?_⟩
  rw [hhead, length_signed] at hpos
  rw [length_signed] at hcases
  rcases hcases with ⟨hi, hd, hs, hlast, hparse⟩ | ⟨hi, hu, hd, hs, hlast, hneg, hparse⟩ | ⟨hi, hu, hparse⟩
  · -- an integer: up to 18 digits fit
    have hu : st.isUnsigned = false := by simpa [hi] using hread.marks rfl
    simp only [hi, hu, hd, Bool.toNat_true, Bool.toNat_false, zero_add] at hint huns hdec hpos
    obtain ⟨d, rfl, hdigits⟩ := exists_digits (.inl rfl) (getLast?_signed (by decide) hlast) (by omega) hdec.symm
      (hread.plain hp hs)
    rw [if_pos hlast, signed_append, dropLast_concat, ← signed_append] at htype
    rw [signed_append, dropLast_concat, length_append, length_singleton] at hparse
    rw [length_append, length_singleton] at hpos
    obtain ⟨v, hv⟩ : ∃ v, parseInt (signed neg d) = .ok v := by
      by_cases hlong : 19 ≤ d.length + 1 + neg.toNat - 1
      · exact hparse hlong
      · refine parseInt_signed neg (ne_nil_of_length_pos (by omega)) hdigits ?_
        exact (natValue_lt_pow hdigits (by omega : d.length ≤ 18)).trans (by norm_num)
    exact readable_of_type htype (by decide) fun _ _ _ => ⟨.integer v, by simp only [value, hv, ofParse]⟩
  · -- an unsigned integer: up to 19 digits fit
    have hsign : neg = false := by
      rw [← hhead]
      exact beq_false_of_ne hneg
    subst hsign
    simp only [hi, hu, hd, Bool.toNat_true, Bool.toNat_false, zero_add] at hint huns hdec hpos
    rw [signed_false] at hlast hparse htype ⊢
    obtain ⟨d, rfl, hdigits⟩ := exists_digits (.inr rfl) hlast (by omega) hdec.symm (hread.plain hp hs)
    rw [if_neg (by rw [hlast]; decide), if_pos hlast, dropLast_concat] at htype
    rw [dropLast_concat, length_append, length_singleton] at hparse
    obtain ⟨c, t', hct, hc⟩ := hfirst rfl
    have hne : d ≠ [] := by
      rintro rfl
      cases hct
      exact absurd hc (by decide)
    obtain ⟨v, hv⟩ : ∃ v, parseUint d = .ok v := by
      by_cases hlong : 20 ≤ d.length + 1 + false.toNat - 1
      · exact hparse hlong
      · refine ⟨_, parseUint_digits hne hdigits ?_⟩
        exact (natValue_lt_pow hdigits (by omega : d.length ≤ 19)).trans (by norm_num)
    exact readable_of_type htype (by decide) fun _ _ _ => ⟨.unsigned v, by simp only [value, hv, ofParse]⟩
  · -- a float: there is no mark
    simp only [hi, hu, Bool.toNat_false, zero_add] at hint huns hdec hpos
    have hnot : ∀ m, m ≠ 45 → t.count m = 0 → (signed neg t).getLast? ≠ some m := by
      intro m hm hcount hlast
      exact count_eq_zero.mp hcount (mem_of_getLast? (getLast?_signed hm hlast))
    rw [if_neg (hnot 105 (by decide) hint.symm), if_neg (hnot 117 (by decide) huns.symm)] at htype
    obtain ⟨v, hv⟩ : ∃ v, parseFloat (signed neg t) = .ok v := by
      by_cases hlong : st.scientific = true ∨ 25 ≤ t.length + neg.toNat
      · exact hparse hlong
      · rw [not_or, Bool.not_eq_true] at hlong
        have hplain : ∀ c ∈ t, isNumeric c := by
          intro c hc
          refine (hread.plain hp hlong.1 c hc).resolve_right ?_
          rintro (rfl | rfl)
          · exact count_eq_zero.mp hint.symm hc
          · exact count_eq_zero.mp huns.symm hc
        have hdigit : ∃ c ∈ t, isDigit c := by
          by_contra hno
          have hpoints : t.count 46 = t.length := by
            refine count_eq_length.mpr fun c hc => ?_
            have hcn := hplain c hc
            rw [isNumeric, Bool.or_eq_true] at hcn
            exact (beq_iff_eq.mp (hcn.resolve_left fun hd => hno ⟨c, hc, hd⟩)).symm
          omega
        have hpoint := Bool.toNat_le st.decimal
        exact parseFloat_plain neg hplain (by omega) hdigit (by omega)
    exact readable_of_type htype (by decide) fun _ _ _ => ⟨.float v, by simp only [value, hv, ofParse]⟩

/-- A value without quotes at the front of `x`, of `n` bytes. -/
structure WordValue (x : List Byte) (n : ℕ) (v rest : List Byte) : Prop where
  text : x = v ++ rest
  length : n = v.length
  nonempty : v ≠ []
  stop : AtStop rest
  word : ∀ c ∈ v, isWord c
  readable : Readable v

/-- **`scanNumber`** stops at the end of a number that its accessor reads. -/
theorem scanNumber_ok (hc : isNumeric c ∨ c = 45 ∨ c = 78 ∨ c = 110)
    (h : scanNumber equals (c :: y) = .ok n) : ∃ v rest, WordValue (c :: y) n v rest := by
  rw [scanNumber] at h
  obtain ⟨-, h⟩ := passed_of_ite h
  obtain ⟨⟨m, st⟩, hloop, h⟩ := bind_eq_ok h
  by_cases hneg : c = 45
  · rw [if_pos hneg] at hloop
    subst hneg
    obtain ⟨t, rest, rfl, rfl, hrest, hread⟩ := scanNumberLoop_ok hloop
    have htake : (45 :: (t ++ rest)).take (1 + t.length) = 45 :: t := by
      rw [add_comm, take_succ_cons, take_left]
    rw [htake] at h
    obtain ⟨hn, hreadable⟩ := readable_of_checkNumber true (by decide) hread (by simp) h
    exact ⟨45 :: t, rest, rfl, hn, by simp, hrest, forall_mem_cons.mpr ⟨by decide, hread.word⟩, hreadable⟩
  · rw [if_neg hneg] at hloop
    have hstop : ¬(c = comma ∨ c = space) := by
      rintro (rfl | rfl) <;> exact absurd hc (by decide)
    -- the letters of NaN are let in, and the loop rejects them
    have hnum : isNumeric c := by
      obtain ⟨st₁, -, hround⟩ := scanNumberLoop_cons hstop hloop
      rcases hc with hc | hc | rfl | rfl
      · exact hc
      · exact absurd hc hneg
      · exact absurd hround (by simp [NumberStep, isDigit])
      · exact absurd hround (by simp [NumberStep, isDigit])
    obtain ⟨t, rest, hx, rfl, hrest, hread⟩ := scanNumberLoop_ok hloop
    obtain ⟨t', rfl⟩ : ∃ t', t = c :: t' := by
      cases t with
      | nil =>
        rw [nil_append] at hx
        rw [← hx] at hrest
        exact absurd (hrest c rfl) hstop
      | cons d t' =>
        cases hx
        exact ⟨t', rfl⟩
    have htake : (c :: y).take (0 + (c :: t').length) = c :: t' := by
      rw [hx, zero_add, take_left]
    rw [htake] at h
    obtain ⟨hn, hreadable⟩ := readable_of_checkNumber false (by decide) hread (fun _ => ⟨c, t', rfl, hnum⟩) h
    exact ⟨c :: t', rest, hx, hn, by simp, hrest, hread.word, hreadable⟩

/-! ## Booleans -/

def booleans : List (List Byte) :=
  ["t", "f", "T", "F", "true", "false", "TRUE", "True", "FALSE", "False"].map ascii

theorem boolean_ok : ∀ v ∈ booleans, fieldTypeOf v = (.boolean, v) ∧ v ≠ [] ∧ (∀ c ∈ v, isWord c) ∧
    (parseBool v = .ok true ∨ parseBool v = .ok false) := by
  decide +kernel

theorem readable_boolean (h : v ∈ booleans) : Readable v := by
  obtain ⟨htype, -, -, hparse⟩ := boolean_ok v h
  refine readable_of_type htype (by decide) fun _ _ _ => ?_
  rcases hparse with hparse | hparse
  · exact ⟨.boolean true, by simp only [value, hparse, ofParse]⟩
  · exact ⟨.boolean false, by simp only [value, hparse, ofParse]⟩

theorem mem_booleans (hc : c = 116 ∨ c = 102 ∨ c = 84 ∨ c = 70) :
    [c] ∈ booleans ∧ ∀ v ∈ booleanTexts c, v ∈ booleans := by
  rcases hc with rfl | rfl | rfl | rfl <;> decide +kernel

theorem atStop_dropWhile (y : List Byte) : AtStop (y.dropWhile fun d => !commaOrSpace d) := by
  intro c hc
  have hnot := head?_dropWhile_not (fun d => !commaOrSpace d) y
  rw [hc] at hnot
  have hstop : commaOrSpace c = true := by simpa using hnot
  rw [commaOrSpace, Bool.or_eq_true] at hstop
  exact hstop.imp beq_iff_eq.mp beq_iff_eq.mp

/-- **`scanBoolean`** stops at the end of a boolean that its accessor reads. -/
theorem scanBoolean_ok (h : scanBoolean (c :: y) = .ok n) : ∃ v rest, WordValue (c :: y) n v rest := by
  obtain ⟨w, hw⟩ : ∃ w, w = y.takeWhile fun d => !commaOrSpace d := ⟨_, rfl⟩
  have hy : c :: y = (c :: w) ++ y.dropWhile fun d => !commaOrSpace d := by
    rw [hw, cons_append, takeWhile_append_dropWhile]
  have htake : (c :: y).take (1 + w.length) = c :: w := by
    rw [hy, add_comm, ← length_cons (a := c), take_left]
  rw [scanBoolean] at h
  obtain ⟨hc, h⟩ := passed_of_ite h
  rw [not_not] at hc
  simp only [← hw, htake] at h
  have hmem : n = 1 + w.length ∧ c :: w ∈ booleans := by
    by_cases hone : 1 + w.length = 1
    · rw [if_pos hone] at h
      have hnil : w = [] := eq_nil_of_length_eq_zero (by omega)
      exact ⟨(Except.ok.inj h).symm, by rw [hnil]; exact (mem_booleans hc).1⟩
    · rw [if_neg hone] at h
      obtain ⟨-, h⟩ := passed_of_ite h
      obtain ⟨-, h⟩ := passed_of_ite h
      by_cases htext : c :: w ∈ booleanTexts c
      · rw [if_pos htext] at h
        exact ⟨(Except.ok.inj h).symm, (mem_booleans hc).2 _ htext⟩
      · rw [if_neg htext] at h
        cases h
  obtain ⟨-, hne, hword, -⟩ := boolean_ok _ hmem.2
  refine ⟨c :: w, _, hy, ?_, hne, atStop_dropWhile y, hword, readable_boolean hmem.2⟩
  rw [hmem.1, length_cons, add_comm]

/-- **Behind an `=` sign** `scanFields` steps over a number or a boolean that its accessor reads, or stands at a
quote. -/
theorem scanFieldsValue_cases (h : scanFieldsValue x = .ok n) :
    (n = 0 ∧ ∃ y, x = quote :: y) ∨ (x.head? ≠ some quote ∧ ∃ v rest, WordValue x n v rest) := by
  cases x with
  | nil => cases h
  | cons c y =>
    rw [scanFieldsValue] at h
    obtain ⟨-, h⟩ := passed_of_ite h
    have hquote : ∀ d, isNumeric d ∨ d = 45 ∨ d = 78 ∨ d = 110 → d ≠ quote := by decide
    split_ifs at h with hnum hq
    · exact .inr ⟨fun hq => hquote c hnum (Option.some.inj hq), scanNumber_ok hnum h⟩
    · exact .inr ⟨fun hq' => hq (Option.some.inj hq'), scanBoolean_ok h⟩
    · exact .inl ⟨(Except.ok.inj h).symm, y, by rw [not_not.mp hq]⟩

end Influxdb.Models
