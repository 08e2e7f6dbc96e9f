import Influxdb.Lib.Bytes
import Mathlib.Data.Nat.Digits.Defs
import Mathlib.Data.Nat.Log
import Mathlib.Tactic.Positivity

/-!
# Strconv — numbers in text, as Go's `strconv` reads them

Integers in base ten with their bounds, booleans, and floating point numbers: a decimal or hexadecimal text stands for
a rational number, which is rounded to the nearest `float64`, ties to even.  Of an error only its kind is kept.
-/

namespace Influxdb.Strconv

open List Nat

variable {b : List Byte}

def errSyntax : String := "invalid syntax"

def errRange : String := "value out of range"

variable (c : Byte)

def isDigit : Bool := decide (48 ≤ c) && decide (c ≤ 57)

def digit : ℕ := c.toNat - 48

/-! ## Integers -/

/-- The loop of `ParseUint` in base ten for 64 bits. -/
def parseUintLoop : List Byte → ℕ → Except String ℕ
  | [], n => .ok n
  | c :: b, n =>
    if isDigit c then
      if n * 10 + digit c < 2 ^ 64 then parseUintLoop b (n * 10 + digit c) else .error errRange
    else .error errSyntax

def parseUint (b : List Byte) : Except String ℕ := if b.length = 0 then .error errSyntax else parseUintLoop b 0

variable (neg : Bool)

/-- The bounds of `ParseInt`, and the sign. -/
def applySign (un : ℕ) : Except String Int :=
  if ¬neg ∧ 2 ^ 63 ≤ un then .error errRange
  else if neg ∧ 2 ^ 63 < un then .error errRange
  else .ok (if neg then -un else un)

def parseInt (b : List Byte) : Except String Int :=
  match b with
  | [] => .error errSyntax
  | c :: rest => parseUint (if c = 43 ∨ c = 45 then rest else b) >>= applySign (decide (c = 45))

/-- The number that digits stand for. -/
def natValue (b : List Byte) : ℕ := b.foldl (fun n c => n * 10 + digit c) 0

theorem digit_le {c : Byte} (h : isDigit c) : digit c ≤ 9 := by
  have hc : c ≤ 57 := by
    rw [isDigit, Bool.and_eq_true] at h
    exact of_decide_eq_true h.2
  rw [BitVec.le_def] at hc
  rw [digit]
  have : (57 : Byte).toNat = 57 := rfl
  omega

theorem natValue_concat (b : List Byte) (c : Byte) : natValue (b ++ [c]) = natValue b * 10 + digit c := by
  rw [natValue, foldl_append]
  rfl

theorem natValue_lt (h : ∀ c ∈ b, isDigit c) : natValue b < 10 ^ b.length := by
  induction b using reverseRecOn with
  | nil => decide
  | append_singleton b c ih =>
    have hb := ih (forall_mem_append.mp h).1
    have hc := digit_le (h c (by simp))
    rw [natValue_concat, length_append, length_singleton, pow_succ]
    omega

theorem parseUintLoop_digits : ∀ {b : List Byte} {n : ℕ}, (∀ c ∈ b, isDigit c) →
    b.foldl (fun n c => n * 10 + digit c) n < 2 ^ 64 → parseUintLoop b n = .ok (b.foldl (fun n c => n * 10 + digit c) n)
  | [], n, _, _ => rfl
  | c :: b, n, h, hn => by
    -- the number only grows with more digits
    have hmono : ∀ (b : List Byte) (m : ℕ), m ≤ b.foldl (fun n c => n * 10 + digit c) m := by
      intro b
      induction b with
      | nil => exact fun m => le_refl m
      | cons d b ih =>
        intro m
        exact le_trans (by omega) (ih (m * 10 + digit d))
    have hfirst := hmono b (n * 10 + digit c)
    rw [foldl_cons] at hn ⊢
    rw [parseUintLoop, if_pos (h c mem_cons_self), if_pos (by omega)]
    exact parseUintLoop_digits (forall_mem_cons.mp h).2 hn

/-- **Digits that fit** are read as their number. -/
theorem parseUint_digits (hne : b ≠ []) (h : ∀ c ∈ b, isDigit c) (hlt : natValue b < 2 ^ 64) :
    parseUint b = .ok (natValue b) := by
  rw [parseUint, if_neg fun hz => hne (length_eq_zero_iff.mp hz)]
  exact parseUintLoop_digits h hlt

theorem applySign_of_lt {n : ℕ} (h : n < 2 ^ 63) : applySign neg n = .ok (if neg then -(n : Int) else n) := by
  rw [applySign, if_neg (by omega), if_neg (by omega)]

theorem parseInt_digits (hne : b ≠ []) (h : ∀ c ∈ b, isDigit c) (hlt : natValue b < 2 ^ 63) :
    parseInt b = .ok (natValue b) := by
  have hparse := parseUint_digits hne h (by omega)
  obtain ⟨c, b', rfl⟩ := exists_cons_of_ne_nil hne
  have hc : ¬(c = 43 ∨ c = 45) := by
    have := h c mem_cons_self
    rintro (rfl | rfl) <;> exact absurd this (by decide)
  rw [parseInt, if_neg hc, hparse, decide_eq_false fun h45 => hc (.inr h45)]
  exact applySign_of_lt false hlt

variable (t : List Byte)

/-- The text behind a minus sign, if it has one. -/
def signed : List Byte := if neg then 45 :: t else t

@[simp] theorem signed_false : signed false t = t := rfl

theorem signed_append (t y : List Byte) : signed neg (t ++ y) = signed neg t ++ y := by
  cases neg <;> rfl

theorem length_signed : (signed neg t).length = t.length + neg.toNat := by
  cases neg <;> rfl

theorem parseInt_signed (hne : b ≠ []) (h : ∀ c ∈ b, isDigit c)
    (hlt : natValue b < 2 ^ 63) : ∃ n, parseInt (signed neg b) = .ok n := by
  cases neg with
  | true =>
    refine ⟨-(natValue b : Int), ?_⟩
    show parseInt (45 :: b) = _
    rw [parseInt, if_pos (.inr rfl), parseUint_digits hne h (by omega), decide_eq_true rfl]
    exact applySign_of_lt true hlt
  | false => exact ⟨_, parseInt_digits hne h hlt⟩

/-! ## Printing integers -/

/-! ## Booleans -/

def ascii (s : String) : List Byte := s.toList.map fun c => BitVec.ofNat 8 c.toNat

def parseBool (b : List Byte) : Except String Bool :=
  if b ∈ ["1", "t", "T", "true", "TRUE", "True"].map ascii then .ok true
  else if b ∈ ["0", "f", "F", "false", "FALSE", "False"].map ascii then .ok false
  else .error errSyntax

/-! ## Floating point numbers -/

/-- The lower case of a letter. -/
def lower : Byte := c ||| 32

/-- The value of a hexadecimal letter. -/
def hexDigit : ℕ := (lower c).toNat - 87

/-- What the loop over the digits of a number has seen. -/
structure Digits where
  mant : ℕ
  /-- The number of digits behind the point. -/
  behind : ℕ
  sawdot : Bool
  sawdigits : Bool
  underscores : Bool

/-- The digits of a number in base 10 or 16, and what follows them. -/
def readDigits (base : ℕ) : List Byte → Digits → Digits × List Byte
  | [], d => (d, [])
  | c :: b, d =>
    let add (v : ℕ) : Digits :=
      { d with mant := d.mant * base + v, behind := if d.sawdot then d.behind + 1 else d.behind, sawdigits := true }
    if c = 95 then readDigits base b { d with underscores := true }
    else if c = 46 then if d.sawdot then (d, c :: b) else readDigits base b { d with sawdot := true }
    else if isDigit c then readDigits base b (add (digit c))
    else if base = 16 ∧ 97 ≤ lower c ∧ lower c ≤ 102 then readDigits base b (add (hexDigit c))
    else (d, c :: b)

/-- The digits of an exponent, which stops growing at 10000, whether there were underscores, and what follows. -/
def readExp : List Byte → ℕ → Bool → ℕ × Bool × List Byte
  | [], e, u => (e, u, [])
  | c :: b, e, u =>
    if c = 95 then readExp b e true
    else if isDigit c then readExp b (if e < 10000 then e * 10 + digit c else e) u
    else (e, u, c :: b)

/-- Whether a number begins with a minus sign. -/
def isNeg (b : List Byte) : Bool := decide (b.head? = some 45)

/-- A number without its sign. -/
def unsigned (b : List Byte) : List Byte := if b.head? = some 43 ∨ b.head? = some 45 then b.drop 1 else b

/-- The last kind of byte that `underscoreOK` has seen. -/
inductive Seen
  | start | digit | underscore | other
deriving DecidableEq

/-- The loop of `underscoreOK`. -/
def underscoreLoop (hex : Bool) : Seen → List Byte → Bool
  | s, [] => decide (s ≠ .underscore)
  | s, c :: b =>
    if isDigit c || (hex && decide (97 ≤ lower c) && decide (lower c ≤ 102)) then underscoreLoop hex .digit b
    else if c = 95 then if s = .digit then underscoreLoop hex .underscore b else false
    else if s = .underscore then false
    else underscoreLoop hex .other b

/-- `underscoreOK`: underscores stand between digits, or between a prefix and a digit. -/
def underscoreOK (b : List Byte) : Bool :=
  let b := unsigned b
  let prefixed := decide (2 ≤ b.length) && decide (b.head? = some 48) &&
    decide ((b[1]?.map lower) ∈ [some 98, some 111, some 120])
  let hex := prefixed && decide (b[1]?.map lower = some 120)
  if prefixed then underscoreLoop hex .digit (b.drop 2) else underscoreLoop hex .start b

/-- A number that has been read: the sign, the digits, and the exponents of ten and of two that they are scaled by. -/
structure Parsed where
  neg : Bool
  mant : ℕ
  exp10 : Int
  exp2 : Int

/-- The exponent behind the digits, if there is one, and what follows it. -/
def readExponent (expChar : Byte) (b : List Byte) : Option (Option Int × Bool × List Byte) :=
  match b with
  | [] => some (none, false, [])
  | c :: rest =>
    if lower c = expChar then
      if ((unsigned rest).head?.map isDigit).getD false then
        let (e, u, rest') := readExp (unsigned rest) 0 false
        some (some (if isNeg rest then -e else e), u, rest')
      else none
    else some (none, false, c :: rest)

def readFloat (b : List Byte) : Option Parsed := do
  let body := unsigned b
  let hex := decide (2 < body.length) && decide (body.head? = some 48) && decide (body[1]?.map lower = some 120)
  let (d, rest) := readDigits (if hex then 16 else 10) (if hex then body.drop 2 else body) ⟨0, 0, false, false, false⟩
  if d.sawdigits then
    let (e, u, rest) ← readExponent (if hex then 112 else 101) rest
    if (hex && e.isNone) || ((d.underscores || u) && !underscoreOK b) || !rest.isEmpty then none
    else if hex then some ⟨isNeg b, d.mant, 0, e.getD 0 - 4 * d.behind⟩
    else some ⟨isNeg b, d.mant, e.getD 0 - d.behind, 0⟩
  else none

/-- Infinity and not a number, with their signs. -/
def special (b : List Byte) : Option Word :=
  let body := (unsigned b).map lower
  if body = ascii "inf" ∨ body = ascii "infinity" then
    some (if isNeg b then 0xFFF0000000000000 else 0x7FF0000000000000)
  else if b.map lower = ascii "nan" then some 0x7FF8000000000001
  else none

variable (num den : ℕ)

/-- The nearest integer to `num / den`, ties to even. -/
def roundEven : ℕ :=
  let q := num / den
  let r := num % den
  if 2 * r < den then q else if den < 2 * r then q + 1 else if q % 2 = 0 then q else q + 1

/-- The bits of the `float64` nearest to `num / den`, without a sign; from those of infinity on the number is too great.
The quotient is scaled by the least positive `float64`, and cut to 53 bits. -/
def roundFloat : ℕ :=
  let shift := (num * 2 ^ 1074 / den).log2 - 52
  shift * 2 ^ 52 + roundEven (num * 2 ^ 1074) (den * 2 ^ shift)

/-- `ParseFloat(s, 64)`: the bits of the result. -/
def parseFloat (b : List Byte) : Except String Word :=
  match special b with
  | some v => .ok v
  | none =>
    match readFloat b with
    | none => .error errSyntax
    | some p =>
      let num := p.mant * 10 ^ p.exp10.toNat * 2 ^ p.exp2.toNat
      let den := 10 ^ (-p.exp10).toNat * 2 ^ (-p.exp2).toNat
      let bits := roundFloat num den
      if 0x7FF0000000000000 ≤ bits then .error errRange
      else .ok (BitVec.ofNat 64 (if p.neg then bits + 2 ^ 63 else bits))

/-! ## Numbers in plain notation -/

def isPlain : Bool := isDigit c || c == 46

theorem readDigits_plain : ∀ {b : List Byte} {d : Digits}, (∀ c ∈ b, isPlain c) →
    b.count 46 + d.sawdot.toNat ≤ 1 → ∃ d', readDigits 10 b d = (d', []) ∧
      d'.mant < (d.mant + 1) * 10 ^ b.length ∧ d'.underscores = d.underscores ∧
      (d'.sawdigits = true ↔ d.sawdigits = true ∨ ∃ c ∈ b, isDigit c)
  | [], d, _, _ => ⟨d, rfl, by simp, rfl, by simp⟩
  | c :: b, d, h, hdot => by
    have hb : ∀ c ∈ b, isPlain c := (forall_mem_cons.mp h).2
    have hc := h c mem_cons_self
    have hunder : c ≠ 95 := by
      rintro rfl
      exact absurd hc (by decide)
    rw [readDigits, if_neg hunder]
    by_cases hpoint : c = 46
    · subst hpoint
      rw [count_cons_self] at hdot
      have hsaw : d.sawdot = false := by
        cases hd : d.sawdot with
        | true =>
          rw [hd] at hdot
          simp at hdot
        | false => rfl
      obtain ⟨d', hread, hlt, hu, hsd⟩ := readDigits_plain (d := { d with sawdot := true }) hb
        (show b.count 46 + 1 ≤ 1 by omega)
      refine ⟨d', ?_, ?_, hu, ?_⟩
      · rw [if_pos rfl, hsaw]
        exact hread
      · rw [length_cons, pow_succ]
        have hpos : 0 < (d.mant + 1) * 10 ^ b.length := by positivity
        nlinarith
      · rw [hsd, exists_mem_cons_iff, or_iff_right (by decide : ¬isDigit 46)]
    · have hdigit : isDigit c := by
        rw [isPlain, Bool.or_eq_true] at hc
        exact hc.resolve_right fun h46 => hpoint (beq_iff_eq.mp h46)
      rw [count_cons_of_ne hpoint] at hdot
      rw [if_neg hpoint, if_pos hdigit]
      obtain ⟨d', hread, hlt, hu, hsd⟩ := readDigits_plain
        (d := { d with mant := d.mant * 10 + digit c, behind := if d.sawdot then d.behind + 1 else d.behind,
                       sawdigits := true }) hb hdot
      refine ⟨d', hread, ?_, hu, ?_⟩
      · have hd := digit_le hdigit
        rw [length_cons, pow_succ]
        refine hlt.trans_le ?_
        have : d.mant * 10 + digit c + 1 ≤ (d.mant + 1) * 10 := by omega
        calc (d.mant * 10 + digit c + 1) * 10 ^ b.length ≤ (d.mant + 1) * 10 * 10 ^ b.length :=
              mul_le_mul_right _ this
          _ = (d.mant + 1) * (10 ^ b.length * 10) := by ring
      · rw [hsd]
        exact ⟨fun _ => .inr ⟨c, mem_cons_self, hdigit⟩, fun _ => .inl rfl⟩

/-! ## Rounding -/

theorem roundEven_le : roundEven num den ≤ num / den + 1 := by
  unfold roundEven
  dsimp only
  split_ifs <;> omega

theorem roundFloat_lt {num den : ℕ} (hden : 0 < den) (h : num < den * 2 ^ 100) :
    roundFloat num den < 0x7FF0000000000000 := by
  obtain ⟨q, hq⟩ : ∃ q, q = num * 2 ^ 1074 / den := ⟨_, rfl⟩
  have hlog : q.log2 < 100 + 1074 := by
    rcases Nat.eq_zero_or_pos q with rfl | hpos
    · exact succ_pos _
    · refine (log2_lt hpos.ne').mpr ?_
      rw [hq, div_lt_iff_lt_mul hden]
      calc num * 2 ^ 1074 < den * 2 ^ 100 * 2 ^ 1074 := mul_lt_mul_of_pos_right h (by positivity)
        _ = den * 2 ^ (100 + 1074) := by rw [mul_assoc, pow_add 2 100 1074]
        _ = 2 ^ (100 + 1074) * den := mul_comm _ _
  have hm : roundEven (num * 2 ^ 1074) (den * 2 ^ (q.log2 - 52)) ≤ 2 ^ 53 := by
    refine (roundEven_le _ _).trans ?_
    rw [← Nat.div_div_eq_div_mul, ← hq, add_one_le_iff, div_lt_iff_lt_mul (by positivity), ← pow_add]
    exact lt_log2_self.trans_le (Nat.pow_le_pow_right (by omega) (by omega))
  rw [roundFloat]
  simp only [← hq]
  omega

theorem lower_plain : ∀ {c : Byte}, isPlain c → lower c < 97 ∧ c ≠ 43 ∧ c ≠ 45 := by
  decide

theorem unsigned_plain {c : Byte} (neg : Bool) (h : isPlain c) :
    unsigned (signed neg (c :: b)) = c :: b ∧ isNeg (signed neg (c :: b)) = neg := by
  obtain ⟨-, h43, h45⟩ := lower_plain h
  cases neg with
  | true => exact ⟨rfl, rfl⟩
  | false =>
    constructor
    · exact if_neg fun hsign => hsign.elim (fun h => h43 (Option.some.inj h)) fun h => h45 (Option.some.inj h)
    · exact decide_eq_false fun h => h45 (Option.some.inj h)

theorem special_plain {c : Byte} (neg : Bool) (h : isPlain c) : special (signed neg (c :: b)) = none := by
  have hfirst : ∀ {c d : Byte} {b w : List Byte}, lower c < 97 → 97 ≤ d → (c :: b).map lower ≠ d :: w := by
    intro c d b w hlow hd heq
    rw [map_cons, cons.injEq] at heq
    rw [heq.1] at hlow
    exact absurd hlow (by rw [BitVec.not_lt]; exact hd)
  have hlow := (lower_plain h).1
  rw [special, (unsigned_plain neg h).1, if_neg, if_neg]
  · cases neg with
    | true => exact hfirst (by decide) (by decide)
    | false => exact hfirst hlow (by decide)
  · rintro (h | h)
    · exact hfirst hlow (by decide) h
    · exact hfirst hlow (by decide) h

theorem readFloat_of_readDigits {d : Digits} (neg : Bool) (h : ∀ c ∈ b, isPlain c) (hne : b ≠ [])
    (hread : readDigits 10 b ⟨0, 0, false, false, false⟩ = (d, [])) (hsaw : d.sawdigits = true)
    (hu : d.underscores = false) : readFloat (signed neg b) = some ⟨neg, d.mant, -d.behind, 0⟩ := by
  have hx : b[1]?.map lower ≠ some 120 := by
    intro heq
    obtain ⟨c, hc, hlow⟩ := Option.map_eq_some_iff.mp heq
    have := (lower_plain (h c (mem_of_getElem? hc))).1
    rw [hlow] at this
    exact absurd this (by decide)
  obtain ⟨c, b', rfl⟩ := exists_cons_of_ne_nil hne
  obtain ⟨hbody, hneg⟩ := unsigned_plain (b := b') neg (h c mem_cons_self)
  rw [readFloat, hbody, hneg, decide_eq_false hx]
  simp [hread, hsaw, hu, readExponent]

theorem readFloat_plain (h : ∀ c ∈ b, isPlain c) (hdot : b.count 46 ≤ 1)
    (hdigit : ∃ c ∈ b, isDigit c) : ∃ mant behind : ℕ, mant < 10 ^ b.length ∧
      readFloat (signed neg b) = some ⟨neg, mant, -behind, 0⟩ := by
  obtain ⟨d, hread, hlt, hu, hsaw⟩ := readDigits_plain (d := ⟨0, 0, false, false, false⟩) h
    (show b.count 46 + 0 ≤ 1 from hdot)
  have hne : b ≠ [] := by
    obtain ⟨e, he, -⟩ := hdigit
    exact ne_nil_of_mem he
  exact ⟨d.mant, d.behind, by simpa using hlt, readFloat_of_readDigits neg h hne hread (hsaw.mpr (.inr hdigit)) hu⟩

/-- **A plain number** of fewer than 25 bytes is read. -/
theorem parseFloat_plain (h : ∀ c ∈ b, isPlain c) (hdot : b.count 46 ≤ 1)
    (hdigit : ∃ c ∈ b, isDigit c) (hlen : b.length < 25) : ∃ v, parseFloat (signed neg b) = .ok v := by
  obtain ⟨mant, behind, hlt, hread⟩ := readFloat_plain neg h hdot hdigit
  have hmant : mant < 2 ^ 100 := hlt.trans_le ((Nat.pow_le_pow_right (by omega) hlen.le).trans (by norm_num))
  have hbits : roundFloat mant (10 ^ behind) < 0x7FF0000000000000 := roundFloat_lt (by positivity)
    (hmant.trans_le (Nat.le_mul_of_pos_left _ (by positivity)))
  obtain ⟨e, he, -⟩ := hdigit
  obtain ⟨c, b', rfl⟩ := exists_cons_of_ne_nil (ne_nil_of_mem he)
  rw [parseFloat, special_plain neg (h c mem_cons_self), hread]
  simp [not_le.mpr hbits]

end Influxdb.Strconv
