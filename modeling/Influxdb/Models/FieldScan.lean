import Influxdb.Lib.Except
import Influxdb.Models.Points

/-!
# FieldScan — one round of `scanFields`, and its run

A round of `scanFields` either fails, or ends the section, or steps over at least one byte.  Rounds look at no more than
the last two bytes before the position, so that the run does not depend on what stands in front of the section.
-/

namespace Influxdb.Models

open List Except FieldScan

variable {st st' : FieldScan} {x : List Byte} {n : ℕ}

section

variable (st : FieldScan) (n : ℕ)

@[simp] theorem advance_rest : (st.advance n).rest = st.rest.drop n := rfl

@[simp] theorem advance_back : (st.advance n).back = (st.rest.take n).reverse ++ st.back := rfl

@[simp] theorem advance_equals : (st.advance n).equals = st.equals := rfl

@[simp] theorem advance_commas : (st.advance n).commas = st.commas := rfl

@[simp] theorem advance_quoted : (st.advance n).quoted = st.quoted := rfl

end

/-- At an `=` sign: the key is checked, the sign is counted, and the number or boolean behind it is stepped over. -/
theorem scanFieldsEquals_cases (h : scanFieldsEquals st x = .ok st') :
    checkFieldKey st.back = .ok () ∧ ∃ n, scanFieldsValue x = .ok n ∧
      st' = ({ st with equals := st.equals ++ [st.back.length] } : FieldScan).advance (1 + n) := by
  rw [scanFieldsEquals] at h
  obtain ⟨⟨⟩, hcheck, h⟩ := bind_eq_ok h
  obtain ⟨n, hvalue, h⟩ := bind_eq_ok h
  cases h
  exact ⟨hcheck, n, hvalue, rfl⟩

/-- **What a round can do**: step over a pair, a quote, an `=` sign with its number or boolean, a comma, or another
byte. -/
theorem scanFieldsStep_cases (h : scanFieldsStep st = .ok (some st')) : ∃ c y, st.rest = c :: y ∧
      ((c = backslash ∧ y ≠ [] ∧ st' = st.advance 2) ∨ (¬(c = backslash ∧ y ≠ []) ∧
        ((c = quote ∧ st.commas < st.equals.length ∧ st' = ({ st with quoted := !st.quoted } : FieldScan).advance 1) ∨
        (c = equals ∧ st.quoted = false ∧ scanFieldsEquals st y = .ok st') ∨
        (c = comma ∧ st.quoted = false ∧ st' = ({ st with commas := st.commas + 1 } : FieldScan).advance 1) ∨
        (¬(c = quote ∧ st.commas < st.equals.length) ∧
          (st.quoted = false → c ≠ equals ∧ c ≠ comma ∧ c ≠ space) ∧ st' = st.advance 1)))) := by
  rw [scanFieldsStep] at h
  cases hrest : st.rest with
  | nil =>
    rw [hrest] at h
    cases h
  | cons c y =>
    rw [hrest] at h
    refine ⟨c, y, rfl, ?_⟩
    simp only at h
    split_ifs at h with hpair hquote hequals hcomma hspace
    · cases h
      exact .inl ⟨hpair.1, hpair.2, rfl⟩
    · cases h
      exact .inr ⟨hpair, .inl ⟨hquote.1, hquote.2, rfl⟩⟩
    · obtain ⟨st₁, hst₁, h⟩ := bind_eq_ok h
      cases h
      exact .inr ⟨hpair, .inr (.inl ⟨hequals.1, by simpa using hequals.2, hst₁⟩)⟩
    · cases h
      exact .inr ⟨hpair, .inr (.inr (.inl ⟨hcomma.1, by simpa using hcomma.2, rfl⟩))⟩
    · cases h
    · cases h
      refine .inr ⟨hpair, .inr (.inr (.inr ⟨hquote, fun hq => ⟨?_, ?_, ?_⟩, rfl⟩))⟩
      · exact fun hc => hequals ⟨hc, by simp [hq]⟩
      · exact fun hc => hcomma ⟨hc, by simp [hq]⟩
      · exact fun hc => hspace ⟨hc, by simp [hq]⟩

theorem scanFieldsStep_none (h : scanFieldsStep st = .ok none) : ∀ c, st.rest.head? = some c → c = space := by
  rw [scanFieldsStep] at h
  cases hrest : st.rest with
  | nil => nofun
  | cons c y =>
    rw [hrest] at h
    simp only at h
    split_ifs at h with hpair hquote hequals hcomma hspace
    · cases h
    · cases h
    · obtain ⟨st₁, hst₁, h⟩ := bind_eq_ok h
      cases h
    · cases h
    · rintro _ ⟨⟩
      exact hspace.1
    · cases h

theorem scanFieldsStep_lt (h : scanFieldsStep st = .ok (some st')) : st'.rest.length < st.rest.length := by
  obtain ⟨c, y, hrest, hcases⟩ := scanFieldsStep_cases h
  have hadvance : ∀ (s : FieldScan) (k : ℕ), s.rest = st.rest → 0 < k → (s.advance k).rest.length < st.rest.length := by
    intro s k hs hk
    rw [advance_rest, hs, length_drop, hrest, length_cons]
    omega
  rcases hcases with ⟨-, -, rfl⟩ | ⟨-, ⟨-, -, rfl⟩ | ⟨-, -, heq⟩ | ⟨-, -, rfl⟩ | ⟨-, -, rfl⟩⟩
  · exact hadvance st 2 rfl (by omega)
  · exact hadvance _ 1 rfl (by omega)
  · obtain ⟨-, k, -, rfl⟩ := scanFieldsEquals_cases heq
    exact hadvance _ (1 + k) rfl (by omega)
  · exact hadvance _ 1 rfl (by omega)
  · exact hadvance st 1 rfl (by omega)

theorem scanFieldsLoop_succ (n : ℕ) (st : FieldScan) : scanFieldsLoop (n + 1) st =
      match scanFieldsStep st with
      | .error e => .error e
      | .ok none => .ok st
      | .ok (some st') => scanFieldsLoop n st' := by
  rw [scanFieldsLoop]
  cases scanFieldsStep st with
  | error e => rfl
  | ok r => cases r <;> rfl

theorem scanFieldsLoop_fuel {m : ℕ} (hn : st.rest.length < n) (hm : st.rest.length < m) :
    scanFieldsLoop n st = scanFieldsLoop m st := by
  induction n generalizing m st with
  | zero => omega
  | succ n ih =>
    obtain ⟨m, rfl⟩ : ∃ k, m = k + 1 := ⟨m - 1, by omega⟩
    rw [scanFieldsLoop_succ, scanFieldsLoop_succ]
    cases hstep : scanFieldsStep st with
    | error e => rfl
    | ok r =>
      cases r with
      | none => rfl
      | some st' =>
        have hlt := scanFieldsStep_lt hstep
        exact ih (by omega) (by omega)

/-! ## What stands in front does not count -/

variable (b : List Byte)

/-- The same state with other bytes in front. -/
def FieldScan.over (st : FieldScan) : FieldScan :=
  { st with back := st.back ++ b, equals := st.equals.map (· + b.length) }

/-- Bytes in front that do not end in a backslash. -/
def Plain : Prop := ∃ c b', b = c :: b' ∧ c ≠ backslash

@[simp] theorem over_rest (st : FieldScan) : (st.over b).rest = st.rest := rfl

theorem advance_over (st : FieldScan) (n : ℕ) : (st.over b).advance n = (st.advance n).over b := by
  simp [FieldScan.advance, FieldScan.over]

theorem checkFieldKey_over {u : List Byte} (hu : u ≠ []) : ∃ r, ∀ b, Plain b → checkFieldKey (u ++ b) = r := by
  match u, hu with
  | [c], _ =>
    refine ⟨if c = space ∨ c = comma then .error (.error "missing field key") else .ok (), ?_⟩
    rintro b ⟨d, b', rfl, hd⟩
    rw [cons_append, nil_append, checkFieldKey]
    simp only [if_pos hd]
  | c :: d :: u, _ => exact ⟨checkFieldKey (c :: d :: u), fun b _ => rfl⟩

theorem scanFieldsEquals_over (hu : st.back ≠ []) (x : List Byte) :
    ∃ r : Except Fault FieldScan, (∀ s, r = .ok s → s.back ≠ []) ∧
      ∀ b, Plain b → scanFieldsEquals (st.over b) x = r.map (FieldScan.over b) := by
  obtain ⟨r, hr⟩ := checkFieldKey_over hu
  have hback : ∀ b, (st.over b).back = st.back ++ b := fun _ => rfl
  cases r with
  | error e =>
    refine ⟨.error e, by simp, fun b hb => ?_⟩
    rw [scanFieldsEquals, hback, hr b hb]
    rfl
  | ok _ =>
    cases hvalue : scanFieldsValue x with
    | error e =>
      refine ⟨.error e, by simp, fun b hb => ?_⟩
      rw [scanFieldsEquals, hback, hr b hb, hvalue]
      rfl
    | ok n =>
      refine ⟨.ok (({ st with equals := st.equals ++ [st.back.length] } : FieldScan).advance (1 + n)), ?_, fun b hb => ?_⟩
      · intro s hs
        rw [← Except.ok.inj hs, advance_back]
        exact append_ne_nil_of_right_ne_nil _ hu
      · rw [scanFieldsEquals, hback, hr b hb, hvalue]
        simp only [bind, Except.bind, Except.map]
        rw [← advance_over]
        simp [FieldScan.over]

theorem scanFieldsStep_over (hu : st.back ≠ []) :
    ∃ r : Except Fault (Option FieldScan), (∀ s, r = .ok (some s) → s.back ≠ []) ∧
      ∀ b, Plain b → scanFieldsStep (st.over b) = r.map (Option.map (FieldScan.over b)) := by
  have hadvance : ∀ (s : FieldScan) (n : ℕ), s.back ≠ [] → (s.advance n).back ≠ [] := by
    intro s n hs
    rw [advance_back]
    exact append_ne_nil_of_right_ne_nil _ hs
  cases hrest : st.rest with
  | nil =>
    refine ⟨.ok none, by simp, fun b _ => ?_⟩
    rw [scanFieldsStep, over_rest, hrest]
    rfl
  | cons c y =>
    obtain ⟨r, hne, hr⟩ := scanFieldsEquals_over hu y
    refine ⟨if c = backslash ∧ y ≠ [] then .ok (some (st.advance 2))
      else if c = quote ∧ st.commas < st.equals.length then
        .ok (some (({ st with quoted := !st.quoted } : FieldScan).advance 1))
      else if c = equals ∧ ¬st.quoted then r.map some
      else if c = comma ∧ ¬st.quoted then .ok (some (({ st with commas := st.commas + 1 } : FieldScan).advance 1))
      else if c = space ∧ ¬st.quoted then .ok none
      else .ok (some (st.advance 1)), ?_, fun b hb => ?_⟩
    · intro s hs
      split_ifs at hs
      · cases hs
        exact hadvance st 2 hu
      · cases hs
        exact hadvance _ 1 hu
      · cases r with
        | error e => cases hs
        | ok s' =>
          cases hs
          exact hne _ rfl
      · cases hs
        exact hadvance _ 1 hu
      · cases hs
      · cases hs
        exact hadvance st 1 hu
    · have hlen : (st.over b).equals.length = st.equals.length := length_map _
      rw [scanFieldsStep, over_rest, hrest]
      simp only [hlen, hr b hb, show (st.over b).commas = st.commas from rfl,
        show (st.over b).quoted = st.quoted from rfl]
      split_ifs
      · rw [advance_over]
        rfl
      · rfl
      · cases r <;> rfl
      · rfl
      · rfl
      · rw [advance_over]
        rfl

/-- **The run** does not depend on what stands in front. -/
theorem scanFieldsLoop_over (n : ℕ) : ∀ (st : FieldScan), st.back ≠ [] →
    ∃ r : Except Fault FieldScan, ∀ b, Plain b → scanFieldsLoop n (st.over b) = r.map (FieldScan.over b) := by
  induction n with
  | zero => exact fun _ _ => ⟨.error .diverge, fun b _ => rfl⟩
  | succ n ih =>
    intro st hu
    obtain ⟨r, hne, hr⟩ := scanFieldsStep_over hu
    cases r with
    | error e =>
      refine ⟨.error e, fun b hb => ?_⟩
      rw [scanFieldsLoop_succ, hr b hb]
      rfl
    | ok r =>
      cases r with
      | none =>
        refine ⟨.ok st, fun b hb => ?_⟩
        rw [scanFieldsLoop_succ, hr b hb]
        rfl
      | some s =>
        obtain ⟨r', hr'⟩ := ih s (hne s rfl)
        refine ⟨r', fun b hb => ?_⟩
        rw [scanFieldsLoop_succ, hr b hb]
        exact hr' b hb

theorem skipWhitespace_over (pre x : List Byte) (i : ℕ) :
    skipWhitespace (pre ++ x) (pre.length + i) = pre.length + skipWhitespace x i := by
  rw [skipWhitespace, skipWhitespace, ← drop_drop, drop_left, Nat.add_assoc]

theorem slice_over (pre x : List Byte) (i j : ℕ) :
    slice (pre ++ x) (pre.length + i) (pre.length + j) = slice x i j := by
  rw [slice, slice, ← drop_drop, drop_left, length_append, Nat.add_sub_add_left]
  simp only [Nat.add_le_add_iff_left]

theorem scanFields_over (x : List Byte) : ∃ r : Except Fault (ℕ × List Byte), ∀ pre, Plain pre.reverse →
      scanFields (pre ++ space :: x) pre.length = r.map fun q => (pre.length + q.1, q.2) := by
  obtain ⟨k, hk⟩ : ∃ k, k = skipWhitespace (space :: x) 0 := ⟨_, rfl⟩
  have hpos : 0 < k := by
    rw [hk, skipWhitespace, drop_zero, takeWhile_cons_of_pos (by decide), length_cons]
    omega
  have hne : ((space :: x).take k).reverse ≠ [] := by
    obtain ⟨k, rfl⟩ : ∃ j, k = j + 1 := ⟨k - 1, by omega⟩
    simp
  obtain ⟨r, hr⟩ := scanFieldsLoop_over ((space :: x).length + 1)
    ⟨((space :: x).take k).reverse, (space :: x).drop k, [], 0, false⟩ hne
  have hskip : ∀ pre : List Byte, skipWhitespace (pre ++ space :: x) pre.length = pre.length + k := fun pre =>
    hk ▸ skipWhitespace_over pre (space :: x) 0
  have hfrom : ∀ pre, Plain pre.reverse →
      scanFieldsFrom (pre ++ space :: x) (pre.length + k) = r.map (FieldScan.over pre.reverse) := by
    intro pre hpre
    rw [← hr _ hpre, scanFieldsFrom, take_length_add_append, ← drop_drop, drop_left, reverse_append]
    refine scanFieldsLoop_fuel ?_ ?_
    · simp only [length_drop, length_append, length_cons]
      omega
    · simp only [length_drop, length_cons]
      omega
  cases r with
  | error e =>
    refine ⟨.error e, fun pre hpre => ?_⟩
    rw [scanFields]
    simp only [hskip, hfrom pre hpre]
    rfl
  | ok s =>
    refine ⟨if s.quoted then .error (.error "unbalanced quotes")
      else if s.equals.length = 0 ∨ s.commas ≠ s.equals.length - 1 then .error (.error "invalid field format")
      else (slice (space :: x) k s.back.length).map fun fields => (s.back.length, fields), fun pre hpre => ?_⟩
    have hback : (s.over pre.reverse).back.length = pre.length + s.back.length := by
      simp [FieldScan.over, Nat.add_comm]
    have hequals : (s.over pre.reverse).equals.length = s.equals.length := length_map _
    rw [scanFields]
    simp only [hskip, hfrom pre hpre]
    simp only [bind, Except.bind, Except.map, hback, hequals, slice_over,
      show (s.over pre.reverse).quoted = s.quoted from rfl, show (s.over pre.reverse).commas = s.commas from rfl]
    split_ifs
    · rfl
    · rfl
    · cases slice (space :: x) k s.back.length <;> rfl

theorem scanTime_over (pre x : List Byte) (i : ℕ) :
    scanTime (pre ++ x) (pre.length + i) = (scanTime x i).map fun q => (pre.length + q.1, q.2) := by
  rw [scanTime, scanTime, skipWhitespace_over, ← drop_drop, drop_left]
  cases scanTimeLoop (x.drop (skipWhitespace x i)) 0 with
  | error e => rfl
  | ok n =>
    simp only [bind, Except.bind, Nat.add_assoc, slice_over]
    cases slice x (skipWhitespace x i) (skipWhitespace x i + n) <;> rfl

/-- **What follows the key** is parsed alike behind every key section. -/
theorem parsePoint_over (x : List Byte) (t : Time) (prec : String) :
    ∃ F : List Byte → Except Fault Point, ∀ pre key, Plain pre.reverse →
      scanKey (pre ++ space :: x) 0 = .ok (pre.length, key) → parsePoint (pre ++ space :: x) t prec = F key := by
  obtain ⟨r, hr⟩ := scanFields_over x
  refine ⟨fun key =>
    if key.length = 0 then .error (.error "missing measurement")
    else if maxKeyLength < key.length then .error (keyTooLong key.length)
    else r >>= fun q =>
      if q.2.length = 0 then .error (.error "missing fields")
      else checkSeriesKeys key q.2 >>= fun _ => scanTime (space :: x) q.1 >>= fun q' =>
        parseTime (space :: x) q'.2 q'.1 t prec >>= fun time => .ok ⟨key, q.2, time⟩, ?_⟩
  intro pre key hpre hscan
  rw [parsePoint, hscan]
  simp only [bind, Except.bind]
  split_ifs
  · rfl
  · rfl
  · rw [hr pre hpre]
    cases r with
    | error e => rfl
    | ok q =>
      simp only [Except.map]
      split_ifs
      · rfl
      · cases checkSeriesKeys key q.2 with
        | error e => rfl
        | ok _ =>
          simp only [scanTime_over]
          cases scanTime (space :: x) q.1 with
          | error e => rfl
          | ok q' =>
            have htime : parseTime (pre ++ space :: x) q'.2 (pre.length + q'.1) t prec =
                parseTime (space :: x) q'.2 q'.1 t prec := by
              rw [parseTime, parseTime, ← drop_drop, drop_left]
            simp only [Except.map, htime]

end Influxdb.Models
