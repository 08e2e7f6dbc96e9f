import Influxdb.Lib.Except
import Influxdb.Models.Points

/-!
# Lines — the lines of an input

`ParsePointsWithPrecision` cuts its input into blocks and parses a line out of each block that is neither blank nor a
comment.  Its answer is that of parsing these lines one after the other.
-/

namespace Influxdb.Models

open List

variable {t : Time} {prec : String} {buf block line : List Byte} {lines : List (List Byte)} {r : List Point × Failed}

/-- The blocks that `ParsePointsWithPrecision` cuts its input into. -/
def blocks : ℕ → List Byte → List (List Byte)
  | 0, _ => []
  | _ + 1, [] => []
  | n + 1, c :: x => (scanLine (c :: x) 0).2 :: blocks n ((c :: x).drop ((scanLine (c :: x) 0).1 + 1))

/-- The line of a block: without the whitespace in front and a newline at the end, none for a blank block or a comment. -/
def pointLine (block : List Byte) : Option (List Byte) :=
  match block.dropWhile isWhitespace with
  | [] => none
  | c :: x =>
    if c = hash then none
    else some (if (c :: x).getLast? = some newline then (c :: x).dropLast else c :: x)

/-- The lines of an input that are parsed. -/
def pointLines (buf : List Byte) : List (List Byte) := (blocks (buf.length + 1) buf).filterMap pointLine

def parseLine (t : Time) (prec : String) (line : List Byte) : Except Fault (List Point × Failed) :=
  match parsePoint line t prec with
  | .ok p => .ok ([p], [])
  | .error (.error msg) => .ok ([], [(line, msg)])
  | .error e => .error e

/-- Lines, one after the other. -/
def parseLines (t : Time) (prec : String) : List (List Byte) → Except Fault (List Point × Failed)
  | [] => .ok ([], [])
  | line :: lines => do
    let (points, failed) ← parseLine t prec line
    let (points', failed') ← parseLines t prec lines
    .ok (points ++ points', failed ++ failed')

theorem skipWhitespace_zero (block : List Byte) : skipWhitespace block 0 = (block.takeWhile isWhitespace).length := by
  rw [skipWhitespace, drop_zero, Nat.zero_add]

theorem parseBlock_eq (block : List Byte) (t : Time) (prec : String) : parseBlock block t prec =
      match pointLine block with
      | none => .ok ([], [])
      | some line => parseLine t prec line := by
  obtain ⟨ws, hws⟩ : ∃ ws, ws = block.takeWhile isWhitespace := ⟨_, rfl⟩
  obtain ⟨x, hx⟩ : ∃ x, x = block.dropWhile isWhitespace := ⟨_, rfl⟩
  have hblock : block = ws ++ x := by rw [hws, hx, takeWhile_append_dropWhile]
  rw [parseBlock, skipWhitespace_zero, pointLine, ← hws, ← hx]
  cases x with
  | nil =>
    rw [if_pos]
    rw [hblock, append_nil]
  | cons c x =>
    have hlt : ¬block.length ≤ ws.length := by
      rw [hblock, length_append, length_cons]
      omega
    have hfirst : index block ws.length = .ok c := by
      rw [index, hblock, getElem?_append_right (Nat.le_refl _), Nat.sub_self]
      rfl
    obtain ⟨y, d, hy⟩ : ∃ y d, c :: x = y ++ [d] :=
      ⟨_, _, (dropLast_append_getLast (cons_ne_nil c x)).symm⟩
    have hlast : index block (block.length - 1) = .ok d := by
      rw [index, hblock, hy, ← append_assoc, length_append, length_singleton, Nat.add_sub_cancel,
        getElem?_append_right (Nat.le_refl _), Nat.sub_self]
      rfl
    have hslice : slice (if d = newline then block.dropLast else block) ws.length
        (if d = newline then block.dropLast else block).length =
        .ok (if (c :: x).getLast? = some newline then (c :: x).dropLast else c :: x) := by
      rw [hblock, hy, getLast?_concat]
      by_cases hd : d = newline
      · rw [if_pos hd, if_pos (congrArg some hd), ← append_assoc, dropLast_concat, dropLast_concat, slice,
          if_pos ⟨by simp, Nat.le_refl _⟩, drop_left, take_of_length_le (by simp)]
      · rw [if_neg hd, if_neg fun h => hd (Option.some.inj h), slice, if_pos ⟨by simp, Nat.le_refl _⟩, drop_left,
          take_of_length_le (by simp)]
    rw [if_neg hlt, hfirst]
    simp only [bind, Except.bind]
    by_cases hhash : c = hash
    · rw [if_pos hhash, if_pos hhash]
    · rw [if_neg hhash, if_neg hhash, hlast]
      simp only [hslice]
      rfl

theorem parsePointsLoop_eq : ∀ {n : ℕ} {buf : List Byte}, buf.length < n →
    parsePointsLoop t prec n buf = parseLines t prec ((blocks n buf).filterMap pointLine)
  | 0, buf, h => by omega
  | n + 1, [], _ => rfl
  | n + 1, c :: x, h => by
    have hlt : ((c :: x).drop ((scanLine (c :: x) 0).1 + 1)).length < n := by
      rw [length_cons] at h
      rw [length_drop, length_cons]
      omega
    have hrec := parsePointsLoop_eq hlt
    rw [parsePointsLoop, blocks, filterMap_cons]
    simp only [parseBlock_eq, hrec]
    cases pointLine (scanLine (c :: x) 0).2 with
    | none =>
      simp only [bind, Except.bind, nil_append]
      split
      · rename_i e he
        rw [he]
      · rename_i r hr
        rw [hr]
    | some line => rfl

/-- **An input is parsed line by line.** -/
theorem parsePointsWithPrecision_eq (buf : List Byte) (t : Time) (prec : String) :
    parsePointsWithPrecision buf t prec = parseLines t prec (pointLines buf) :=
  parsePointsLoop_eq (Nat.lt_succ_self _)

/-- The first line gives a point or an error. -/
theorem parseLines_cons {line : List Byte}
    (h : parseLines t prec (line :: lines) = .ok r) : ∃ r', parseLines t prec lines = .ok r' ∧
      ((∃ p, parsePoint line t prec = .ok p ∧ r = (p :: r'.1, r'.2)) ∨ ∃ msg, r = (r'.1, (line, msg) :: r'.2)) := by
  rw [parseLines] at h
  obtain ⟨⟨ps, fs⟩, hline, h⟩ := bind_eq_ok h
  obtain ⟨r', hlines, h⟩ := bind_eq_ok h
  cases h
  refine ⟨r', hlines, ?_⟩
  rw [parseLine] at hline
  split at hline
  · rename_i p hp
    cases hline
    exact .inl ⟨p, hp, rfl⟩
  · cases hline
    exact .inr ⟨_, rfl⟩
  · cases hline

theorem forall₂_of_parseLines {points : List Point} (h : parseLines t prec lines = .ok (points, [])) :
    List.Forall₂ (fun line p => parsePoint line t prec = .ok p) lines points := by
  induction lines generalizing points with
  | nil =>
    cases h
    exact .nil
  | cons line lines ih =>
    obtain ⟨⟨points', failed⟩, hlines, ⟨p, hp, hr⟩ | ⟨msg, hr⟩⟩ := parseLines_cons h
    · obtain ⟨rfl, rfl⟩ := Prod.mk.inj hr
      exact .cons hp (ih hlines)
    · cases hr

theorem exists_line_of_mem {p : Point}
    (h : parseLines t prec lines = .ok r) (hp : p ∈ r.1) : ∃ line ∈ lines, parsePoint line t prec = .ok p := by
  induction lines generalizing r with
  | nil =>
    cases h
    cases hp
  | cons line lines ih =>
    obtain ⟨r', hlines, hr⟩ := parseLines_cons h
    rw [exists_mem_cons_iff]
    rcases hr with ⟨q, hq, rfl⟩ | ⟨msg, rfl⟩
    · exact (mem_cons.mp hp).imp (fun heq : p = q => heq ▸ hq) (ih hlines)
    · exact .inr (ih hlines hp)

/-! ## The stages of `parsePoint` -/

/-- What `parsePoint` has gone through on its way to a point: the positions behind the key, the fields and the timestamp,
and the timestamp. -/
structure Passed (line : List Byte) (t : Time) (prec : String) (p : Point) (pos pos' pos'' : ℕ) (ts : List Byte) :
    Prop where
  key : scanKey line 0 = .ok (pos, p.key)
  key_ne : p.key ≠ []
  key_le : p.key.length ≤ maxKeyLength
  fields : scanFields line pos = .ok (pos', p.fields)
  fields_ne : p.fields ≠ []
  series : checkSeriesKeys p.key p.fields = .ok ()
  time : scanTime line pos' = .ok (pos'', ts)
  parsed : parseTime line ts pos'' t prec = .ok p.time

/-- **A point** has passed all stages, and what passes them is a point. -/
theorem parsePoint_iff {p : Point} :
    parsePoint line t prec = .ok p ↔ ∃ pos pos' pos'' ts, Passed line t prec p pos pos' pos'' ts := by
  constructor
  · intro h
    rw [parsePoint] at h
    obtain ⟨⟨pos, key⟩, hkey, h⟩ := bind_eq_ok h
    obtain ⟨hkne, h⟩ := passed_of_ite h
    obtain ⟨hkle, h⟩ := passed_of_ite h
    obtain ⟨⟨pos', fields⟩, hfields, h⟩ := bind_eq_ok h
    obtain ⟨hfne, h⟩ := passed_of_ite h
    obtain ⟨⟨⟩, hseries, h⟩ := bind_eq_ok h
    obtain ⟨⟨pos'', ts⟩, htime, h⟩ := bind_eq_ok h
    obtain ⟨time, hparsed, h⟩ := bind_eq_ok h
    cases h
    exact ⟨pos, pos', pos'', ts, hkey, fun hnil => hkne (congrArg length hnil), Nat.le_of_not_lt hkle, hfields,
      fun hnil => hfne (congrArg length hnil), hseries, htime, hparsed⟩
  · rintro ⟨pos, pos', pos'', ts, h⟩
    have hkne : ¬p.key.length = 0 := fun hlen => h.key_ne (length_eq_zero_iff.mp hlen)
    have hfne : ¬p.fields.length = 0 := fun hlen => h.fields_ne (length_eq_zero_iff.mp hlen)
    rw [parsePoint, h.key]
    simp only [bind, Except.bind]
    rw [if_neg hkne, if_neg (Nat.not_lt.mpr h.key_le), h.fields]
    simp only
    rw [if_neg hfne, h.series]
    rw [h.time]
    simp only
    rw [h.parsed]

end Influxdb.Models
