import Influxdb.Models.NoPanic

/-!
# LineCut — when a line ends at its newline

`scanLine` keeps a state of its own: it steps over the byte behind a backslash, and looks for newlines only outside of
what it takes for quotes.  A newline behind a line is seen exactly if the line leaves this state closed.
-/

namespace Influxdb.Models

open List Strconv

variable {t : Time} {prec : String} {st st' : LineScan} {c : Byte} {n : ℕ} {x y cur : List Byte}

/-! ## The blocks of an input, byte by byte -/

/-- The blocks of an input: `cur` are the bytes of the block so far, the last one first. -/
def cut : LineScan → List Byte → List Byte → List (List Byte)
  | _, cur, [] => if cur = [] then [] else [cur.reverse]
  | st, cur, c :: x =>
    match scanLineStep st c x.length with
    | none => cur.reverse :: cut {} [] x
    | some st => cut st (c :: cur) x

theorem cut_eq {x : List Byte} : ∀ st cur, cur ++ x ≠ [] →
    cut st cur x = (cur.reverse ++ x.take (lineLen st x)) :: cut {} [] (x.drop (lineLen st x + 1)) := by
  induction x with
  | nil =>
    intro st cur hne
    rw [append_nil] at hne
    simp [cut, hne]
  | cons c x ih =>
    intro st cur _
    rw [cut, lineLen]
    cases hstep : scanLineStep st c x.length with
    | none => simp
    | some st' => simp [ih st' (c :: cur) (cons_ne_nil _ _)]

theorem blocks_eq : ∀ {n : ℕ} {buf : List Byte}, buf.length < n → blocks n buf = cut {} [] buf
  | 0, buf, h => by omega
  | n + 1, [], _ => rfl
  | n + 1, c :: x, h => by
    have hrec : blocks n ((c :: x).drop (lineLen {} (c :: x) + 1)) = cut {} [] ((c :: x).drop (lineLen {} (c :: x) + 1)) := by
      refine blocks_eq ?_
      rw [length_cons] at h
      rw [length_drop, length_cons]
      omega
    rw [cut_eq {} [] (cons_ne_nil c x), blocks]
    simp only [scanLine, drop_zero, Nat.zero_add, hrec, reverse_nil, nil_append]

theorem pointLines_eq (buf : List Byte) : pointLines buf = (cut {} [] buf).filterMap pointLine := by
  rw [pointLines, blocks_eq (Nat.lt_succ_self _)]

/-! ## A line with more input behind it -/

/-- What has been read with more input behind it: the blocks, the bytes of the last one, and the state. -/
structure Cut where
  init : List (List Byte)
  last : List Byte
  state : LineScan

/-- The blocks of an input that goes on: a backslash always takes the byte behind it along. -/
def cutOpen : LineScan → List Byte → List Byte → Cut
  | st, cur, [] => ⟨[], cur.reverse, st⟩
  | st, cur, c :: x =>
    match scanLineStep st c 2 with
    | none =>
      let r := cutOpen {} [] x
      { r with init := cur.reverse :: r.init }
    | some st => cutOpen st (c :: cur) x

/-! ## Closed lines -/

/-- Where the text of a line stands: before its first space, behind it and outside of strings, or in a string.  The
number is how many more equals signs than commas there have been outside of strings. -/
inductive Place where
  | key
  | fields (values : ℤ)
  | string (values : ℤ)

/-- The place behind a byte that is not escaped.  A quote opens a string only where a value can stand. -/
def Place.next : Place → Byte → Place
  | .key, c => if c = space then .fields 0 else .key
  | .fields d, c =>
    if c = newline then .key
    else if c = equals then .fields (d + 1)
    else if c = comma then .fields (d - 1)
    else if c = quote ∧ 0 < d then .string d
    else .fields d
  | .string d, c => if c = quote then .fields d else .string d

def Place.outside : Place → Bool
  | .string _ => false
  | _ => true

/-- The text ends outside of strings, and not with a backslash that waits for a byte. -/
def Place.closed : Place → List Byte → Bool
  | p, [] => p.outside
  | p, [c] => c ≠ backslash && (p.next c).outside
  | p, c :: d :: x => if c = backslash then p.closed x else (p.next c).closed (d :: x)

/-- **A line that ends at its newline.** -/
def LineClosed (line : List Byte) : Prop := Place.key.closed line = true

instance (line : List Byte) : Decidable (LineClosed line) := inferInstanceAs (Decidable (_ = true))

def LineScan.place (st : LineScan) : Place :=
  if st.fields = false then .key
  else if st.quoted then .string (st.equals - st.commas)
  else .fields (st.equals - st.commas)

theorem scanLineStep_eq (h : c ≠ backslash ∨ st.skip = true ∨ 2 ≤ n) : scanLineStep st c n = scanLineStep st c 2 := by
  rw [scanLineStep, scanLineStep]
  rcases h with h | h | h
  · simp [h]
  · simp [h]
  · simp [h]

theorem scanLineStep_backslash (h : st.skip = false) (hn : 2 ≤ n) :
    scanLineStep st backslash n = some { st with skip := true } := by
  rw [scanLineStep, if_neg (by simp [h]), if_pos ⟨rfl, hn⟩]

theorem scanLineStep_backslash_end (h : st.skip = false) (hn : n < 2) : scanLineStep st backslash n = some st := by
  rw [scanLineStep, if_neg (by simp [h]), if_neg (by omega)]
  simp [backslash]

theorem scanLineStep_newline (h : st.skip = false) (n : ℕ) :
    scanLineStep st newline n = if st.quoted then some st else none := by
  rw [scanLineStep, if_neg (by simp [h]), if_neg (by simp [backslash])]
  cases hq : st.quoted <;> simp [hq]

theorem scanLineStep_none (h : scanLineStep st c n = none) : c = newline := by
  rw [scanLineStep] at h
  by_contra hc
  simp only [hc, false_and, if_false] at h
  split_ifs at h

/-- What holds of the state at a byte that is not escaped. -/
structure LineScan.Sound (st : LineScan) : Prop where
  skip : st.skip = false
  start : st.fields = false → st.quoted = false ∧ st.equals = 0 ∧ st.commas = 0
  quoted : st.quoted = true → st.commas < st.equals

theorem step_sound (h : st.Sound) (hc : c ≠ backslash) :
    ((scanLineStep st c 2).getD {}).Sound ∧ ((scanLineStep st c 2).getD {}).place = st.place.next c := by
  obtain ⟨skip, quoted, fields, e, k⟩ := st
  obtain ⟨rfl, hstart, hquoted⟩ := h
  cases fields with
  | false =>
    obtain ⟨rfl, rfl, rfl⟩ := hstart rfl
    grind [scanLineStep, LineScan.place, Place.next, LineScan.Sound]
  | true =>
    -- in a string the commas and equals signs do not count, so the quote that closes it is seen
    simp only [scanLineStep, hc, false_and, if_false, Bool.false_eq_true, ite_self, true_and]
    grind [LineScan.place, Place.next, LineScan.Sound]

theorem cutOpen_cons_state (st : LineScan) (c : Byte) (x cur : List Byte) :
    ∃ cur', (cutOpen st cur (c :: x)).state = (cutOpen ((scanLineStep st c 2).getD {}) cur' x).state := by
  rw [cutOpen]
  cases scanLineStep st c 2 with
  | none => exact ⟨[], rfl⟩
  | some st' => exact ⟨c :: cur, rfl⟩

/-- **`scanLine`'s state at the end of an input** is open exactly if the input is. -/
theorem cutOpen_closed_iff : ∀ {x : List Byte} {st : LineScan} {cur : List Byte}, st.Sound →
    ((cutOpen st cur x).state.skip = false ∧ (cutOpen st cur x).state.quoted = false ↔ st.place.closed x = true)
  | [], st, cur, h => by
    rw [cutOpen, LineScan.place]
    have hstart := h.start
    have hskip := h.skip
    cases hf : st.fields <;> cases hq : st.quoted <;> simp_all [Place.closed, Place.outside]
  | c :: x, st, cur, h => by
    obtain ⟨cur', hstate⟩ := cutOpen_cons_state st c x cur
    rw [hstate]
    by_cases hc : c = backslash
    · subst hc
      rw [scanLineStep_backslash h.skip (Nat.le_refl 2), Option.getD_some]
      cases x with
      | nil => simp [cutOpen, Place.closed]
      | cons d x =>
        -- the byte behind the backslash is stepped over
        obtain ⟨cur'', hstate⟩ := cutOpen_cons_state { st with skip := true } d x cur'
        have hback : scanLineStep { st with skip := true } d 2 = some st := by
          rw [scanLineStep, if_pos rfl, ← h.skip]
        rw [hstate, hback, Option.getD_some, Place.closed, if_pos rfl]
        exact cutOpen_closed_iff h
    · rw [cutOpen_closed_iff (step_sound h hc).1, (step_sound h hc).2]
      cases x with
      | nil => simp only [Place.closed, ne_eq, hc, not_false_eq_true, decide_true, Bool.true_and]
      | cons d x => rw [Place.closed, if_neg hc]

theorem lineClosed_iff : LineClosed x ↔
    (cutOpen {} [] x).state.skip = false ∧ (cutOpen {} [] x).state.quoted = false :=
  (@cutOpen_closed_iff x {} [] ⟨rfl, by decide, by decide⟩).symm

theorem cut_of_not_mem (hx : newline ∉ x) : ∀ st {cur : List Byte}, cur ≠ [] → cut st cur x = [cur.reverse ++ x] := by
  induction x with
  | nil =>
    intro st cur hne
    rw [cut, if_neg hne, append_nil]
  | cons c x ih =>
    intro st cur _
    rw [mem_cons, not_or] at hx
    rw [cut]
    cases hstep : scanLineStep st c x.length with
    | none => exact absurd (scanLineStep_none hstep).symm hx.1
    | some st' =>
      simp only
      rw [ih hx.2 st' (cons_ne_nil c cur)]
      simp

/-- **An input with a newline behind it**: the cut goes on from the state at the end of the input. -/
theorem cut_append_newline : ∀ {x : List Byte} {st : LineScan} {cur : List Byte},
    (cutOpen st cur x).state.skip = false ∨ y ≠ [] → cut st cur (x ++ newline :: y) =
      (cutOpen st cur x).init ++ cut (cutOpen st cur x).state (cutOpen st cur x).last.reverse (newline :: y)
  | [], st, cur, _ => by simp [cutOpen]
  | c :: x, st, cur, h => by
    have hstep : scanLineStep st c (x ++ newline :: y).length = scanLineStep st c 2 := by
      by_cases hc : c ≠ backslash ∨ st.skip = true
      · exact scanLineStep_eq (hc.imp_right .inl)
      rw [not_or, not_not, Bool.not_eq_true] at hc
      obtain ⟨rfl, hs⟩ := hc
      refine scanLineStep_eq (.inr (.inr ?_))
      simp only [length_append, length_cons]
      cases x with
      | nil =>
        -- a backslash at the end leaves the line open
        rw [cutOpen, scanLineStep_backslash hs (Nat.le_refl 2)] at h
        have := length_pos_of_ne_nil (h.resolve_left (by simp [cutOpen]))
        omega
      | cons d x =>
        rw [length_cons]
        omega
    rw [cons_append, cut, hstep, cutOpen]
    rw [cutOpen] at h
    cases hnext : scanLineStep st c 2 with
    | none =>
      rw [hnext] at h
      rw [cut_append_newline h]
      rfl
    | some st' =>
      rw [hnext] at h
      exact cut_append_newline h

/-- **An open line** swallows the line behind it. -/
theorem cut_append_open (hy : y ≠ []) (hnl : newline ∉ y)
    (hopen : (cutOpen st cur x).state.skip = true ∨ (cutOpen st cur x).state.quoted = true) :
    cut st cur (x ++ newline :: y) = (cutOpen st cur x).init ++ [(cutOpen st cur x).last ++ newline :: y] := by
  obtain ⟨st', hst'⟩ : ∃ st', scanLineStep (cutOpen st cur x).state newline y.length = some st' := by
    by_cases hs : (cutOpen st cur x).state.skip = true
    · exact ⟨_, if_pos hs⟩
    · rw [Bool.not_eq_true] at hs
      rw [scanLineStep_newline hs, if_pos (hopen.resolve_left (by simp [hs]))]
      exact ⟨_, rfl⟩
  rw [cut_append_newline (.inr hy), cut, hst']
  simp only
  rw [cut_of_not_mem hnl st' (cons_ne_nil newline _)]
  simp

theorem pointLine_newline (w : List Byte) : pointLine (w ++ [backslash, newline]) = pointLine (w ++ [backslash]) := by
  have hsplit : w ++ [backslash, newline] = (w ++ [backslash]) ++ [newline] := by simp
  have hlast : ((w ++ [backslash]).dropWhile isWhitespace).getLast? = some backslash := by
    rw [dropWhile_append]
    split_ifs
    · rfl
    · exact getLast?_concat
  rw [hsplit, pointLine, pointLine, dropWhile_append]
  cases hx : (w ++ [backslash]).dropWhile isWhitespace with
  | nil => simp [hx] at hlast
  | cons c x =>
    rw [hx] at hlast
    simp only [isEmpty_cons, Bool.false_eq_true, if_false, cons_append]
    rw [← cons_append, getLast?_concat, dropLast_concat, hlast, if_pos rfl,
      if_neg (show ¬ some backslash = some newline by decide)]

theorem filterMap_cut : ∀ x st cur, (cut st cur x).filterMap pointLine =
      ((cutOpen st cur x).init ++ [(cutOpen st cur x).last]).filterMap pointLine
  | [], st, cur => by
    rw [cut, cutOpen]
    split_ifs with hcur
    · subst hcur
      rfl
    · rfl
  | c :: x, st, cur => by
    by_cases hc : (c ≠ backslash ∨ st.skip = true) ∨ 2 ≤ x.length
    · rw [cut, scanLineStep_eq (or_assoc.mp hc), cutOpen]
      cases hstep : scanLineStep st c 2 with
      | none =>
        rw [filterMap_cons, cons_append, filterMap_cons, filterMap_cut x {} []]
      | some st' => exact filterMap_cut x st' (c :: cur)
    · rw [not_or, not_or, not_not, Bool.not_eq_true] at hc
      obtain ⟨⟨rfl, hs⟩, hlen⟩ := hc
      rw [cut, scanLineStep_backslash_end hs (by omega), cutOpen, scanLineStep_backslash hs (Nat.le_refl 2)]
      match x, hlen with
      | [], _ => simp [cut, cutOpen]
      | [d], _ =>
        simp only
        have hskip : scanLineStep { st with skip := true } d 2 = some { st with skip := false } := rfl
        rw [cut, cutOpen, hskip]
        simp only [cutOpen]
        cases hstep : scanLineStep st d [].length with
        | none =>
          obtain rfl := scanLineStep_none hstep
          have hrev : (newline :: backslash :: cur).reverse = cur.reverse ++ [backslash, newline] := by simp
          rw [hrev, nil_append, filterMap_cons, filterMap_cons, pointLine_newline, ← reverse_cons]
          rfl
        | some st' => simp [cut]
      | d :: e :: x, hlen => simp at hlen

/-! ## Parsing lines -/

theorem pointLines_append_of_closed (h : LineClosed x) (y : List Byte) :
    pointLines (x ++ newline :: y) = pointLines x ++ pointLines y := by
  rw [lineClosed_iff] at h
  rw [pointLines_eq, pointLines_eq, pointLines_eq, cut_append_newline (.inl h.1), cut, scanLineStep_newline h.1,
    if_neg (by simp [h.2])]
  simp only [reverse_reverse]
  rw [filterMap_cut, filterMap_append, filterMap_append, filterMap_cons, filterMap_cons, append_assoc]
  cases pointLine (cutOpen {} [] x).last <;> rfl

theorem scanLineStep_whitespace (hc : isWhitespace c) (hs : st.skip = false) (h : scanLineStep st c n = some st') :
    st'.skip = false ∧ st'.quoted = st.quoted := by
  have hbyte : ∀ d, isWhitespace d → d ≠ backslash ∧ d ≠ equals ∧ d ≠ comma ∧ d ≠ quote ∧ d ≠ newline := by
    decide
  obtain ⟨hb, he, hco, hq, hn⟩ := hbyte c hc
  rw [scanLineStep] at h
  simp only [hs, hb, he, hco, hq, hn, false_and, and_false, if_false, Bool.false_eq_true] at h
  cases h
  split_ifs
  · exact ⟨rfl, rfl⟩
  · exact ⟨hs, rfl⟩

theorem exists_mem_of_open : ∀ {x : List Byte} {st : LineScan} {cur : List Byte},
    (st.skip = true ∨ st.quoted = true → ∃ c ∈ cur, ¬isWhitespace c) →
    (cutOpen st cur x).state.skip = true ∨ (cutOpen st cur x).state.quoted = true →
    ∃ c ∈ (cutOpen st cur x).last, ¬isWhitespace c
  | [], st, cur, hinv, hopen => by
    obtain ⟨c, hc, hw⟩ := hinv hopen
    exact ⟨c, mem_reverse.mpr hc, hw⟩
  | c :: x, st, cur, hinv, hopen => by
    rw [cutOpen] at hopen ⊢
    cases hstep : scanLineStep st c 2 with
    | none =>
      rw [hstep] at hopen
      exact exists_mem_of_open (by simp) hopen
    | some st' =>
      rw [hstep] at hopen
      refine exists_mem_of_open ?_ hopen
      intro hflags
      by_cases hold : st.skip = true ∨ st.quoted = true
      · obtain ⟨d, hd, hw⟩ := hinv hold
        exact ⟨d, mem_cons_of_mem c hd, hw⟩
      · -- only a backslash or a quote opens the state
        refine ⟨c, mem_cons_self, fun hw => hold ?_⟩
        rw [not_or, Bool.not_eq_true] at hold
        obtain ⟨hskip, hquoted⟩ := scanLineStep_whitespace hw hold.1 hstep
        rw [hskip, hquoted] at hflags
        exact hflags.imp (fun h => absurd h (by decide)) id

theorem pointLine_append_of_none {b : List Byte} (y : List Byte) (hb : ∃ c ∈ b, ¬isWhitespace c)
    (h : pointLine b = none) : pointLine (b ++ y) = none := by
  obtain ⟨c, x, hcx⟩ : ∃ c x, b.dropWhile isWhitespace = c :: x := by
    refine exists_cons_of_ne_nil fun hnil => ?_
    obtain ⟨c, hc, hw⟩ := hb
    exact hw (dropWhile_eq_nil_iff.mp hnil c hc)
  rw [pointLine, hcx] at h
  simp only at h
  split_ifs at h with hhash
  rw [pointLine, dropWhile_append, hcx]
  simp [hhash]

theorem parseLines_append (a b : List (List Byte)) :
    parseLines t prec (a ++ b) = parseLines t prec a >>= fun r => parseLines t prec b >>= fun r' =>
      .ok (r.1 ++ r'.1, r.2 ++ r'.2) := by
  induction a with
  | nil =>
    rw [nil_append, parseLines]
    cases parseLines t prec b <;> rfl
  | cons line lines ih =>
    rw [cons_append, parseLines, parseLines, ih]
    cases parseLine t prec line with
    | error e => rfl
    | ok r =>
      cases parseLines t prec lines with
      | error e => rfl
      | ok r' =>
        cases parseLines t prec b with
        | error e => rfl
        | ok r'' => simp [bind, Except.bind]

theorem length_of_parseLines {lines : List (List Byte)} {r : List Point × Failed}
    (h : parseLines t prec lines = .ok r) : r.1.length + r.2.length = lines.length := by
  induction lines generalizing r with
  | nil =>
    cases h
    rfl
  | cons line lines ih =>
    obtain ⟨r', hlines, hr⟩ := parseLines_cons h
    have hrec := ih hlines
    rcases hr with ⟨p, -, rfl⟩ | ⟨msg, rfl⟩
    · simp only [length_cons]
      omega
    · simp only [length_cons]
      omega

/-- Parsing two lines gives what parsing each of them gives: the points of the first line, `points`, and those of the
second, and an error exactly if the second line fails. -/
def Independent (x y : List Byte) (points : List Point) (t : Time) (prec : String) : Prop :=
  ∃ r r', parsePointsWithPrecision y t prec = .ok r ∧ parsePointsWithPrecision (x ++ newline :: y) t prec = .ok r' ∧
    r'.1 = points ++ r.1 ∧ (r'.2 ≠ [] ↔ r.2 ≠ [])

/-- An input that is parsed into one point without an error, or a comment line. -/
def FirstLine (x : List Byte) (points : List Point) (t : Time) (prec : String) : Prop :=
  (∃ p, points = [p] ∧ parsePointsWithPrecision x t prec = .ok ([p], [])) ∨
    (points = [] ∧ x.head? = some hash ∧ newline ∉ x)

theorem FirstLine.parse {points : List Point} (h : FirstLine x points t prec) :
    parsePointsWithPrecision x t prec = .ok (points, []) := by
  rcases h with ⟨p, rfl, hparse⟩ | ⟨rfl, hhead, hnl⟩
  · exact hparse
  · cases x with
    | nil => cases hhead
    | cons c x =>
      obtain rfl : c = hash := Option.some.inj hhead
      rw [mem_cons, not_or] at hnl
      have hcut : cut {} [] (hash :: x) = [hash :: x] := by
        rw [cut]
        cases hstep : scanLineStep {} hash x.length with
        | none => exact absurd (scanLineStep_none hstep) (by decide)
        | some st => exact cut_of_not_mem hnl.2 st (cons_ne_nil hash [])
      have hnone : pointLine (hash :: x) = none := by
        rw [pointLine, dropWhile_cons_of_neg (by decide)]
        exact if_pos rfl
      rw [parsePointsWithPrecision_eq, pointLines_eq, hcut, filterMap_cons, hnone]
      rfl

/-- A line that is parsed whatever the time is. -/
def plainLine : List Byte := ascii "a b=1"

theorem parse_plainLine (t : Time) (prec : String) :
    ∃ p, parsePointsWithPrecision plainLine t prec = .ok ([p], []) := by
  have hlines : pointLines plainLine = [plainLine] := by decide +kernel
  have hkey : scanKey plainLine 0 = .ok (1, ascii "a") := by decide +kernel
  have hfields : scanFields plainLine 1 = .ok (5, ascii "b=1") := by decide +kernel
  have hseries : checkSeriesKeys (ascii "a") (ascii "b=1") = .ok () := by decide +kernel
  have htime : scanTime plainLine 5 = .ok (5, []) := by decide +kernel
  have hpoint : parsePoint plainLine t prec = .ok ⟨ascii "a", ascii "b=1", setPrecision t prec⟩ := by
    rw [parsePoint, hkey]
    simp only [bind, Except.bind, hfields, hseries, htime, parseTime]
    rfl
  refine ⟨⟨ascii "a", ascii "b=1", setPrecision t prec⟩, ?_⟩
  rw [parsePointsWithPrecision_eq, hlines, parseLines, parseLine, hpoint]
  rfl

/-- **Lines are parsed independently** exactly if the first one leaves `scanLine` neither in quotes nor behind a
backslash. -/
theorem lines_independent_iff (x : List Byte) (points : List Point) (t : Time) (prec : String)
    (h : FirstLine x points t prec) : (∀ y, Independent x y points t prec) ↔ LineClosed x := by
  have hfirst := h.parse
  rw [parsePointsWithPrecision_eq] at hfirst
  constructor
  · intro hall
    by_contra hopen
    have hopen' : (cutOpen {} [] x).state.skip = true ∨ (cutOpen {} [] x).state.quoted = true := by
      rw [lineClosed_iff, not_and_or] at hopen
      simpa using hopen
    obtain ⟨p, hp⟩ := parse_plainLine t prec
    obtain ⟨r, r', hr, hr', hpoints, -⟩ := hall plainLine
    obtain rfl := Except.ok.inj (hp.symm.trans hr)
    rw [parsePointsWithPrecision_eq, pointLines_eq,
      cut_append_open (by decide) (by decide) hopen', filterMap_append] at hr'
    rw [pointLines_eq, filterMap_cut, filterMap_append] at hfirst
    have hlen := length_of_parseLines hfirst
    have hlen' := length_of_parseLines hr'
    simp only [length_append, length_nil] at hlen hlen'
    -- the last block gives no line on its own and one together with the second line
    cases hlast : pointLine (cutOpen {} [] x).last with
    | none =>
      have hnone := pointLine_append_of_none (newline :: plainLine) (exists_mem_of_open (by simp) hopen') hlast
      rw [filterMap_cons, hlast] at hlen
      rw [hpoints, filterMap_cons, hnone] at hlen'
      simp only [length_append, length_cons, filterMap_nil, length_nil] at hlen hlen'
      omega
    | some line =>
      have hle : (List.filterMap pointLine [(cutOpen {} [] x).last ++ newline :: plainLine]).length ≤ 1 :=
        length_filterMap_le _ _
      rw [filterMap_cons, hlast] at hlen
      rw [hpoints] at hlen'
      simp only [length_append, length_cons, length_nil, filterMap_nil] at hlen hlen'
      omega
  · intro hclosed y
    obtain ⟨r, hr⟩ := exists_parsePoints y t prec
    refine ⟨r, (points ++ r.1, r.2), hr, ?_, rfl, Iff.rfl⟩
    rw [parsePointsWithPrecision_eq] at hr ⊢
    rw [pointLines_append_of_closed hclosed, parseLines_append, hfirst, hr]
    rfl

/-- The iff at a line with a string that has a newline in it. -/
theorem lines_independent_string : (∀ y, Independent (ascii "cpu v=\"x\ny\" 7") y
        [⟨ascii "cpu", ascii "v=\"x\ny\"", Time.ofUnixNano 7⟩] (Time.ofUnixNano 0) "ns") ↔
      LineClosed (ascii "cpu v=\"x\ny\" 7") :=
  lines_independent_iff _ _ _ _ (.inl ⟨_, rfl, by decide +kernel⟩)

/-- A comment with a quote swallows the line behind it. -/
theorem comment_swallows_line : FirstLine (ascii "# a=\"") [] (Time.ofUnixNano 0) "ns" ∧
      ¬Independent (ascii "# a=\"") (ascii "cpu v=1 7") [] (Time.ofUnixNano 0) "ns" := by
  refine ⟨.inr ⟨rfl, rfl, by decide⟩, ?_⟩
  rintro ⟨r, r', hr, hr', hpoints, -⟩
  have hone : parsePointsWithPrecision (ascii "cpu v=1 7") (Time.ofUnixNano 0) "ns" =
      .ok ([⟨ascii "cpu", ascii "v=1", Time.ofUnixNano 7⟩], []) := by decide +kernel
  have hnone : parsePointsWithPrecision (ascii "# a=\"" ++ newline :: ascii "cpu v=1 7")
      (Time.ofUnixNano 0) "ns" = .ok ([], []) := by decide +kernel
  obtain rfl := Except.ok.inj (hone.symm.trans hr)
  obtain rfl := Except.ok.inj (hnone.symm.trans hr')
  cases hpoints

/-- **A batch of closed lines** gives the points and the errors of its lines. -/
theorem parse_batch (lines : List (List Byte)) (h : ∀ x ∈ lines, LineClosed x) (t : Time) (prec : String) :
    ∃ rs, lines.mapM (parsePointsWithPrecision · t prec) = .ok rs ∧
      parsePointsWithPrecision (lines.flatMap (· ++ [newline])) t prec = .ok (rs.flatMap (·.1), rs.flatMap (·.2)) := by
  induction lines with
  | nil => exact ⟨[], rfl, rfl⟩
  | cons x lines ih =>
    obtain ⟨hx, h⟩ := forall_mem_cons.mp h
    obtain ⟨r, hr⟩ := exists_parsePoints x t prec
    obtain ⟨rs, hrs, hlines⟩ := ih h
    refine ⟨r :: rs, by rw [mapM_cons, hr, hrs]; rfl, ?_⟩
    rw [parsePointsWithPrecision_eq] at hr hlines ⊢
    rw [flatMap_cons, append_assoc, singleton_append, pointLines_append_of_closed hx, parseLines_append, hr, hlines]
    rfl

theorem parse_batch_bad : ∃ rs,
    [ascii "bad", ascii "cpu v=1 7"].mapM (parsePointsWithPrecision · (Time.ofUnixNano 0) "ns") = .ok rs ∧
      parsePointsWithPrecision (ascii "bad\ncpu v=1 7\n") (Time.ofUnixNano 0) "ns" =
        .ok (rs.flatMap (·.1), rs.flatMap (·.2)) :=
  parse_batch [ascii "bad", ascii "cpu v=1 7"] (by decide +kernel) _ _

end Influxdb.Models
