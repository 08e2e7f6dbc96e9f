import Influxdb.Lib.Bytes
import Mathlib.Algebra.Ring.Int.Defs
import Mathlib.Algebra.Ring.Nat

/-!
# Queue — scanners of the durable queue

A queue is a list of segment files, read at its head and written at its tail.  A scanner that has come to the end of the head
trims it, which closes and removes the file if there is a next one, and a scanner that fails trims by force.  So a second
`Advance` behind a trim fails on the closed file and throws the next segment away.
-/

namespace Influxdb.DurableQueue

open List

/-- `segment`: the blocks of the file and the position of the current one. -/
structure Segment where
  blocks : List (List Byte)
  pos : ℕ
  maxSize : ℕ

def footerSize : ℕ := 8

inductive Err where
  | eof
  | notOpen
  | unread
  | scan
deriving DecidableEq

namespace Segment

variable (s : Segment)

/-- Where the footer starts. -/
def stop : ℕ := (s.blocks.map fun b => 8 + b.length).sum

def diskUsage : ℕ := s.stop + footerSize

/-- The blocks from a position on. -/
def blocksFrom : ℕ → List (List Byte) → List (List Byte)
  | 0, bs => bs
  | _, [] => []
  | n, b :: bs => blocksFrom (n - (8 + b.length)) bs

/-- `advanceTo`, on an open file.  Both tests for the end answer `io.EOF`. -/
def advanceTo (pos : ℕ) : Segment × Option Err :=
  if pos < s.pos then (s, some .unread) else ({ s with pos }, if s.stop ≤ pos then some .eof else none)

end Segment

structure Queue where
  segments : List Segment
  maxSegmentSize : ℕ
  queueTotalSize : Int

/-- `queueScanner`, on what was the head when it was made: its position, whether it has failed to read a block, and whether
its segment has been closed. -/
structure Scanner where
  pos : ℕ
  failed : Bool
  closed : Bool
deriving DecidableEq

namespace Queue

variable (q : Queue) (sc : Scanner)

/-- The blocks that have not been advanced over. -/
def pending : List (List Byte) := q.segments.flatMap fun s => Segment.blocksFrom s.pos s.blocks

def addSegment : Queue := { q with segments := q.segments ++ [⟨[], 0, q.maxSegmentSize⟩] }

/-- `trimHead`, and whether it has closed the head. -/
def trimHead (force : Bool) : Queue × Bool :=
  let q := if (q.segments.length = 1 ∧ q.segments.all fun s => s.maxSize ≤ s.diskUsage) ∨ force then q.addSegment else q
  match q.segments with
  | head :: next :: rest =>
    ({ q with segments := next :: rest, queueTotalSize := q.queueTotalSize - head.diskUsage }, true)
  | _ => (q, false)

/-- `segmentScanner.Advance`. -/
def advanceSegment : Queue × Option Err :=
  if sc.failed then (q, some .scan)
  else
    match sc.closed, q.segments with
    | false, s :: rest => ({ q with segments := (s.advanceTo sc.pos).1 :: rest }, (s.advanceTo sc.pos).2)
    | _, _ => (q, some .notOpen)

/-- `queueScanner.Advance`. -/
def advance : Queue × Scanner × Option Err :=
  match q.advanceSegment sc with
  | (q, none) => (q, sc, none)
  | (q, some err) =>
    -- "retry under lock"
    match if err = .eof then q.advanceSegment sc else (q, some err) with
    | (q, none) => (q, sc, none)
    | (q, some err) =>
      ((q.trimHead (err ≠ .eof)).1, { sc with closed := sc.closed || (q.trimHead (err ≠ .eof)).2 },
        if err = .eof then none else some err)

variable {q sc} {q' : Queue} {err : Option Err}

/-- **An advance in the segment** that succeeds or comes to its end puts the segment at the position of the scanner. -/
theorem advanceSegment_spec (h : q.advanceSegment sc = (q', err)) (herr : err = none ∨ err = some .eof) :
    sc.failed = false ∧ sc.closed = false ∧ ∃ s rest, q.segments = s :: rest ∧
      q' = { q with segments := { s with pos := sc.pos } :: rest } ∧ (err = none ↔ sc.pos < s.stop) := by
  rw [advanceSegment] at h
  split_ifs at h with hfailed
  · cases h
    simp at herr
  split at h
  · next s rest hclosed hsegments =>
    rw [Segment.advanceTo] at h
    by_cases hpos : sc.pos < s.pos
    · rw [if_pos hpos] at h
      cases h
      simp at herr
    · rw [if_neg hpos] at h
      cases h
      refine ⟨eq_false_of_ne_true hfailed, hclosed, s, rest, hsegments, rfl, ?_⟩
      simp
  · cases h
    simp at herr

/-- The segment stays at the position of the scanner. -/
theorem advanceSegment_again (h : q.advanceSegment sc = (q', err)) (herr : err = none ∨ err = some .eof) :
    q'.advanceSegment sc = (q', err) := by
  obtain ⟨hfailed, hclosed, s, rest, -, rfl, hend⟩ := advanceSegment_spec h herr
  have hstop : Segment.stop { s with pos := sc.pos } = s.stop := rfl
  simp only [advanceSegment, hfailed, hclosed, Bool.false_eq_true, if_false, Segment.advanceTo, lt_irrefl, hstop]
  rcases herr with rfl | rfl
  · rw [if_neg (not_le.mpr (hend.mp rfl))]
  · rw [if_pos (not_lt.mp fun hlt => by simpa using hend.mpr hlt)]

/-- **A trim without force** closes the head unless it is the only segment and is not full. -/
theorem trimHead_spec {s : Segment} {rest : List Segment} (h : q.segments = s :: rest) :
    if rest = [] ∧ s.diskUsage < s.maxSize then q.trimHead false = (q, false) else (q.trimHead false).2 = true := by
  cases rest with
  | nil =>
    by_cases hfull : s.maxSize ≤ s.diskUsage
    · simp [trimHead, h, hfull, addSegment, not_lt.mpr hfull]
    · simp [trimHead, h, hfull, not_le.mp hfull]
  | cons next rest => simp [trimHead, h]

/-- The scanner has not come to the end of the head, or the head is the only segment and is not full. -/
def Meets (q : Queue) (sc : Scanner) : Prop :=
  ∀ s ∈ q.segments.head?, sc.pos < s.stop ∨ q.segments.length = 1 ∧ s.diskUsage < s.maxSize

/-- **A second `Advance`** behind a successful one succeeds and keeps the pending blocks iff the scanner has not come to the
end of the head, or the head is the only segment and is not full. -/
theorem advance_idempotent_iff (h : (q.advance sc).2.2 = none) :
    (((q.advance sc).1.advance (q.advance sc).2.1).2.2 = none ∧
        ((q.advance sc).1.advance (q.advance sc).2.1).1.pending = (q.advance sc).1.pending) ↔ q.Meets sc := by
  rcases hq : q.advanceSegment sc with ⟨q', _ | err⟩
  · obtain ⟨-, -, s, rest, hs, -, hend⟩ := advanceSegment_spec hq (.inl rfl)
    simp [advance, hq, advanceSegment_again hq (.inl rfl), Meets, hs, hend.mp rfl]
  by_cases herr : err = .eof
  · subst herr
    obtain ⟨hfailed, hclosed, s, rest, hs, hq', hend⟩ := advanceSegment_spec hq (.inr rfl)
    have hagain := advanceSegment_again hq (.inr rfl)
    have hpos : ¬sc.pos < s.stop := fun hlt => by simpa using hend.mpr hlt
    have hfirst : q.advance sc = ((q'.trimHead false).1, { sc with closed := (q'.trimHead false).2 }, none) := by
      simp [advance, hq, hagain, hclosed]
    have htrim := @trimHead_spec q' { s with pos := sc.pos } rest (by rw [hq'])
    have hmeets : q.Meets sc ↔ rest = [] ∧ s.diskUsage < s.maxSize := by simp [Meets, hs, hpos]
    rw [hfirst, hmeets]
    split_ifs at htrim with hlast
    · have hsame : { sc with closed := false } = sc := by rw [← hclosed]
      refine iff_of_true ?_ hlast
      simp [htrim, hsame, advance, hagain]
    · -- the file is closed, so the second call fails
      refine iff_of_false ?_ hlast
      simp [advance, advanceSegment, htrim, hfailed]
  · simp [advance, hq, herr] at h

/-- Two segments with a block each. -/
def twoBlocks : Queue := ⟨[⟨[[1]], 0, 9⟩, ⟨[[2]], 0, 9⟩], 9, 34⟩

/-- A scanner that has read one of the two blocks of the head can advance twice. -/
theorem advance_idempotent_inside :
    ((Queue.advance ⟨[⟨[[1], [3]], 0, 18⟩, ⟨[[2]], 0, 18⟩], 18, 43⟩ ⟨9, false, false⟩).1.advance ⟨9, false, false⟩).2.2 = none ∧
      ((Queue.advance ⟨[⟨[[1], [3]], 0, 18⟩, ⟨[[2]], 0, 18⟩], 18, 43⟩ ⟨9, false, false⟩).1.advance
        ⟨9, false, false⟩).1.pending = [[3], [2]] := by
  have h := (@advance_idempotent_iff ⟨[⟨[[1], [3]], 0, 18⟩, ⟨[[2]], 0, 18⟩], 18, 43⟩ ⟨9, false, false⟩ (by decide)).mpr
    fun s hs => .inl (by cases hs; decide)
  exact ⟨h.1, h.2.trans (by decide)⟩

/-- A scanner behind it loses the block of the second segment. -/
theorem second_advance_drops : (twoBlocks.advance ⟨9, false, false⟩).2 = (⟨9, false, true⟩, none) ∧
    (twoBlocks.advance ⟨9, false, false⟩).1.pending = [[2]] ∧
    ((twoBlocks.advance ⟨9, false, false⟩).1.advance ⟨9, false, true⟩).2.2 = some .notOpen ∧
    ((twoBlocks.advance ⟨9, false, false⟩).1.advance ⟨9, false, true⟩).1.pending = [] := by
  decide

end Queue

end Influxdb.DurableQueue
