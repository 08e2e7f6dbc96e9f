import Influxdb.DurableQueue.Queue
import Mathlib.Algebra.BigOperators.Group.List.Basic

/-!
# DiskUsage — the byte counter of the durable queue

The counter is exact while no operation makes a segment and the queue is not closed.  `addSegment` does not count the footer
of the new file though `trimHead` takes the whole file away, `Open` counts nothing if it has made the segment itself, and
`Close` leaves the counter as it is.
-/

namespace Influxdb.DurableQueue

open List

/-- `segment.append`, or `ErrSegmentFull`. -/
def Segment.append (s : Segment) (b : List Byte) : Option Segment :=
  if s.maxSize < s.diskUsage then none else some ⟨s.blocks ++ [b], s.pos, max s.maxSize b.length⟩

inductive Refusal where
  | queueFull
  | segmentFull
deriving DecidableEq

namespace Queue

variable (q : Queue)

def diskUsage : ℕ := (q.segments.map Segment.diskUsage).sum

/-- The files are opened again, and removed if they have no pending blocks. -/
def loadSegments : Queue :=
  { q with
    segments := (q.segments.filter fun s => s.pos ≠ s.stop).map fun s =>
      { s with maxSize := max q.maxSegmentSize s.diskUsage } }

/-- `Open`.  The head is at its end only if there was no segment to load. -/
def openQueue : Queue :=
  if q.loadSegments.segments = [] then (q.loadSegments.addSegment.trimHead false).1
  else { q.loadSegments with queueTotalSize := q.queueTotalSize + q.loadSegments.diskUsage }

/-- The append to the tail. -/
def appendTail (b : List Byte) : Option Queue := do
  let s ← (← q.segments.getLast?).append b
  return { q with segments := q.segments.dropLast ++ [s], queueTotalSize := q.queueTotalSize + (8 + b.length : ℕ) }

def append (maxSize : ℕ) (b : List Byte) : Queue × Option Refusal :=
  if maxSize < q.queueTotalSize + b.length then (q, some .queueFull)
  else
    match (q.appendTail b).or (q.addSegment.appendTail b) with
    | some q => (q, none)
    | none => (q.addSegment, some .segmentFull)

/-- A round of the loop of `PurgeOlderThan`, with a head that is too old. -/
def purgeHead : Queue := ((if q.segments.length = 1 then q.addSegment else q).trimHead false).1

/-- What the counter is ahead of the files. -/
def drift : Int := q.queueTotalSize - q.diskUsage

/-- There is one segment, and it is full. -/
def LastFull : Prop := q.segments.length = 1 ∧ q.segments.all fun s => s.maxSize ≤ s.diskUsage

variable {q} {q' : Queue}

theorem drift_trimHead (h : ¬q.LastFull) :
    (q.trimHead false).1.drift = q.drift ∧ q.segments.length ≤ (q.trimHead false).1.segments.length + 1 := by
  rw [LastFull] at h
  rw [trimHead]
  simp only [Bool.false_eq_true, or_false, if_neg h]
  split
  · next head next rest hsegments =>
    simp only [drift, diskUsage, hsegments, map_cons, sum_cons, length_cons]
    omega
  · exact ⟨rfl, Nat.le_succ _⟩

theorem advanceSegment_frame (q : Queue) (sc : Scanner) :
    (q.advanceSegment sc).1.drift = q.drift ∧ ((q.advanceSegment sc).1.LastFull ↔ q.LastFull) := by
  rw [advanceSegment]
  split_ifs
  · exact ⟨rfl, Iff.rfl⟩
  · split
    · next s rest _ hsegments =>
      simp only [drift, diskUsage, LastFull, hsegments]
      rw [Segment.advanceTo]
      split_ifs <;> exact ⟨rfl, Iff.rfl⟩
    · exact ⟨rfl, Iff.rfl⟩

/-- An `Advance` that neither fails nor trims the last segment. -/
theorem drift_advance {sc : Scanner} (h : (q.advanceSegment sc).2 = none ∨ (q.advanceSegment sc).2 = some .eof ∧ ¬q.LastFull) :
    (q.advance sc).1.drift = q.drift := by
  obtain ⟨hdrift, hlast⟩ := advanceSegment_frame q sc
  rcases hq : q.advanceSegment sc with ⟨q', err⟩
  rw [hq] at h hdrift hlast
  rcases h with rfl | ⟨rfl, hfull⟩
  · simpa [advance, hq] using hdrift
  · have hagain := advanceSegment_again hq (.inr rfl)
    have htrim := (drift_trimHead (mt hlast.mp hfull)).1
    simpa [advance, hq, hagain] using htrim.trans hdrift

theorem drift_appendTail {b : List Byte} (h : q.appendTail b = some q') : q'.drift = q.drift := by
  simp only [appendTail, Option.bind_eq_bind, Option.bind_eq_some_iff] at h
  obtain ⟨s, hs, s', hs', heq⟩ := h
  obtain ⟨rest, hrest⟩ := getLast?_eq_some_iff.mp hs
  rw [Segment.append] at hs'
  split_ifs at hs'
  cases hs'
  cases heq
  simp [drift, diskUsage, hrest, Segment.diskUsage, Segment.stop]
  omega

theorem drift_purgeHead {n : ℕ} (h : n < q.segments.length) : (purgeHead^[n] q).drift = q.drift := by
  induction n generalizing q with
  | zero => rfl
  | succ n ih =>
    obtain ⟨hdrift, hlength⟩ := drift_trimHead (q := q) fun hlast => by
      rw [hlast.1] at h
      omega
    have hpurge : q.purgeHead = (q.trimHead false).1 := by rw [purgeHead, if_neg (by omega)]
    rw [Function.iterate_succ_apply, hpurge, ih (by omega), hdrift]

end Queue

/-- A queue, and whether it is open; while it is closed, its segments are the files. -/
structure Handle where
  isOpen : Bool
  queue : Queue

inductive Op where
  | openQueue
  | append (b : List Byte)
  | scan (sc : Scanner)
  | purgeOlderThan (rounds : ℕ)
  | close

namespace Handle

variable (maxSize : ℕ) (h : Handle)

/-- An operation.  A closed queue can only be opened. -/
def step (op : Op) : Handle :=
  match h.isOpen, op with
  | _, .openQueue => ⟨true, h.queue.openQueue⟩
  | true, .append b => ⟨true, (h.queue.append maxSize b).1⟩
  | true, .scan sc => ⟨true, (h.queue.advance sc).1⟩
  | true, .purgeOlderThan rounds => ⟨true, Queue.purgeHead^[rounds] h.queue⟩
  | true, .close => ⟨false, h.queue⟩
  | false, _ => h

def Exact : Prop := h.queue.queueTotalSize = if h.isOpen then h.queue.diskUsage else 0

/-- The operation makes no segment and closes nothing. -/
def Keeps (op : Op) : Prop :=
  match h.isOpen, op with
  | false, .openQueue => h.queue.loadSegments.segments ≠ []
  | true, .append b => maxSize < h.queue.queueTotalSize + b.length ∨ (h.queue.appendTail b).isSome
  | true, .scan sc => (h.queue.advanceSegment sc).2 = none ∨ (h.queue.advanceSegment sc).2 = some .eof ∧ ¬h.queue.LastFull
  | true, .purgeOlderThan rounds => rounds < h.queue.segments.length
  | true, _ => False
  | false, _ => True

/-- All operations of the run keep the counter exact. -/
def AllKeep : Handle → List Op → Prop
  | _, [] => True
  | h, op :: ops => h.Keeps maxSize op ∧ AllKeep (h.step maxSize op) ops

variable {h}

theorem Exact.of_drift {q : Queue} (hexact : h.Exact) (hopen : h.isOpen = true) (hdrift : q.drift = h.queue.drift) :
    Exact ⟨true, q⟩ := by
  rw [Exact, if_pos hopen] at hexact
  rw [Queue.drift, Queue.drift, hexact, sub_self] at hdrift
  exact sub_eq_zero.mp hdrift

theorem Exact.step (hexact : h.Exact) {op : Op} (hkeeps : h.Keeps maxSize op) : (h.step maxSize op).Exact := by
  obtain ⟨isOpen, q⟩ := h
  cases isOpen with
  | false =>
    cases op with
    | openQueue =>
      have hzero : q.queueTotalSize = 0 := hexact
      have hload : q.loadSegments.segments ≠ [] := hkeeps
      simp [Handle.step, Queue.openQueue, hload, Exact, hzero]
      rfl
    | _ => exact hexact
  | true =>
    cases op with
    | append b =>
      show Exact ⟨true, (q.append maxSize b).1⟩
      rw [Queue.append]
      split_ifs with hfull
      · exact hexact
      · obtain ⟨q', hq'⟩ := Option.isSome_iff_exists.mp (hkeeps.resolve_left hfull)
        rw [hq', Option.some_or]
        exact hexact.of_drift rfl (Queue.drift_appendTail hq')
    | scan sc => exact hexact.of_drift rfl (Queue.drift_advance hkeeps)
    | purgeOlderThan rounds => exact hexact.of_drift rfl (Queue.drift_purgeHead hkeeps)
    | _ => exact hkeeps.elim

theorem Exact.lt_of_queueFull (hexact : h.Exact) {b : List Byte}
    (hfull : (h.queue.append maxSize b).2 = some .queueFull) : maxSize < h.queue.diskUsage + b.length := by
  rw [Queue.append] at hfull
  split_ifs at hfull with hlt
  · rw [Exact] at hexact
    split_ifs at hexact <;> omega
  · split at hfull <;> cases hfull

/-- **The counter is the size on disk** along every run that makes no segment and does not close the queue, so `Append` only
finds the queue full if it is. -/
theorem counter_exact (hexact : h.Exact) {ops : List Op} (hops : AllKeep maxSize h ops) :
    (ops.foldl (step maxSize) h).Exact ∧
      ∀ b, ((ops.foldl (step maxSize) h).queue.append maxSize b).2 = some .queueFull →
        maxSize < (ops.foldl (step maxSize) h).queue.diskUsage + b.length := by
  induction ops generalizing h with
  | nil => exact ⟨hexact, fun b => hexact.lt_of_queueFull maxSize⟩
  | cons op ops ih => exact ih (hexact.step maxSize hops.1) hops.2

/-- Two files with a block each. -/
def twoFiles : Handle := ⟨false, { Queue.twoBlocks with queueTotalSize := 0 }⟩

theorem counter_exact_scan : ([.openQueue, .append [3], .scan ⟨9, false, false⟩].foldl (step 99) twoFiles).Exact :=
  (@counter_exact 99 twoFiles rfl [.openQueue, .append [3], .scan ⟨9, false, false⟩]
    ⟨List.cons_ne_nil _ _, .inr (by decide), .inr ⟨by decide, by rw [Queue.LastFull]; decide⟩, trivial⟩).1

/-- The footer of the file of an empty queue is not counted, and a queue that is opened again finds no place for one byte
though there is place for 16. -/
theorem counter_off : ¬(step 99 ⟨false, ⟨[], 9, 0⟩⟩ .openQueue).Exact ∧
    (([.openQueue, .close, .openQueue].foldl (step 50) twoFiles).queue.append 50 [3]).2 = some .queueFull ∧
    ([.openQueue, .close, .openQueue].foldl (step 50) twoFiles).queue.diskUsage = 34 := by
  rw [Exact]
  decide

end Handle

end Influxdb.DurableQueue
