import Mathlib.Data.List.Induction
import Influxdb.Lib.Drain
import Influxdb.Cursors.ArrayValues

/-!
# MultiShardCursor — the condition of a series row over its shards

The typed cursors of `multiShardArrayCursors` are used for one row after the other.  `reset` puts the condition of a row into
the filter of the cursor, but for a row without a condition it leaves the filter of an earlier row where it is, and
`nextArrayCursor` puts that filter before every later shard.  So a row is exact precisely if it has a condition of its own or
its later shards have no point that the last condition for its type rejects (`row_exact_iff`).
-/

namespace Influxdb.Reads

open List Cursors

/-! ## The cursors -/

/-- An array that a shard's cursor returns; the empty array is its end. -/
abbrev Batch (V : Type) := { a : ValueArray V // a ≠ [] }

/-- The shards of a row: the arrays of each one that has a cursor. -/
abbrev Shards (V : Type) := List (Option (List (Batch V)))

def maxPointsPerBlock : ℕ := 1000

/-- `integerArrayFilterCursor`, of any type. -/
structure ArrayFilterCursor (V : Type) where
  cond : V → Bool
  tmp : ValueArray V

/-- `integerMultiShardArrayCursor`, of any type: the arrays that the current shard has still to return, whether they are read
through the filter, and the other shards. -/
structure MultiShardArrayCursor (V : Type) where
  cur : List (Batch V)
  filtered : Bool
  itrs : Shards V
  filter : Option (ArrayFilterCursor V)

variable {V : Type}

/-- The inner loop of the filter's `Next`, with room for `room` points: what is kept of an array, and the rest of the array
if the room is used up. -/
def keep (cond : V → Bool) : ℕ → ValueArray V → ValueArray V × Option (ValueArray V)
  | _, [] => ([], none)
  | room, p :: a =>
    if cond p.2 then
      if room ≤ 1 then ([p], some a) else (p :: (keep cond (room - 1) a).1, (keep cond (room - 1) a).2)
    else keep cond room a

/-- The outer loop, from the array `a` on: the result, the new `tmp` and the arrays not read. -/
def fill (cond : V → Bool) : ℕ → ValueArray V → List (Batch V) → ValueArray V × ValueArray V × List (Batch V)
  | room, a, [] => ((keep cond room a).1, (keep cond room a).2.getD [], [])
  | room, a, b :: cur =>
    match keep cond room a with
    | (res, some tmp) => (res, tmp, b :: cur)
    | (res, none) => (res ++ (fill cond (room - res.length) b.1 cur).1, (fill cond (room - res.length) b.1 cur).2)

/-- The loop over the shards, to the first one that has a cursor. -/
def firstCursor : Shards V → Option (List (Batch V) × Shards V)
  | [] => none
  | none :: itrs => firstCursor itrs
  | some cur :: itrs => some (cur, itrs)

theorem firstCursor_length {itrs itrs' : Shards V} {cur : List (Batch V)} (h : firstCursor itrs = some (cur, itrs')) :
    itrs'.length < itrs.length := by
  induction itrs with
  | nil => cases h
  | cons s itrs ih =>
    cases s with
    | none => exact (ih h).trans (Nat.lt_succ_self _)
    | some cur =>
      cases h
      exact Nat.lt_succ_self _

namespace MultiShardArrayCursor

variable (c : MultiShardArrayCursor V)

/-- `Next` of the cursor of the current shard.  An empty `tmp` is passed over by `fill`. -/
def read : ValueArray V × MultiShardArrayCursor V :=
  match c.filtered, c.filter, c.cur with
  | true, some f, cur =>
    ((fill f.cond maxPointsPerBlock f.tmp cur).1, { c with
        cur := (fill f.cond maxPointsPerBlock f.tmp cur).2.2
        filter := some ⟨f.cond, (fill f.cond maxPointsPerBlock f.tmp cur).2.1⟩ })
  | _, _, [] => ([], c)
  | _, _, a :: cur => (a.1, { c with cur := cur })

def reset (cur : List (Batch V)) (itrs : Shards V) (cond : Option (V → Bool)) : MultiShardArrayCursor V :=
  ⟨cur, cond.isSome, itrs, (cond.map fun cond => ⟨cond, []⟩).or c.filter⟩

def nextArrayCursor : Bool × MultiShardArrayCursor V :=
  match firstCursor c.itrs, c.itrs with
  | some (cur, itrs), _ => (true, ⟨cur, c.filter.isSome, itrs, c.filter.map fun f => ⟨f.cond, []⟩⟩)
  | none, [] => (false, c)
  | none, _ :: _ => (false, ⟨[], false, [], c.filter⟩)

theorem read_itrs : c.read.2.itrs = c.itrs := by
  rw [read]
  split <;> rfl

variable {c} in
theorem nextArrayCursor_itrs (h : c.nextArrayCursor.1 = true) : c.nextArrayCursor.2.itrs.length < c.itrs.length := by
  rw [nextArrayCursor] at h ⊢
  split at h <;> cases h
  next cur itrs hfirst => exact firstCursor_length hfirst

def next (c : MultiShardArrayCursor V) : ValueArray V × MultiShardArrayCursor V :=
  if c.read.1 = [] then
    if _ : c.read.2.nextArrayCursor.1 = true then next c.read.2.nextArrayCursor.2
    else (c.read.1, c.read.2.nextArrayCursor.2)
  else c.read
termination_by c.itrs.length
decreasing_by exact read_itrs c ▸ nextArrayCursor_itrs ‹_›

end MultiShardArrayCursor

inductive FieldType where
  | integer
  | float
  | unsigned
  | boolean
  | string
deriving DecidableEq

/-- `SeriesRow`, with shards whose cursors are of one type. -/
structure SeriesRow (Val : FieldType → Type) where
  type : FieldType
  query : Shards (Val type)
  valueCond : Option (∀ t, Val t → Bool)

/-- `multiShardArrayCursors`. -/
abbrev MultiShardArrayCursors (Val : FieldType → Type) := ∀ t, MultiShardArrayCursor (Val t)

namespace MultiShardArrayCursors

variable {Val : FieldType → Type}

def new : MultiShardArrayCursors Val := fun _ => ⟨[], false, [], none⟩

variable (m : MultiShardArrayCursors Val) (row : SeriesRow Val)

/-- `createCursor`; without a cursor of any shard it answers nil. -/
def createCursor : Option (MultiShardArrayCursors Val) :=
  (firstCursor row.query).map fun q =>
    Function.update m row.type ((m row.type).reset q.1 q.2 (row.valueCond.map (· row.type)))

/-- A row is read with `n` calls of `Next`. -/
def readRow (n : ℕ) : MultiShardArrayCursors Val :=
  match m.createCursor row with
  | none => m
  | some m' => Function.update m' row.type ((fun c => c.next.2)^[n] (m' row.type))

def run (rows : List (SeriesRow Val × ℕ)) : MultiShardArrayCursors Val := rows.foldl (fun m r => m.readRow r.1 r.2) new

end MultiShardArrayCursors

/-! ## What is left to return -/

/-- The points of a shard. -/
def pointsOf (cur : List (Batch V)) : ValueArray V := cur.flatMap (·.1)

/-- The points of the shards in their order. -/
def shardPoints (itrs : Shards V) : ValueArray V := itrs.flatMap fun s => pointsOf (s.getD [])

theorem shardPoints_eq (itrs : Shards V) :
    shardPoints itrs = ((firstCursor itrs).map fun q => pointsOf q.1 ++ shardPoints q.2).getD [] := by
  induction itrs with
  | nil => rfl
  | cons s itrs ih =>
    cases s with
    | none => exact ih
    | some cur => rfl

/-- A filter that may be missing. -/
def sieve : Option (V → Bool) → ValueArray V → ValueArray V
  | none, a => a
  | some cond, a => a.filter fun p => cond p.2

theorem sieve_append (cond : Option (V → Bool)) (a b : ValueArray V) :
    sieve cond (a ++ b) = sieve cond a ++ sieve cond b := by
  cases cond with
  | none => rfl
  | some cond => exact filter_append ..

theorem sieve_eq_self_iff {cond : Option (V → Bool)} {a : ValueArray V} :
    sieve cond a = a ↔ ∀ f ∈ cond, ∀ p ∈ a, f p.2 := by
  cases cond with
  | none => simp [sieve]
  | some f => simp [sieve, filter_eq_self]

theorem sieve_nil (cond : Option (V → Bool)) : sieve cond [] = [] := by cases cond <;> rfl

theorem keep_spec (cond : V → Bool) (a : ValueArray V) (room : ℕ) (h : 0 < room) :
    sieve (some cond) a = (keep cond room a).1 ++ sieve (some cond) ((keep cond room a).2.getD []) ∧
      ((keep cond room a).2 = none → (keep cond room a).1.length < room) ∧
      ((keep cond room a).1 = [] → (keep cond room a).2 = none) := by
  induction a generalizing room with
  | nil => exact ⟨rfl, fun _ => h, fun _ => rfl⟩
  | cons p a ih =>
    rw [keep]
    split_ifs with hp hroom
    · refine ⟨?_, by simp, by simp⟩
      rw [sieve, filter_cons, if_pos hp]
      rfl
    · obtain ⟨h1, h2, -⟩ := ih (room - 1) (by omega)
      refine ⟨?_, ?_, by simp⟩
      · rw [sieve, filter_cons, if_pos hp]
        exact congrArg (p :: ·) h1
      · intro hnone
        have := h2 hnone
        simp only [length_cons]
        omega
    · obtain ⟨h1, h2⟩ := ih room h
      refine ⟨?_, h2⟩
      rw [sieve, filter_cons, if_neg hp]
      exact h1

theorem fill_spec (cond : V → Bool) (cur : List (Batch V)) (a : ValueArray V) (room : ℕ) (h : 0 < room) :
    sieve (some cond) (a ++ pointsOf cur) = (fill cond room a cur).1 ++
        sieve (some cond) ((fill cond room a cur).2.1 ++ pointsOf (fill cond room a cur).2.2) ∧
      ((fill cond room a cur).1 = [] → (fill cond room a cur).2 = ([], [])) := by
  induction cur generalizing a room with
  | nil =>
    obtain ⟨h1, -, h3⟩ := keep_spec cond a room h
    refine ⟨?_, ?_⟩
    · simpa [fill, pointsOf] using h1
    · intro hnil
      rw [fill, h3 hnil]
      rfl
  | cons b cur ih =>
    obtain ⟨h1, h2, h3⟩ := keep_spec cond a room h
    rw [fill]
    split
    · next res tmp heq =>
      rw [heq] at h1 h3
      refine ⟨?_, fun hnil => absurd (h3 hnil) (by simp)⟩
      rw [sieve_append, h1, sieve_append, append_assoc]
      rfl
    · next res heq =>
      rw [heq] at h1 h2
      obtain ⟨g1, g2⟩ := ih b.1 (room - res.length) (Nat.sub_pos_of_lt (h2 rfl))
      refine ⟨?_, ?_⟩
      · rw [sieve_append, h1, append_assoc, append_assoc]
        show res ++ ([] ++ sieve _ (b.1 ++ pointsOf cur)) = _
        rw [g1, nil_append]
      · exact fun hnil => g2 (append_eq_nil_iff.mp hnil).2

namespace MultiShardArrayCursor

variable (c : MultiShardArrayCursor V)

/-- The condition in the filter, also when the current shard is not read through it. -/
def cond : Option (V → Bool) := c.filter.map (·.cond)

/-- The points of the current shard still to be returned. -/
def current : ValueArray V :=
  match c.filtered, c.filter with
  | true, some f => sieve (some f.cond) (f.tmp ++ pointsOf c.cur)
  | _, _ => pointsOf c.cur

def rest : ValueArray V := c.current ++ sieve c.cond (shardPoints c.itrs)

theorem read_spec :
    c.current = c.read.1 ++ c.read.2.current ∧ (c.read.1 = [] → c.read.2.current = []) ∧ c.read.2.cond = c.cond := by
  rcases c with ⟨cur, filtered, itrs, filter⟩
  cases filtered with
  | false =>
    cases cur with
    | nil => exact ⟨rfl, fun _ => rfl, rfl⟩
    | cons a cur => exact ⟨rfl, fun h => absurd h a.2, rfl⟩
  | true =>
    cases filter with
    | none =>
      cases cur with
      | nil => exact ⟨rfl, fun _ => rfl, rfl⟩
      | cons a cur => exact ⟨rfl, fun h => absurd h a.2, rfl⟩
    | some f =>
      obtain ⟨h1, h2⟩ := fill_spec f.cond cur f.tmp maxPointsPerBlock (by decide)
      refine ⟨h1, ?_, rfl⟩
      intro hnil
      have := h2 hnil
      simp only [read, current, this]
      rfl

theorem read_rest : c.rest = c.read.1 ++ c.read.2.rest := by
  obtain ⟨hcur, -, hcond⟩ := c.read_spec
  rw [rest, rest, hcur, hcond, read_itrs, append_assoc]

variable {c} in
theorem nextArrayCursor_spec (h : c.current = []) :
    c.nextArrayCursor.2.rest = c.rest ∧ c.nextArrayCursor.2.cond = c.cond ∧
      (c.nextArrayCursor.1 ≠ true → c.rest = []) := by
  rw [rest, rest, h, nil_append, shardPoints_eq c.itrs, nextArrayCursor]
  split
  · next cur itrs hfirst =>
    rw [hfirst, Option.map_some, Option.getD_some, sieve_append, cond, cond]
    refine ⟨?_, ?_, fun hne => absurd rfl hne⟩
    · cases c.filter <;> rfl
    · cases c.filter <;> rfl
  · next hfirst hitrs =>
    rw [hfirst, h, hitrs]
    exact ⟨rfl, rfl, fun _ => sieve_nil _⟩
  · next hfirst _ =>
    rw [hfirst]
    exact ⟨rfl, rfl, fun _ => sieve_nil _⟩

/-- **One call** returns the first of the points left, some of them if there are any, and keeps the condition. -/
theorem next_spec : c.rest = c.next.1 ++ c.next.2.rest ∧ (c.next.1 = [] → c.rest = []) ∧ c.next.2.cond = c.cond := by
  induction c using next.induct with
  | case1 c hnil hmore ih =>
    obtain ⟨hsame, hcond, -⟩ := nextArrayCursor_spec (c.read_spec.2.1 hnil)
    rw [next, if_pos hnil, dif_pos hmore, read_rest, hnil, nil_append, ← hsame, ← c.read_spec.2.2, ← hcond]
    exact ih
  | case2 c hnil hmore =>
    obtain ⟨hsame, hcond, hend⟩ := nextArrayCursor_spec (c.read_spec.2.1 hnil)
    rw [next, if_pos hnil, dif_neg hmore, read_rest, hnil, hsame, hend hmore]
    exact ⟨rfl, fun _ => rfl, hcond.trans c.read_spec.2.2⟩
  | case3 c hne =>
    rw [next, if_neg hne]
    exact ⟨read_rest c, fun hnil => absurd hnil hne, c.read_spec.2.2⟩

/-- **A cursor** returns what is left. -/
theorem yields_rest : Yields next c c.rest :=
  @yields_of_step _ _ next c (fun _ => True) rest (fun c _ => ⟨c.next_spec.1, trivial, c.next_spec.2.1⟩) trivial

theorem iterate_next_cond (n : ℕ) : ((fun c => c.next.2)^[n] c).cond = c.cond := by
  induction n generalizing c with
  | zero => rfl
  | succ n ih => exact (ih c.next.2).trans c.next_spec.2.2

end MultiShardArrayCursor

/-! ## Rows -/

namespace SeriesRow

variable {Val : FieldType → Type} (row : SeriesRow Val)

/-- **What should be returned**: the points of the shards that satisfy the condition of the row. -/
def expected : ValueArray (Val row.type) := sieve (row.valueCond.map (· row.type)) (shardPoints row.query)

/-- The points of the shards after the first one that has a cursor. -/
def laterPoints : ValueArray (Val row.type) := ((firstCursor row.query).map fun q => shardPoints q.2).getD []

/-- The row puts a condition into the filter for its type. -/
def Sets (t : FieldType) : Prop := row.type = t ∧ (firstCursor row.query).isSome ∧ row.valueCond.isSome

instance (t : FieldType) : Decidable (row.Sets t) := inferInstanceAs (Decidable (_ ∧ _))

end SeriesRow

namespace MultiShardArrayCursors

variable {Val : FieldType → Type} (m : MultiShardArrayCursors Val) (row : SeriesRow Val)

/-- The arrays for a row until the first empty one are what should be returned; a nil cursor is for a row without points. -/
def Exact : Prop :=
  match m.createCursor row with
  | none => row.expected = []
  | some m' => Yields MultiShardArrayCursor.next (m' row.type) row.expected

/-- The last condition for a type. -/
def lastCond (t : FieldType) (rows : List (SeriesRow Val × ℕ)) : Option (∀ t, Val t → Bool) :=
  rows.foldl (fun last r => if r.1.Sets t then r.1.valueCond else last) none

theorem exact_iff :
    m.Exact row ↔ row.valueCond.isSome ∨ ∀ cond ∈ (m row.type).cond, ∀ p ∈ row.laterPoints, cond p.2 := by
  rw [Exact, createCursor, SeriesRow.expected, SeriesRow.laterPoints, shardPoints_eq row.query]
  cases firstCursor row.query with
  | none => exact iff_of_true (sieve_nil _) (.inr fun _ _ _ hp => absurd hp not_mem_nil)
  | some q =>
    have hrest := MultiShardArrayCursor.yields_rest ((m row.type).reset q.1 q.2 (row.valueCond.map (· row.type)))
    simp only [Option.map_some, Option.getD_some, Function.update_self]
    cases hcond : row.valueCond with
    | some cond =>
      refine iff_of_true ?_ (.inl rfl)
      rw [hcond] at hrest
      rw [sieve_append]
      exact hrest
    | none =>
      rw [hcond] at hrest
      have hiff : ∀ l, Yields MultiShardArrayCursor.next ((m row.type).reset q.1 q.2 none) l ↔
          pointsOf q.1 ++ sieve (m row.type).cond (shardPoints q.2) = l :=
        fun l => ⟨fun h => hrest.unique h, fun h => h ▸ hrest⟩
      rw [← sieve_eq_self_iff]
      refine (hiff _).trans ?_
      show _ = pointsOf q.1 ++ shardPoints q.2 ↔ _
      rw [append_cancel_left_eq]
      exact (or_iff_right nofun).symm

theorem cond_readRow (n : ℕ) (t : FieldType) :
    (m.readRow row n t).cond = if row.Sets t then row.valueCond.map (· t) else (m t).cond := by
  rw [readRow, createCursor]
  cases hfirst : firstCursor row.query with
  | none =>
    rw [if_neg fun h => absurd h.2.1 (by simp [hfirst])]
    rfl
  | some q =>
    by_cases ht : row.type = t
    · subst ht
      simp only [Option.map_some, Function.update_self, MultiShardArrayCursor.iterate_next_cond]
      cases hcond : row.valueCond with
      | none =>
        rw [if_neg fun h => absurd h.2.2 (by simp [hcond])]
        rfl
      | some cond =>
        rw [if_pos ⟨rfl, hfirst ▸ rfl, hcond ▸ rfl⟩]
        rfl
    · rw [if_neg fun h => ht h.1]
      simp only [Option.map_some, Function.update_of_ne (Ne.symm ht)]

variable (rows : List (SeriesRow Val × ℕ))

theorem cond_run (t : FieldType) : (run rows t).cond = (lastCond t rows).map (· t) := by
  induction rows using reverseRecOn with
  | nil => rfl
  | append_singleton rows r ih =>
    rw [run, foldl_append, foldl_cons, foldl_nil, lastCond, foldl_append, foldl_cons, foldl_nil, cond_readRow]
    split_ifs
    · rfl
    · exact ih

/-- **A row is exact** after any rows read before it precisely if it has a condition of its own or the points of its later
shards satisfy the last condition for its type. -/
theorem row_exact_iff : (run rows).Exact row ↔
      row.valueCond.isSome ∨ ∀ cond ∈ lastCond row.type rows, ∀ p ∈ row.laterPoints, cond row.type p.2 := by
  rw [exact_iff, cond_run]
  simp only [Option.mem_map, forall_exists_index, and_imp, forall_apply_eq_imp_iff₂]

/-- A row with a condition, and one without whose second shard has a point that the condition rejects. -/
def largeValues : SeriesRow fun _ => ℕ := ⟨.integer, [some [⟨[(0, 5)], cons_ne_nil _ _⟩]], some fun _ v => 4 < v⟩

def twoShards : SeriesRow fun _ => ℕ :=
  ⟨.integer, [some [⟨[(0, 1)], cons_ne_nil _ _⟩], some [⟨[(1, 2)], cons_ne_nil _ _⟩]], none⟩

/-- The condition of the row before takes a point away from a row that has none. -/
theorem earlier_condition_is_applied : ¬ (run [(largeValues, 2)]).Exact twoShards := by
  rw [exact_iff, cond_run]
  decide

end MultiShardArrayCursors

end Influxdb.Reads
