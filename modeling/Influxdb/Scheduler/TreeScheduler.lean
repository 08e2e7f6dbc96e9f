import Mathlib.Data.List.Infix
import Mathlib.Data.List.Nodup

/-!
# TreeScheduler — the timer of the task scheduler

The main loop waits for the timer, gives the items that are due to the workers and arms the timer for the earliest one that is
left.  When nothing is due, `Reset` is given the time left with the wrong sign, and `when` is not touched; and `resetTimer`
reads the clock once more.  So the timer follows the queue at wake-ups that find something due while the clock stands, and
else only by chance (`timer_follows_iff`).
-/

namespace Influxdb.Scheduler

open List

/-- An `Item`; `cron` answers the time behind another one, or an error. -/
structure Item where
  id : ℕ
  cron : Int → Option Int
  next : Int
  offset : Int

namespace Item

def when (it : Item) : Int := it.next + it.offset

def updateNext (it : Item) : Option Item := (it.cron it.next).map fun next => { it with next := next }

end Item

/-- `TreeScheduler`, with the time at which the timer fires; a time that is zero is `none`. -/
structure TreeScheduler where
  priorityQueue : List Item
  nextTime : ℕ → Option Int
  when : Option Int
  timer : Option Int

/-- What the clock says while the lock is held: at the wake-up, in `process`, before the timer is reset, once more, and when
the timer is reset. -/
structure Clock where
  woken : Int
  processed : Int
  before : Int
  again : Int
  reset : Int

namespace TreeScheduler

variable (s : TreeScheduler)

/-- The time of the least item. -/
def min? : Option Int := (s.priorityQueue.map (·.when)).min?

def delete (id : ℕ) (when : Int) : TreeScheduler :=
  { s with
    priorityQueue := s.priorityQueue.filter fun it => ¬(it.id = id ∧ it.when = when)
    nextTime := Function.update s.nextTime id none }

def replaceOrInsert (it : Item) : TreeScheduler :=
  { s with
    priorityQueue := it :: s.priorityQueue.filter fun it' => ¬(it'.id = it.id ∧ it'.when = it.when)
    nextTime := Function.update s.nextTime it.id (some it.when) }

/-- A timer fires at once if its duration is not positive. -/
def resetAt (now duration : Int) : TreeScheduler := { s with timer := some (now + max duration 0) }

/-- The items that are due and that a worker takes. -/
def toDelete (now : Int) (sent : Item → Bool) : List Item := s.priorityQueue.filter fun it => it.when ≤ now ∧ sent it

def process (now : Int) (sent : Item → Bool) : TreeScheduler :=
  ((s.toDelete now sent).filterMap Item.updateNext).foldl replaceOrInsert
    ((s.toDelete now sent).foldl (fun s it => s.delete it.id it.when) s)

/-- The loop of a wake-up, once; the answer says whether it goes back to waiting. -/
def wake (c : Clock) (sent : Item → Bool) : Bool × TreeScheduler :=
  match s.min? with
  | none => (true, { s with when := none })
  | some min =>
    if c.woken < min then (true, s.resetAt c.reset (c.woken - min))
    else
      match (s.process c.processed sent).min? with
      | none => (true, { s.process c.processed sent with when := none })
      | some min =>
        if 0 < min - c.before then
          (true, { (s.process c.processed sent).resetAt c.reset (min - c.before) with
            when := some (c.again + (min - c.before)) })
        else (false, { s.process c.processed sent with when := some min })

def release (id : ℕ) : TreeScheduler := (s.nextTime id).elim s (s.delete id)

/-- `Schedule` of an item with its first time. -/
def schedule (it : Item) (c : Clock) : TreeScheduler :=
  if s.when.all (it.when < ·) then
    (({ s.resetAt c.reset (if it.when - c.before ≤ 0 then 0 else it.when - c.again) with
      when := some it.when } : TreeScheduler).release it.id).replaceOrInsert it
  else (s.release it.id).replaceOrInsert it

/-- The timer and `when` are those of the earliest item. -/
def Follows : Prop := ∀ t, s.min? = some t → s.when = some t ∧ s.timer = some t

/-- The times that are left of a queue: an item that is due and that a worker takes has its next time, if it has one. -/
def timesLeft (now : Int) (sent : Item → Bool) : List Int :=
  s.priorityQueue.filterMap fun it => if it.when ≤ now ∧ sent it then it.updateNext.map (·.when) else some it.when

/-- The timer follows the queue behind a wake-up: something is due and the clock stands, or by chance the timer is reset just
when the earliest item becomes due. -/
def Meets (c : Clock) (sent : Item → Bool) : Prop :=
  ∀ t, s.min? = some t →
    (c.woken < t → s.when = some t ∧ c.reset = t) ∧
    (t ≤ c.woken → ∀ u, (s.timesLeft c.processed sent).min? = some u → c.before < u →
      c.again = c.before ∧ c.reset = c.before)

/-- No two items have the same id and time: the order of the tree tells them apart. -/
def Distinct : Prop := (s.priorityQueue.map fun it => (it.id, it.when)).Nodup

variable {s}

/-! ## What `process` leaves -/

theorem Distinct.delete (h : s.Distinct) (id : ℕ) (when : Int) : (s.delete id when).Distinct :=
  h.sublist (filter_sublist.map _)

theorem Distinct.release (h : s.Distinct) (id : ℕ) : (s.release id).Distinct := by
  rw [TreeScheduler.release]
  cases s.nextTime id with
  | none => exact h
  | some when => exact h.delete id when

theorem Distinct.replaceOrInsert (h : s.Distinct) (it : Item) : (s.replaceOrInsert it).Distinct := by
  refine nodup_cons.mpr ⟨fun hmem => ?_, h.sublist (filter_sublist.map _)⟩
  obtain ⟨it', hit', heq⟩ := mem_map.mp hmem
  have hkey := (mem_filter.mp hit').2
  obtain ⟨hid, hwhen⟩ := Prod.mk.inj heq
  simp [hid, hwhen] at hkey

theorem Distinct.process (h : s.Distinct) (now : Int) (sent : Item → Bool) : (s.process now sent).Distinct := by
  have hdelete : ∀ (l : List Item) {s : TreeScheduler}, s.Distinct →
      (l.foldl (fun s it => s.delete it.id it.when) s).Distinct := by
    intro l
    induction l with
    | nil => exact fun h => h
    | cons it l ih => exact fun h => ih (h.delete _ _)
  have hinsert : ∀ (l : List Item) {s : TreeScheduler}, s.Distinct → (l.foldl TreeScheduler.replaceOrInsert s).Distinct := by
    intro l
    induction l with
    | nil => exact fun h => h
    | cons it l ih => exact fun h => ih (h.replaceOrInsert it)
  exact hinsert _ (hdelete _ h)

theorem mem_foldl_delete {it : Item} (l : List Item) :
    it ∈ (l.foldl (fun s it => s.delete it.id it.when) s).priorityQueue ↔
      it ∈ s.priorityQueue ∧ ∀ d ∈ l, ¬(it.id = d.id ∧ it.when = d.when) := by
  induction l generalizing s with
  | nil => simp
  | cons d l ih =>
    rw [foldl_cons, ih, forall_mem_cons, ← and_assoc]
    refine and_congr_left fun _ => ?_
    simp only [delete, mem_filter, decide_eq_true_eq]

theorem mem_foldl_insert {t : Int} (l : List Item) :
    t ∈ (l.foldl replaceOrInsert s).priorityQueue.map (·.when) ↔
      t ∈ l.map (·.when) ∨ t ∈ s.priorityQueue.map (·.when) := by
  induction l generalizing s with
  | nil => simp
  | cons it l ih =>
    have hone : t ∈ (s.replaceOrInsert it).priorityQueue.map (·.when) ↔ t = it.when ∨ t ∈ s.priorityQueue.map (·.when) := by
      simp only [replaceOrInsert, map_cons, mem_cons, mem_map, mem_filter, decide_eq_true_eq]
      constructor
      · exact Or.imp_right fun ⟨it', ⟨hit', _⟩, ht⟩ => ⟨it', hit', ht⟩
      · rintro (rfl | ⟨it', hit', rfl⟩)
        · exact .inl rfl
        · by_cases hkey : it'.id = it.id ∧ it'.when = it.when
          · exact .inl hkey.2
          · exact .inr ⟨it', ⟨hit', hkey⟩, rfl⟩
    rw [foldl_cons, ih, hone, map_cons, mem_cons]
    tauto

/-- **`process`** leaves the items that are not taken and the next times of the others. -/
theorem mem_process (h : s.Distinct) {now t : Int} {sent : Item → Bool} :
    t ∈ (s.process now sent).priorityQueue.map (·.when) ↔ t ∈ s.timesLeft now sent := by
  have hkept : ∀ it ∈ s.priorityQueue, (∀ d ∈ s.toDelete now sent, ¬(it.id = d.id ∧ it.when = d.when)) ↔
      ¬(it.when ≤ now ∧ sent it = true) := by
    refine fun it hit => ⟨fun hall htaken => ?_, fun hnot d hd hkey => ?_⟩
    · exact hall it (mem_filter.mpr ⟨hit, by simpa using htaken⟩) ⟨rfl, rfl⟩
    · obtain ⟨hd, htaken⟩ := mem_filter.mp hd
      obtain rfl := inj_on_of_nodup_map h hit hd (Prod.ext hkey.1 hkey.2)
      exact hnot (by simpa using htaken)
  rw [process, mem_foldl_insert, timesLeft, mem_filterMap]
  simp only [mem_map, mem_filterMap, mem_foldl_delete]
  constructor
  · rintro (⟨it', ⟨it, hit, hnext⟩, rfl⟩ | ⟨it, ⟨hit, hall⟩, rfl⟩)
    · obtain ⟨hit, htaken⟩ := mem_filter.mp hit
      exact ⟨it, hit, by rw [if_pos (by simpa using htaken), hnext]; rfl⟩
    · exact ⟨it, hit, if_neg ((hkept it hit).mp hall)⟩
  · rintro ⟨it, hit, ht⟩
    split_ifs at ht with htaken
    · obtain ⟨it', hnext, rfl⟩ := Option.map_eq_some_iff.mp ht
      exact .inl ⟨it', ⟨it, mem_filter.mpr ⟨hit, by simpa using htaken⟩, hnext⟩, rfl⟩
    · exact .inr ⟨it, ⟨hit, (hkept it hit).mpr htaken⟩, Option.some.inj ht⟩

theorem min?_process (h : s.Distinct) (now : Int) (sent : Item → Bool) :
    (s.process now sent).min? = (s.timesLeft now sent).min? := by
  refine Option.ext fun t => ?_
  simp only [TreeScheduler.min?, List.min?_eq_some_iff, mem_process h]

/-! ## Wake-ups -/

theorem follows_iff {t : Int} (h : s.min? = some t) : s.Follows ↔ s.when = some t ∧ s.timer = some t := by
  simp [Follows, h]

theorem follows_of_none (h : s.min? = none) : s.Follows := by simp [Follows, h]

theorem wake_follows_iff (h : s.Distinct) {c : Clock} {sent : Item → Bool} :
    ((s.wake c sent).1 = true → (s.wake c sent).2.Follows) ↔ s.Meets c sent := by
  unfold wake Meets
  rw [← min?_process h]
  cases hmin : s.min? with
  | none => exact iff_of_true (fun _ => follows_of_none hmin) nofun
  | some t =>
    simp only [Option.some.injEq, forall_eq']
    by_cases hdue : c.woken < t
    · -- the duration is negative, so the timer fires at once
      have hzero : c.reset + max (c.woken - t) 0 = c.reset := by omega
      rw [if_pos hdue, imp_iff_right rfl, follows_iff (s := s.resetAt _ _) hmin]
      simp [resetAt, hzero, hdue, Int.not_le.mpr hdue]
    · rw [if_neg hdue]
      cases hleft : (s.process c.processed sent).min? with
      | none => exact iff_of_true (fun _ => follows_of_none hleft) ⟨fun h => absurd h hdue, nofun⟩
      | some u =>
        simp only [Option.some.injEq, forall_eq']
        by_cases hlate : c.before < u
        · have hmax : max (u - c.before) 0 = u - c.before := by omega
          rw [if_pos (Int.sub_pos_of_lt hlate), imp_iff_right rfl]
          refine (follows_iff (t := u) ?_).trans ?_
          · exact hleft
          · simp only [resetAt, hmax, Option.some.injEq]
            omega
        · simp [hdue, hlate]

/-- **`Schedule` of an earlier task** resets the timer. -/
theorem schedule_of_lt {it : Item} {t : Int} (h : s.Follows) (hmin : s.min? = some t) (hlt : it.when < t) (c : Clock) :
    (s.schedule it c).when = some it.when ∧ (s.schedule it c).timer =
      some (c.reset + max (if it.when - c.before ≤ 0 then 0 else it.when - c.again) 0) := by
  have hkept : ∀ s' : TreeScheduler, (s'.release it.id).when = s'.when ∧ (s'.release it.id).timer = s'.timer := fun s' => by
    rw [release]
    cases s'.nextTime it.id <;> exact ⟨rfl, rfl⟩
  rw [schedule, if_pos (by simp [(h t hmin).1, hlt])]
  exact ⟨(hkept _).1, (hkept _).2⟩

end TreeScheduler

open TreeScheduler

inductive Op where
  | schedule (it : Item) (c : Clock)
  | release (id : ℕ)
  | wake (c : Clock) (sent : Item → Bool)

def step (s : TreeScheduler) : Op → TreeScheduler
  | .schedule it c => s.schedule it c
  | .release id => s.release id
  | .wake c sent => (s.wake c sent).2

/-- A run from `NewScheduler` on. -/
def run (ops : List Op) : TreeScheduler := ops.foldl step ⟨[], fun _ => none, none, none⟩

theorem distinct_step {s : TreeScheduler} (h : s.Distinct) (op : Op) : (step s op).Distinct := by
  cases op with
  | schedule it c =>
    rw [step, schedule]
    split
    · refine Distinct.replaceOrInsert (Distinct.release ?_ it.id) it
      exact h
    · exact (h.release it.id).replaceOrInsert it
  | release id => exact h.release id
  | wake c sent =>
    rw [step, wake]
    split
    · exact h
    · split_ifs
      · exact h
      · have hleft := h.process c.processed sent
        split
        · exact hleft
        · split_ifs <;> exact hleft

/-- **Every run** keeps the items apart. -/
theorem distinct_run (ops : List Op) : (run ops).Distinct := by
  induction ops using List.reverseRecOn with
  | nil => exact nodup_nil
  | append_singleton ops op ih =>
    rw [run, foldl_append]
    exact distinct_step ih op

/-- **The timer follows the queue.**  In every run a wake-up that goes back to waiting leaves the timer and `when` at the
earliest time in the queue precisely if it meets the condition, and `Schedule` of a task before that time resets them. -/
theorem timer_follows_iff (ops : List Op) :
    ((∀ pre c sent, pre ++ [Op.wake c sent] <+: ops → ((run pre).wake c sent).1 = true → ((run pre).wake c sent).2.Follows) ↔
      ∀ pre c sent, pre ++ [Op.wake c sent] <+: ops → (run pre).Meets c sent) ∧
    ∀ it c t, (run ops).Follows → (run ops).min? = some t → it.when < t →
      ((run ops).schedule it c).when = some it.when ∧ ((run ops).schedule it c).timer =
        some (c.reset + max (if it.when - c.before ≤ 0 then 0 else it.when - c.again) 0) :=
  ⟨forall₃_congr fun _ _ _ => imp_congr_right fun _ => wake_follows_iff (distinct_run _),
    fun _ c _ h hmin hlt => schedule_of_lt h hmin hlt c⟩

/-- Two tasks, the first of which has been released. -/
def secondLeft : TreeScheduler :=
  run [.schedule ⟨1, fun _ => none, 10, 0⟩ ⟨0, 0, 0, 0, 0⟩, .schedule ⟨2, fun _ => none, 20, 0⟩ ⟨0, 0, 0, 0, 0⟩, .release 1]

/-- The wake-up for the first task finds nothing due, and the timer fires at once. -/
theorem wake_finds_nothing : secondLeft.timer = some 10 ∧ (secondLeft.wake ⟨10, 10, 10, 10, 10⟩ fun _ => true).1 = true ∧
    (secondLeft.wake ⟨10, 10, 10, 10, 10⟩ fun _ => true).2.min? = some 20 ∧
    (secondLeft.wake ⟨10, 10, 10, 10, 10⟩ fun _ => true).2.when = some 10 ∧
    (secondLeft.wake ⟨10, 10, 10, 10, 10⟩ fun _ => true).2.timer = some 10 := by
  decide

end Influxdb.Scheduler
