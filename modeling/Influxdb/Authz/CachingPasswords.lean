import Mathlib.Logic.Function.Basic
import Mathlib.Data.List.Infix

/-!
# CachingPasswords — the password cache (`caching_password_service.go`)

Any number of calls run at once, and a schedule picks the one that makes the next atomic step.  A comparison that has passed
the inner service stores its password in a later step, even if the password was changed and removed from the cache since.
-/

namespace Influxdb.Authz

open Function

/-- The methods of `CachingPasswordsService`. -/
inductive PasswordCall
  | comparePassword (id : ℕ) (password : String)
  | setPassword (id : ℕ) (password : String)
  | compareAndSetPassword (id : ℕ) (old new : String)
deriving DecidableEq

/-- The step a call makes next, or its result. -/
inductive Progress
  | started
  | comparing
  | storing
  | removing
  | returned (ok : Bool)
deriving DecidableEq

/-- The passwords of the inner service, the salts and hashes of the cache, and the calls. -/
structure CachingPasswords where
  inner : ℕ → Option String
  authCache : ℕ → Option (List UInt8 × List UInt8)
  calls : ℕ → Progress

/-- A call makes a step: whether the inner service works, and the salt if one can be read. -/
structure Turn where
  call : ℕ
  works : Bool
  salt : Option (List UInt8)

namespace CachingPasswords

variable (op : ℕ → PasswordCall) (hash : List UInt8 → String → List UInt8) (s : CachingPasswords) (id : ℕ) (p : String)

variable (c : ℕ)

def goto (next : Progress) : CachingPasswords := { s with calls := update s.calls c next }

/-- The inner service changes a password, or fails. -/
def change (ok : Bool) : CachingPasswords :=
  if ok then { s.goto c .removing with inner := update s.inner id (some p) } else s.goto c (.returned false)

/-- The cache has a hash of the password. -/
def cached : Bool := (s.authCache id).any fun au => hash au.1 p == au.2

/-- One atomic step. -/
def step (t : Turn) : CachingPasswords :=
  match op t.call, s.calls t.call with
  | .comparePassword id p, .started => s.goto t.call (if s.cached hash id p then .returned true else .comparing)
  | .comparePassword id p, .comparing =>
    s.goto t.call (if t.works ∧ s.inner id = some p then .storing else .returned false)
  | .comparePassword id p, .storing => { s.goto t.call (.returned true) with
      authCache := t.salt.elim s.authCache fun salt => update s.authCache id (some (salt, hash salt p)) }
  | .setPassword id p, .started => s.change id p t.call t.works
  | .compareAndSetPassword id old new, .started => s.change id new t.call (t.works ∧ s.inner id = some old)
  | .setPassword id _, .removing | .compareAndSetPassword id _ _, .removing =>
    { s.goto t.call (.returned true) with authCache := update s.authCache id none }
  | _, _ => s

def run (ts : List Turn) : CachingPasswords := ts.foldl (step op hash) s

/-- As long as the password stays `q`, call `c` returns after two turns of its own, with an error. -/
def Rejects (q : String) : Prop :=
  ∀ ts : List Turn, (∀ ts' ∈ ts.inits, (run op hash s ts').inner id = some q) →
    (2 ≤ ts.countP (·.call = c) → ∃ ok, (run op hash s ts).calls c = .returned ok) ∧
    ∀ ok, (run op hash s ts).calls c = .returned ok → ok = false

/-- The password is not in the cache, and no comparison is about to store it. -/
def Gone : Prop := s.cached hash id p = false ∧ ∀ c, op c = .comparePassword id p → s.calls c ≠ .storing

variable {op hash s id p}

variable {c : ℕ} {t : Turn}

/-- A call that moves on leaves the password out, if its own step does. -/
theorem Gone.move (h : s.Gone op hash id p) {s' : CachingPasswords} {next : Progress}
    (hn : op c = .comparePassword id p → next ≠ .storing) (hs : s'.calls = update s.calls c next)
    (hcache : s'.cached hash id p = false) : s'.Gone op hash id p := by
  refine ⟨hcache, fun c' hc' => ?_⟩
  rw [hs, update_apply]
  split_ifs with heq
  · exact hn (heq ▸ hc')
  · exact h.2 c' hc'

/-- No step brings a wrong password back, as long as no password that is compared has the same hash. -/
theorem Gone.step (h : s.Gone op hash id p)
    (hh : ∀ c' p' salt, op c' = .comparePassword id p' → hash salt p' = hash salt p → p' = p)
    (hp : s.inner id ≠ some p) (t : Turn) : (s.step op hash t).Gone op hash id p := by
  unfold CachingPasswords.step
  split
  case h_1 | h_2 => exact h.move (fun heq => by simp_all [Gone]) rfl h.1
  case h_3 id' p' hop hst =>
    have hne : op t.call ≠ .comparePassword id p := fun heq => h.2 _ heq hst
    refine h.move (absurd · hne) rfl ?_
    cases t.salt with
    | none => exact h.1
    | some salt =>
      by_cases hid : id = id'
      · have hp' : hash salt p ≠ hash salt p' := fun heq => hne (hh _ _ _ (hid ▸ hop) heq.symm ▸ hid ▸ hop)
        simp [cached, hid, hp']
      · simpa [cached, hid] using h.1
  case h_4 | h_5 =>
    unfold change
    split_ifs <;> exact h.move (fun heq => by simp_all) rfl h.1
  case h_6 | h_7 =>
    refine h.move (fun heq => by simp_all) rfl ?_
    have := h.1
    simp only [cached, update_apply] at this ⊢
    split_ifs <;> simp [this]
  case h_8 => exact h

/-- How far a comparison with a wrong password is after some turns. -/
def wrong : ℕ → Progress
  | 0 => .started
  | 1 => .comparing
  | _ + 2 => .returned false

theorem step_calls_of_ne (h : c ≠ t.call) : (s.step op hash t).calls c = s.calls c := by
  unfold step
  split
  case h_4 | h_5 =>
    unfold change
    split_ifs <;> exact update_of_ne h ..
  case h_8 => rfl
  all_goals exact update_of_ne h ..

theorem step_wrong (hc : op c = .comparePassword id p) (h : s.cached hash id p = false) (hp : s.inner id ≠ some p)
    (ht : t.call = c) {k : ℕ} (hk : s.calls c = wrong k) : (s.step op hash t).calls c = wrong (k + 1) := by
  match k with
  | 0 | 1 | k + 2 => simp_all [step, goto, wrong]

/-- Along a run in which the password stays another one, it stays out, and its comparison fails in its second turn. -/
theorem Gone.run (h : s.Gone op hash id p) (hc : op c = .comparePassword id p) (hs : s.calls c = .started)
    (hh : ∀ c' p' salt, op c' = .comparePassword id p' → hash salt p' = hash salt p → p' = p) {ts : List Turn}
    (hts : ∀ ts' ∈ ts.inits, (s.run op hash ts').inner id ≠ some p) :
    (s.run op hash ts).Gone op hash id p ∧ (s.run op hash ts).calls c = wrong (ts.countP (·.call = c)) := by
  induction ts using List.reverseRecOn with
  | nil => exact ⟨h, hs⟩
  | append_singleton ts t ih =>
    obtain ⟨hgone, hcalls⟩ := ih fun ts' hts' => hts ts' (by simp_all)
    have hp : (s.run op hash ts).inner id ≠ some p := hts ts (by simp)
    have hrun : s.run op hash (ts ++ [t]) = (s.run op hash ts).step op hash t := by simp [CachingPasswords.run]
    rw [hrun]
    refine ⟨hgone.step hh hp t, ?_⟩
    by_cases ht : t.call = c
    · simpa [ht] using step_wrong hc hgone.1 hp ht hcalls
    · simpa [ht] using (step_calls_of_ne (Ne.symm ht)).trans hcalls

/-- **An old password stops working** exactly if it is not in the cache and no comparison is about to store it. -/
theorem rejects_iff {q : String} (hc : op c = .comparePassword id p) (hs : s.calls c = .started)
    (hq : s.inner id = some q) (hpq : p ≠ q)
    (hh : ∀ c' p' salt, op c' = .comparePassword id p' → hash salt p' = hash salt p → p' = p) :
    s.Rejects op hash id c q ↔ s.Gone op hash id p := by
  constructor
  · intro h
    refine ⟨?_, fun c' hc' hst => ?_⟩
    · by_contra hcached
      exact absurd ((h [⟨c, true, none⟩] (by simp [run, step, goto, hc, hs, hq])).2 true
        (by simp [run, step, goto, hc, hs, hcached])) (by simp)
    · have hne : c ≠ c' := fun heq => by simp [← heq, hs] at hst
      exact absurd ((h [⟨c', true, some []⟩, ⟨c, true, none⟩]
        (by simp [run, step, goto, hc, hs, hc', hst, hq, hne])).2 true
        (by simp [run, step, goto, hc, hs, hc', hst, cached, hne])) (by simp)
  · intro h ts hts
    have hstays : ∀ ts' ∈ ts.inits, (s.run op hash ts').inner id ≠ some p := fun ts' hts' => by
      simp [hts ts' hts', hpq.symm]
    rw [(h.run hc hs hh hstays).2]
    generalize List.countP _ ts = k
    match k with
    | 0 | 1 => simp [wrong]
    | k + 2 => exact ⟨fun _ => ⟨false, rfl⟩, fun ok hok => (Progress.returned.inj hok).symm⟩

/-- A change of the password, a comparison of the new one, and comparisons of the old one. -/
def changeCalls (c : ℕ) : PasswordCall :=
  if c = 1 then .setPassword 0 "new" else if c = 2 then .comparePassword 0 "new" else .comparePassword 0 "old"

/-- A hash that keeps all of the password. -/
def plainHash (salt : List UInt8) (p : String) : List UInt8 := salt ++ p.toList.map fun ch => ch.toNat.toUInt8

/-- The old password was in the cache; it has been changed, and the new one has been stored. -/
def changed : CachingPasswords :=
  run changeCalls plainHash ⟨fun _ => some "old", fun _ => some ([1], plainHash [1] "old"), fun _ => .started⟩
    [⟨1, true, none⟩, ⟨1, true, none⟩, ⟨2, true, none⟩, ⟨2, true, none⟩, ⟨2, true, some [7]⟩]

theorem plainHash_inj (c : ℕ) (p : String) (salt : List UInt8) (hc : changeCalls c = .comparePassword 0 p)
    (h : plainHash salt p = plainHash salt "old") : p = "old" := by
  unfold changeCalls at hc
  split_ifs at hc
  · obtain rfl : "new" = p := (PasswordCall.comparePassword.inj hc).2
    exact absurd (List.append_cancel_left h) (by decide)
  · exact (PasswordCall.comparePassword.inj hc).2.symm

theorem old_password_rejected : changed.calls 1 = .returned true ∧ changed.cached plainHash 0 "new" = true ∧
    Rejects changeCalls plainHash changed 0 0 "new" := by
  have hgone : changed.Gone changeCalls plainHash 0 "old" := by
    refine ⟨by decide, fun c hc => ?_⟩
    have h₁ : c ≠ 1 := fun heq => absurd (heq ▸ hc) (by decide)
    have h₂ : c ≠ 2 := fun heq => absurd (heq ▸ hc) (by decide)
    simp [changed, run, step, goto, change, changeCalls, cached, plainHash, h₁, h₂]
  refine ⟨rfl, by decide, ?_⟩
  exact (rejects_iff rfl rfl rfl (show "old" ≠ "new" by decide) plainHash_inj).mpr hgone

/-- Whatever the hash: the first comparison is overtaken by a change, and the second one is answered from the cache. -/
theorem old_password_works : ∃ op, ∃ (s : CachingPasswords) (ts : List Turn), op 1 = .setPassword 0 "new" ∧
    op 2 = .comparePassword 0 "old" ∧ ∀ hash, (s.run op hash ts).calls 1 = .returned true ∧
      (s.run op hash ts).calls 2 = .started ∧ ¬ (s.run op hash ts).Rejects op hash 0 2 "new" := by
  refine ⟨fun c => if c = 1 then .setPassword 0 "new" else .comparePassword 0 "old",
    ⟨fun _ => some "old", fun _ => none, fun _ => .started⟩, [0, 0, 1, 1].map (⟨·, true, none⟩), rfl, rfl,
    fun hash => ⟨rfl, rfl, fun h => absurd ((h [⟨0, true, some []⟩, ⟨2, true, none⟩] ?_).2 true ?_) (by simp)⟩⟩ <;>
    simp [run, step, goto, change, cached]

end CachingPasswords

end Influxdb.Authz
