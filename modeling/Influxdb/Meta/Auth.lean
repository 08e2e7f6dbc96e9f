import Influxdb.Meta.Operations

/-!
# Auth — passwords and the authentication cache

`Client.Authenticate` remembers, for each user name, a salted digest of the last password that bcrypt accepted, and asks
this cache first.  `UpdateUser` forgets the entry of its user; no other operation that changes a stored hash does.  The
answers are right in a state exactly if no remembered password is stale (`answersRight_iff`), and a run keeps it so exactly
if every step meets a condition on the state before it (`history_right_iff`).  A `SetData` that the store refuses returns
with the lock held: from then on every call waits.
-/

namespace Influxdb.Meta

open Assoc Data Option List

variable {data : Data} {users : List UserInfo} {n : String}

/-! ## The client -/

/-- bcrypt and SHA-256. -/
structure Crypto (Digest : Type) where
  /-- `bcrypt.GenerateFromPassword`, with the randomness it uses; it refuses passwords that are too long. -/
  generate : ℕ → String → Except String String
  /-- `bcrypt.CompareHashAndPassword` -/
  compare : String → String → Bool
  hashWithSalt : ℕ → String → Digest

/-- On the passwords used, a generated hash matches the password it was made from and no other, and a salted digest has
one password. -/
structure Crypto.Faithful {Digest : Type} (crypto : Crypto Digest) (used : Set String) : Prop where
  compare_generate : ∀ r, ∀ p ∈ used, ∀ h, crypto.generate r p = .ok h → ∀ q ∈ used, (crypto.compare h q = true ↔ q = p)
  hashWithSalt_inj : ∀ salt, Set.InjOn (crypto.hashWithSalt salt) used

structure AuthUser (Digest : Type) where
  bhash : String
  salt : ℕ
  hash : Digest

structure Client (Digest : Type) where
  cacheData : Data
  authCache : List (String × AuthUser Digest)
  /-- A call has returned without giving the lock back. -/
  locked : Bool

/-- A call of the client.  `stored` is what the store answers to the update, `random` is the randomness that bcrypt draws,
`salt` is what `crypto/rand` answers, and `Reload` reads what the store holds. -/
inductive Call where
  | createUser (name password : String) (admin : Bool) (random : ℕ) (stored : Except String Unit)
  | updateUser (name password : String) (random : ℕ) (stored : Except String Unit)
  | dropUser (name : String) (stored : Except String Unit)
  | setData (data : Data) (stored : Except String Unit)
  | reload (snapshot : Option Data)
  | authenticate (name password : String) (salt : Except String ℕ)

/-- The password that a call comes with is one of those used. -/
def Call.Uses (used : Set String) : Call → Prop
  | .createUser _ password _ _ _ | .updateUser _ password _ _ | .authenticate _ password _ => password ∈ used
  | .dropUser _ _ | .setData _ _ | .reload _ => True

section Client

variable {Digest : Type} [DecidableEq Digest] (crypto : Crypto Digest)

namespace Client

variable (c : Client Digest)

def commit (data : Data) (stored : Except String Unit) : Client Digest × Except String Unit :=
  match stored with
  | .error e => (c, .error e)
  | .ok _ => ({ c with cacheData := { data with index := Data.inc data.index } }, .ok ())

def createUser (c : Client Digest) (name password : String) (admin : Bool) (random : ℕ)
    (stored : Except String Unit) : Client Digest × Except String UserInfo :=
  match c.cacheData.user name with
  | some u =>
    if !crypto.compare u.hash password || u.admin != admin then (c, .error errUserExists) else (c, .ok u)
  | none =>
    match crypto.generate random password with
    | .error e => (c, .error e)
    | .ok hash =>
      match c.cacheData.createUser name hash admin with
      | .error e => (c, .error e)
      | .ok data =>
        ((c.commit data stored).1, (c.commit data stored).2.map fun _ => ⟨name, hash, admin, ⟨[], List.nodup_nil⟩⟩)

def updateUser (c : Client Digest) (name password : String) (random : ℕ) (stored : Except String Unit) :
    Client Digest × Except String Unit :=
  match crypto.generate random password with
  | .error e => (c, .error e)
  | .ok hash =>
    match c.cacheData.updateUser name hash with
    | .error e => (c, .error e)
    | .ok data => commit { c with authCache := erase name c.authCache } data stored

def dropUser (c : Client Digest) (name : String) (stored : Except String Unit) : Client Digest × Except String Unit :=
  match c.cacheData.dropUser name with
  | .error e => (c, .error e)
  | .ok data => c.commit data stored

/-- `SetData` unlocks by hand, behind the return of a failed commit. -/
def setData (data : Data) (stored : Except String Unit) : Client Digest × Except String Unit :=
  match c.commit data stored with
  | (c, .error e) => ({ c with locked := true }, .error e)
  | (c, .ok _) => (c, .ok ())

def reload (snapshot : Option Data) : Client Digest :=
  match snapshot with
  | none => c
  | some data => { c with cacheData := data }

/-- The cache knows the password. -/
def remembers (name password : String) : Bool :=
  match get name c.authCache with
  | none => false
  | some au => crypto.hashWithSalt au.salt password = au.hash

def authenticate (name password : String) (salt : Except String ℕ) : Client Digest × Except String UserInfo :=
  match c.cacheData.user name with
  | none => (c, .error errUserNotFound)
  | some u =>
    if c.remembers crypto name password then (c, .ok u)
    else if !crypto.compare u.hash password then (c, .error errAuthenticate)
    else
      match salt with
      | .error e => (c, .error e)
      | .ok salt =>
        ({ c with authCache :=
            Assoc.put name ⟨u.hash, salt, crypto.hashWithSalt salt password⟩ c.authCache }, .ok u)

/-- What `Authenticate` answers; nothing while another call holds the lock. -/
def answer (name password : String) (salt : Except String ℕ) : Option (Except String UserInfo) :=
  if c.locked then none else some (c.authenticate crypto name password salt).2

/-- A call that gets the lock. -/
def act : Call → Client Digest
  | .createUser name password admin random stored => (c.createUser crypto name password admin random stored).1
  | .updateUser name password random stored => (c.updateUser crypto name password random stored).1
  | .dropUser name stored => (c.dropUser name stored).1
  | .setData data stored => (c.setData data stored).1
  | .reload snapshot => c.reload snapshot
  | .authenticate name password salt => (c.authenticate crypto name password salt).1

/-- A call: every one of them takes the lock first. -/
def step (call : Call) : Client Digest := if c.locked then c else c.act crypto call

variable (used : Set String)

/-- **Only the current password authenticates**, whichever user and password is asked for, if there is a salt. -/
def AnswersRight : Prop :=
  ∀ name, ∀ password ∈ used, ∀ salt : ℕ, (∃ u, c.answer crypto name password (.ok salt) = some (.ok u)) ↔
    ∃ u, c.cacheData.user name = some u ∧ crypto.compare u.hash password = true

/-- No remembered password is stale against `data`: what the cache knows for a user matches the user's hash. -/
def Current (data : Data) : Prop :=
  ∀ name, ∀ password ∈ used, ∀ u, c.remembers crypto name password = true → data.user name = some u →
    crypto.compare u.hash password = true

/-- Nobody could authenticate: a client that never answers is right only then. -/
def Silent : Prop :=
  ∀ name, ∀ password ∈ used, ∀ u, c.cacheData.user name = some u → crypto.compare u.hash password = false

/-- **The condition on a call**: a name with a remembered password must not get the hash of another one, and `SetData`
must not fail, unless nobody could authenticate anyway. -/
def Meets : Call → Prop
  | .createUser name password _ random stored =>
    name ≠ "" → c.cacheData.user name = none → (crypto.generate random password).isOk = true → stored = .ok () →
      (get name c.authCache).isSome = true → c.remembers crypto name password = true
  | .updateUser _ _ _ _ => True
  | .dropUser name stored =>
    stored = .ok () → ∀ password ∈ used, ∀ u, c.remembers crypto name password = true →
      (Data.removeUser name c.cacheData.users).find? (fun u => u.name = name) = some u →
        crypto.compare u.hash password = true
  | .setData data (.ok _) => c.Current crypto used data
  | .setData _ (.error _) => c.Silent crypto used
  | .reload snapshot => ∀ data, snapshot = some data → c.Current crypto used data
  | .authenticate _ _ _ => True

/-- Every entry of the cache is the digest of some password. -/
def Digests : Prop :=
  ∀ name au, get name c.authCache = some au → ∃ p ∈ used, crypto.hashWithSalt au.salt p = au.hash

/-! ## Right answers and stale passwords -/

variable {crypto used} {c : Client Digest} {name password : String}

theorem remembers_iff : c.remembers crypto name password = true ↔
    ∃ au, get name c.authCache = some au ∧ crypto.hashWithSalt au.salt password = au.hash := by
  rw [remembers]
  cases get name c.authCache with
  | none => simp
  | some au => simp

/-- **The answers are right** exactly if no remembered password is stale. -/
theorem answersRight_iff (hl : c.locked = false) : c.AnswersRight crypto used ↔ c.Current crypto used c.cacheData := by
  have hanswer : ∀ name password salt, c.answer crypto name password salt =
      some (c.authenticate crypto name password salt).2 := fun _ _ _ => if_neg (by simp [hl])
  constructor
  · intro h name password hp u hrem hu
    have hok : ∃ u, c.answer crypto name password (.ok 0) = some (.ok u) :=
      ⟨u, by simp [hanswer, authenticate, hu, hrem]⟩
    obtain ⟨u', hu', hcmp⟩ := (h name password hp 0).mp hok
    rw [some.inj (hu.symm.trans hu')]
    exact hcmp
  · intro h name password hp salt
    rw [hanswer]
    cases hu : c.cacheData.user name with
    | none => simp [authenticate, hu]
    | some u =>
      cases hrem : c.remembers crypto name password with
      | true => simp [authenticate, hu, hrem, h name password hp u hrem hu]
      | false => cases hcmp : crypto.compare u.hash password <;> simp [authenticate, hu, hrem, hcmp]

theorem answersRight_of_locked (hl : c.locked = true) : c.AnswersRight crypto used ↔ c.Silent crypto used := by
  have hanswer : ∀ name password salt, c.answer crypto name password salt = none := fun _ _ _ => if_pos hl
  constructor
  · intro h name password hp u hu
    by_contra hcmp
    obtain ⟨_, hok⟩ := (h name password hp 0).mpr ⟨u, hu, by simpa using hcmp⟩
    rw [hanswer] at hok
    cases hok
  · intro h name password hp salt
    rw [hanswer]
    refine iff_of_false (fun ⟨_, hok⟩ => by cases hok) ?_
    rintro ⟨u, hu, hcmp⟩
    rw [h name password hp u hu] at hcmp
    cases hcmp

/-! ## What a call does -/

variable {c' : Client Digest}

theorem current_congr {data' : Data}
    (hrem : ∀ name password, c'.remembers crypto name password = c.remembers crypto name password)
    (huser : ∀ name, data'.user name = data.user name) : c'.Current crypto used data' ↔ c.Current crypto used data := by
  refine forall₄_congr fun name password _ u => ?_
  rw [hrem, huser]

theorem current_commit (c : Client Digest) (data : Data) :
    (c.commit data (.ok ())).1.Current crypto used (c.commit data (.ok ())).1.cacheData ↔ c.Current crypto used data :=
  current_congr (fun _ _ => rfl) fun _ => rfl

theorem user_removeUser_of_ne (h : n ≠ name) :
    (removeUser name users).find? (fun u => u.name = n) = users.find? fun u => u.name = n := by
  induction users with
  | nil => rfl
  | cons u users ih =>
    rw [removeUser, eraseP_cons]
    by_cases hu : u.name = name
    · simp [hu, Ne.symm h]
    · simp only [hu, decide_false, cond_false, find?_cons]
      rw [← ih, removeUser]

theorem user_updateUser_of_ne {users' : List UserInfo} {hash : String} (h : n ≠ name)
    (hup : updateFirst (fun u => if u.name = name then some { u with hash := hash } else none) users = some users') :
    users'.find? (fun u => u.name = n) = users.find? fun u => u.name = n := by
  have hkeep : ∀ a b : UserInfo, (if a.name = name then some { a with hash := hash } else none) = some b →
      a.name = name ∧ b.name = a.name := by
    intro a b hab
    obtain ⟨hname, hb⟩ := ite_none_right_eq_some.mp hab
    rw [← some.inj hb]
    exact ⟨hname, rfl⟩
  have hfind := find?_updateFirst (p := fun u : UserInfo => u.name = n)
    (fun a b hab => by rw [(hkeep a b hab).2]) hup
  rcases hfind with hsame | ⟨a, b, ha, hab, -⟩
  · exact hsame
  · have han := find?_some (p := fun u : UserInfo => u.name = n) ha
    exact absurd ((of_decide_eq_true han).symm.trans (hkeep a b hab).1) h

theorem remembers_erase (hc : c'.authCache = erase name c.authCache) :
    c'.remembers crypto n password = true ↔ n ≠ name ∧ c.remembers crypto n password = true := by
  rw [remembers_iff, remembers_iff, hc, get_erase]
  by_cases hn : n = name <;> simp [hn]

theorem remembers_put {au : AuthUser Digest} (hc : c'.authCache = put name au c.authCache)
    : c'.remembers crypto n password = true ↔
      n = name ∧ crypto.hashWithSalt au.salt password = au.hash ∨ n ≠ name ∧ c.remembers crypto n password = true := by
  rw [remembers_iff, remembers_iff, hc]
  by_cases hn : n = name
  · subst hn
    simp
  · rw [get_put_of_ne hn]
    simp [hn]

/-- A new user of a name with a remembered password is right exactly if the password is the same. -/
theorem current_createUser {random : ℕ} {hash : String} {admin : Bool} (hc : crypto.Faithful used)
    (hpw : password ∈ used) (hdig : c.Digests crypto used) (hcur : c.Current crypto used c.cacheData)
    (hnone : c.cacheData.user name = none) (hgen : crypto.generate random password = .ok hash)
    (hdata : data.users = c.cacheData.users ++ [⟨name, hash, admin, ⟨[], nodup_nil⟩⟩]) : c.Current crypto used data ↔
      ((get name c.authCache).isSome = true → c.remembers crypto name password = true) := by
  have huser : ∀ n, n ≠ name → data.user n = c.cacheData.user n := by
    intro n hn
    rw [user, hdata, find?_append]
    simp [user, Ne.symm hn]
  have hnew : data.user name = some ⟨name, hash, admin, ⟨[], nodup_nil⟩⟩ := by
    rw [user] at hnone
    rw [user, hdata, find?_append, hnone]
    simp
  constructor
  · intro h hsome
    obtain ⟨au, hau⟩ := isSome_iff_exists.mp hsome
    obtain ⟨p, hp, hdigest⟩ := hdig name au hau
    have hrem : c.remembers crypto name p = true := remembers_iff.mpr ⟨au, hau, hdigest⟩
    have hcmp := h name p hp _ hrem hnew
    rw [← (hc.compare_generate random password hpw hash hgen p hp).mp hcmp]
    exact hrem
  · intro h n p hp u hrem hu
    by_cases hn : n = name
    · subst hn
      obtain rfl := some.inj (hnew.symm.trans hu)
      obtain ⟨au, hau, hdigest⟩ := remembers_iff.mp hrem
      obtain ⟨au', hau', hdigest'⟩ := remembers_iff.mp (h (by rw [hau]; rfl))
      obtain rfl := some.inj (hau.symm.trans hau')
      have heq := hc.hashWithSalt_inj _ hp hpw (hdigest.trans hdigest'.symm)
      exact (hc.compare_generate random password hpw hash hgen p hp).mpr heq
    · exact hcur n p hp u hrem ((huser n hn).symm.trans hu)

variable (hcur : c.Current crypto used c.cacheData)
include hcur

theorem current_dropUser (hdata : data.users = removeUser name c.cacheData.users) :
    c.Current crypto used data ↔ ∀ password ∈ used, ∀ u, c.remembers crypto name password = true →
      (removeUser name c.cacheData.users).find? (fun u => u.name = name) = some u →
        crypto.compare u.hash password = true := by
  rw [← hdata]
  constructor
  · exact fun h password hp u hrem hu => h name password hp u hrem hu
  · intro h n p hp u hrem hu
    by_cases hn : n = name
    · subst hn
      exact h p hp u hrem hu
    · rw [user, hdata, user_removeUser_of_ne hn] at hu
      exact hcur n p hp u hrem hu

theorem current_updateUser {c' : Client Digest} (hc : c'.authCache = erase name c.authCache)
    (huser : ∀ n, n ≠ name → c'.cacheData.user n = c.cacheData.user n) : c'.Current crypto used c'.cacheData := by
  intro n p hp u hrem hu
  obtain ⟨hn, hrem⟩ := (remembers_erase hc).mp hrem
  rw [huser n hn] at hu
  exact hcur n p hp u hrem hu

theorem current_authenticate (hc : crypto.Faithful used) (hpw : password ∈ used) (salt : Except String ℕ) :
    (c.authenticate crypto name password salt).1.Current crypto used
      (c.authenticate crypto name password salt).1.cacheData := by
  rw [authenticate]
  cases hu : c.cacheData.user name with
  | none => exact hcur
  | some u =>
    simp only
    by_cases hrem : c.remembers crypto name password = true
    · rw [if_pos hrem]
      exact hcur
    · rw [if_neg hrem]
      cases hcmp : crypto.compare u.hash password with
      | false => exact hcur
      | true =>
        cases salt with
        | error e => exact hcur
        | ok salt =>
          intro n p hp u' hrem' hu'
          rcases (remembers_put rfl).mp hrem' with ⟨rfl, hdigest⟩ | ⟨-, hold⟩
          · obtain rfl := some.inj (hu.symm.trans hu')
            rw [hc.hashWithSalt_inj _ hp hpw hdigest]
            exact hcmp
          · exact hcur n p hp u' hold hu'

theorem current_act_createUser (hc : crypto.Faithful used) (hdig : c.Digests crypto used) (hpw : password ∈ used)
    {admin : Bool} {random : ℕ} {stored : Except String Unit} {call : Call}
    (hcall : call = .createUser name password admin random stored) :
    (c.act crypto call).Current crypto used (c.act crypto call).cacheData ↔ c.Meets crypto used call := by
  subst hcall
  rw [act, createUser]
  cases hu : c.cacheData.user name with
  | some u =>
    have hsame : (if !crypto.compare u.hash password || u.admin != admin then (c, Except.error errUserExists)
        else (c, .ok u)).1 = c := by split_ifs <;> rfl
    simp only [hsame]
    exact iff_of_true hcur fun _ hnone => absurd (hu.symm.trans hnone) (by simp)
  | none =>
    cases hgen : crypto.generate random password with
    | error e => exact iff_of_true hcur fun _ _ hok => absurd hok (by simp [hgen, Except.isOk, Except.toBool])
    | ok hash =>
      by_cases hname : name = ""
      · have herr : c.cacheData.createUser name hash admin = .error errUsernameRequired := if_pos hname
        simp only [herr]
        exact iff_of_true hcur fun hne => absurd hname hne
      · have hok : c.cacheData.createUser name hash admin =
            .ok { c.cacheData with
              users := c.cacheData.users ++ [⟨name, hash, admin, ⟨[], nodup_nil⟩⟩]
              adminUserExists := admin || c.cacheData.adminUserExists } := by
          simp [Data.createUser, hname, hu]
        simp only [hok]
        cases stored with
        | error e => exact iff_of_true hcur fun _ _ _ hst => absurd hst (by simp)
        | ok _ =>
          rw [current_commit, current_createUser hc hpw hdig hcur hu hgen rfl]
          exact ⟨fun h _ _ _ _ => h, fun h => h hname hu (by rw [hgen]; rfl) rfl⟩

omit hcur

/-- **One call**: the answers stay right exactly if the call meets the condition. -/
theorem current_step_iff (hc : crypto.Faithful used) (hl : c.locked = false) (hdig : c.Digests crypto used)
    (hcur : c.Current crypto used c.cacheData) {call : Call} (hcall : call.Uses used)
    (hset : ∀ data e, call ≠ .setData data (.error e)) :
    (c.step crypto call).Current crypto used (c.step crypto call).cacheData ↔ c.Meets crypto used call := by
  rw [step, if_neg (by simp [hl])]
  cases call with
  | createUser name password admin random stored => exact current_act_createUser hcur hc hdig hcall rfl
  | updateUser name password random stored =>
    refine iff_of_true ?_ trivial
    rw [act, updateUser]
    cases hgen : crypto.generate random password with
    | error e => exact hcur
    | ok hash =>
      simp only [Data.updateUser]
      cases hup : updateFirst (fun u => if u.name = name then some { u with hash := hash } else none)
          c.cacheData.users with
      | none => exact hcur
      | some users =>
        cases stored with
        | error e => exact current_updateUser hcur rfl fun n _ => rfl
        | ok _ => exact current_updateUser hcur rfl fun n hn => user_updateUser_of_ne hn hup
  | dropUser name stored =>
    rw [act, dropUser, Data.dropUser]
    cases hu : c.cacheData.user name with
    | none =>
      refine iff_of_true hcur fun _ password _ u _ hfind => ?_
      have hsame : Data.removeUser name c.cacheData.users = c.cacheData.users :=
        eraseP_of_forall_not (find?_eq_none.mp hu)
      rw [hsame] at hfind
      exact absurd (hu.symm.trans hfind) (by simp)
    | some u =>
      cases stored with
      | error e => exact iff_of_true hcur fun hst => absurd hst (by simp)
      | ok _ =>
        rw [current_commit, current_dropUser hcur rfl]
        exact ⟨fun h _ => h, fun h => h rfl⟩
  | setData data stored =>
    cases stored with
    | error e => exact absurd rfl (hset data e)
    | ok _ => exact current_commit c data
  | reload snapshot =>
    cases snapshot with
    | none => exact iff_of_true hcur fun data hd => absurd hd (by simp)
    | some data =>
      exact (current_congr (fun _ _ => rfl) fun _ => rfl).trans
        ⟨fun h d hd => some.inj hd ▸ h, fun h => h data rfl⟩
  | authenticate name password salt => exact iff_of_true (current_authenticate hcur hc hcall salt) trivial

omit [DecidableEq Digest] in
theorem commit_same (c : Client Digest) (data : Data) (stored : Except String Unit) :
    (c.commit data stored).1.authCache = c.authCache ∧ (c.commit data stored).1.locked = c.locked := by
  cases stored <;> exact ⟨rfl, rfl⟩

variable (crypto used) in
/-- What a call can do to the cache: `UpdateUser` forgets a name, `Authenticate` stores a digest. -/
def CacheMove (l l' : List (String × AuthUser Digest)) : Prop :=
  l' = l ∨ (∃ name, l' = erase name l) ∨
    ∃ name bhash salt, ∃ p ∈ used, l' = put name ⟨bhash, salt, crypto.hashWithSalt salt p⟩ l

/-- What a call does to the cache and to the lock. -/
theorem step_moves (c : Client Digest) {call : Call} (hcall : call.Uses used) :
    CacheMove crypto used c.authCache (c.step crypto call).authCache ∧
      ((∀ data e, call ≠ .setData data (.error e)) → (c.step crypto call).locked = c.locked) := by
  rw [step]
  split_ifs with hl
  · exact ⟨.inl rfl, fun _ => rfl⟩
  cases call with
  | createUser name password admin random stored =>
    refine (?_ : _ ∧ _).imp .inl fun h _ => h
    rw [act, createUser]
    split
    · split_ifs <;> exact ⟨rfl, rfl⟩
    · split
      · exact ⟨rfl, rfl⟩
      · split
        · exact ⟨rfl, rfl⟩
        · exact commit_same c _ stored
  | updateUser name password random stored =>
    rw [act, updateUser]
    split
    · exact ⟨.inl rfl, fun _ => rfl⟩
    · split
      · exact ⟨.inl rfl, fun _ => rfl⟩
      · exact ⟨.inr (.inl ⟨name, (commit_same _ _ _).1⟩), fun _ => (commit_same _ _ _).2⟩
  | dropUser name stored =>
    rw [act, dropUser]
    split
    · exact ⟨.inl rfl, fun _ => rfl⟩
    · exact ⟨.inl (commit_same c _ stored).1, fun _ => (commit_same c _ stored).2⟩
  | setData data stored =>
    cases stored with
    | error e => exact ⟨.inl rfl, fun h => absurd rfl (h data e)⟩
    | ok _ => exact ⟨.inl rfl, fun _ => rfl⟩
  | reload snapshot => cases snapshot <;> exact ⟨.inl rfl, fun _ => rfl⟩
  | authenticate name password salt =>
    rw [act, authenticate]
    split
    · exact ⟨.inl rfl, fun _ => rfl⟩
    · split_ifs
      · exact ⟨.inl rfl, fun _ => rfl⟩
      · exact ⟨.inl rfl, fun _ => rfl⟩
      · cases salt with
        | error e => exact ⟨.inl rfl, fun _ => rfl⟩
        | ok salt => exact ⟨.inr (.inr ⟨name, _, salt, password, hcall, rfl⟩), fun _ => rfl⟩

theorem Digests.step (hdig : c.Digests crypto used) {call : Call} (hcall : call.Uses used) :
    (c.step crypto call).Digests crypto used := by
  intro n au hau
  have hmove : CacheMove crypto used c.authCache (c.step crypto call).authCache := (step_moves c hcall).1
  rcases hmove with hsame | ⟨name, herase⟩ | ⟨name, bhash, salt, p, hp, hput⟩
  · rw [hsame] at hau
    exact hdig n au hau
  · rw [herase, get_erase] at hau
    split_ifs at hau
    exact hdig n au hau
  · rw [hput] at hau
    by_cases hn : n = name
    · subst hn
      rw [get_put_self] at hau
      rw [← some.inj hau]
      exact ⟨p, hp, rfl⟩
    · rw [get_put_of_ne hn] at hau
      exact hdig n au hau

/-! ## Histories -/

variable (crypto used) in
/-- The answers are right at every moment of a history. -/
def AllRight : Client Digest → List Call → Prop
  | c, [] => c.AnswersRight crypto used
  | c, call :: calls => c.AnswersRight crypto used ∧ AllRight (c.step crypto call) calls

variable (crypto used) in
/-- Every call of a history that gets the lock meets the condition. -/
def AllMeet : Client Digest → List Call → Prop
  | _, [] => True
  | c, call :: calls => (c.locked = false → c.Meets crypto used call) ∧ AllMeet (c.step crypto call) calls

theorem AllRight.head {calls : List Call} (h : AllRight crypto used c calls) : c.AnswersRight crypto used := by
  cases calls with
  | nil => exact h
  | cons call calls => exact h.1

/-- **A client that waits** stays as it is. -/
theorem locked_history (hl : c.locked = true) (calls : List Call) :
    (AllRight crypto used c calls ↔ c.Silent crypto used) ∧ AllMeet crypto used c calls := by
  induction calls with
  | nil => exact ⟨answersRight_of_locked hl, trivial⟩
  | cons call calls ih =>
    have hstep : c.step crypto call = c := if_pos hl
    rw [AllRight, AllMeet, hstep, ih.1, answersRight_of_locked hl, and_self]
    exact ⟨Iff.rfl, fun h => absurd (hl.symm.trans h) (by simp), ih.2⟩

theorem allRight_iff (hc : crypto.Faithful used) (hl : c.locked = false) (hdig : c.Digests crypto used)
    (hcur : c.Current crypto used c.cacheData) (calls : List Call) (hcalls : ∀ call ∈ calls, call.Uses used) :
    AllRight crypto used c calls ↔ AllMeet crypto used c calls := by
  induction calls generalizing c with
  | nil => exact iff_of_true ((answersRight_iff hl).mpr hcur) trivial
  | cons call calls ih =>
    obtain ⟨hcall, hcalls⟩ := forall_mem_cons.mp hcalls
    rw [AllRight, AllMeet, and_iff_right ((answersRight_iff hl).mpr hcur)]
    by_cases hset : ∃ data e, call = .setData data (.error e)
    · -- the lock is never given back
      obtain ⟨data, e, rfl⟩ := hset
      have hstep : c.step crypto (.setData data (.error e)) = { c with locked := true } := if_neg (by simp [hl])
      obtain ⟨hright, hmeet⟩ : (AllRight crypto used { c with locked := true } calls ↔ _) ∧ AllMeet crypto used _ calls :=
        locked_history rfl calls
      rw [hstep, hright, and_iff_left hmeet, imp_iff_right hl]
      exact Iff.rfl
    · simp only [not_exists] at hset
      have hstep := current_step_iff hc hl hdig hcur hcall hset
      have hl' : (c.step crypto call).locked = false := ((step_moves c hcall).2 hset).trans hl
      constructor
      · intro h
        have hcur' := (answersRight_iff hl').mp h.head
        exact ⟨fun _ => hstep.mp hcur', (ih hl' (hdig.step hcall) hcur' hcalls).mp h⟩
      · intro h
        exact (ih hl' (hdig.step hcall) (hstep.mpr (h.1 hl)) hcalls).mpr h.2

/-- **Only the current password authenticates.**  A client starts with an empty cache.  At every moment of a history,
`Authenticate(u, p)` succeeds if and only if user `u` exists and `p` matches the stored hash, exactly if every call of the
history meets the condition. -/
theorem history_right_iff (crypto : Crypto Digest) (used : Set String) (hc : crypto.Faithful used) (data : Data)
    (calls : List Call) (hcalls : ∀ call ∈ calls, call.Uses used) :
    AllRight crypto used ⟨data, [], false⟩ calls ↔ AllMeet crypto used ⟨data, [], false⟩ calls := by
  refine allRight_iff hc rfl (fun name au hau => ?_) (fun name password _ u hrem => ?_) calls hcalls
  · cases hau
  · cases hrem

end Client

/-- Passwords that are their own hashes and digests; the longest that bcrypt takes has 72 bytes. -/
def plainCrypto : Crypto String where
  generate _ p := if 72 < p.utf8ByteSize then .error "bcrypt: password length exceeds 72 bytes" else .ok p
  compare h p := h == p
  hashWithSalt _ p := p

theorem plainCrypto_faithful (used : Set String) : plainCrypto.Faithful used := by
  refine ⟨fun r p _ h hgen q _ => ?_, fun salt p _ q _ heq => heq⟩
  simp only [plainCrypto] at hgen
  split_ifs at hgen
  cases hgen
  rw [plainCrypto, beq_iff_eq]
  exact eq_comm

/-- A user logs in, changes the password, logs in again and is dropped. -/
def changedPassword : List Call :=
  [.createUser "u" "old" false 0 (.ok ()), .authenticate "u" "old" (.ok 1), .updateUser "u" "new" 2 (.ok ()),
    .authenticate "u" "new" (.ok 3), .dropUser "u" (.ok ()), .createUser "v" "old" true 4 (.ok ())]

theorem changed_password_right :
    Client.AllRight plainCrypto {"old", "new"} ⟨⟨1, 1, 1, [], [], false, 0, 0⟩, [], false⟩ changedPassword := by
  refine (Client.history_right_iff _ _ (plainCrypto_faithful _) _ _ (by simp [changedPassword, Call.Uses])).mpr ?_
  refine ⟨fun _ _ _ _ _ h => ?_, fun _ => trivial, fun _ => trivial, fun _ => trivial, fun _ _ p _ u _ h => ?_,
    fun _ _ _ _ _ h => ?_, trivial⟩
  · cases h
  · cases h
  · cases h

/-- A user logs in, is dropped and is made again with a new password. -/
def reusedName : List Call :=
  [.createUser "u" "old" false 0 (.ok ()), .authenticate "u" "old" (.ok 1), .dropUser "u" (.ok ()),
    .createUser "u" "new" false 2 (.ok ())]

/-- The old password still authenticates, although it does not match the stored hash; and after a `SetData` that the store
has refused the right one is not answered. -/
theorem old_password_authenticates :
    (∃ u, (reusedName.foldl (Client.step plainCrypto) ⟨⟨1, 1, 1, [], [], false, 0, 0⟩, [], false⟩).answer plainCrypto
        "u" "old" (.ok 3) = some (.ok u) ∧ plainCrypto.compare u.hash "old" = false) ∧
      ([.createUser "u" "old" false 0 (.ok ()), .setData ⟨1, 1, 1, [], [], false, 0, 0⟩ (.error "disk full")].foldl
        (Client.step plainCrypto) ⟨⟨1, 1, 1, [], [], false, 0, 0⟩, [], false⟩).answer plainCrypto "u" "old" (.ok 3) = none :=
  ⟨⟨_, rfl, by decide⟩, rfl⟩

end Client

end Influxdb.Meta
