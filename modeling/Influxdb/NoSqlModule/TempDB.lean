import Mathlib.Data.Finset.Basic

/-!
# TempDB — creating a temporary database (`tempdb.go`)

`CreateTempDB` creates an organization, a user with a password, their mapping and an authorization, and deletes what there is
already when a later call fails.  The deletion of the mapping gets the user for the resource and the organization for the
user, so a mapping that was created stays.
-/

namespace Influxdb.NoSqlModule

variable {ID : Type} [DecidableEq ID]

/-- What the services store; a mapping is a resource with a user. -/
@[ext]
structure Services (ID : Type) where
  orgs : Finset ID
  users : Finset ID
  mappings : Finset (ID × ID)
  auths : Finset ID
deriving DecidableEq

namespace Services

variable (id : ID)

variable (s : Services ID)

def deleteOrganization : Services ID := { s with orgs := s.orgs.erase id }

def deleteUser : Services ID := { s with users := s.users.erase id }

def deleteUserResourceMapping (resourceID userID : ID) (s : Services ID) : Services ID :=
  { s with mappings := s.mappings.erase (resourceID, userID) }

def deleteAuthorization : Services ID := { s with auths := s.auths.erase id }

end Services

/-- Whether a password is generated, and what the services answer to the calls: an object is created under the id, or the call
fails. -/
structure Outcomes (ID : Type) where
  random : Bool
  org : Option ID
  user : Option ID
  password : Bool
  mapping : Bool
  auth : Option ID

structure TempDB (ID : Type) where
  org : ID
  user : ID
  auth : ID
deriving DecidableEq

/-- The id of a new object; an id that is taken is an error. -/
def created (o : Option ID) (s : Finset ID) : Option ID := o.filter (· ∉ s)

variable (o : Outcomes ID)

variable (s : Services ID)

/-- `CreateTempDB`, and the services behind it. -/
def createTempDB : Except String (TempDB ID) × Services ID :=
  if o.random = false then (.error "failed to generate password", s)
  else match created o.org s.orgs with
  | none => (.error "failed to create temporary organization", s)
  | some org =>
    let s := { s with orgs := insert org s.orgs }
    match created o.user s.users with
    | none => (.error "failed to create temporary user", s.deleteOrganization org)
    | some user =>
      let s := { s with users := insert user s.users }
      if o.password = false then
        (.error "failed to set password for user", (s.deleteUser user).deleteOrganization org)
      else if o.mapping = false ∨ (org, user) ∈ s.mappings then
        (.error "failed to add user as member of organization", (s.deleteUser user).deleteOrganization org)
      else
        let s := { s with mappings := insert (org, user) s.mappings }
        match created o.auth s.auths with
        | none =>
          (.error "failed to create temporary authorization",
            ((s.deleteUserResourceMapping user org).deleteUser user).deleteOrganization org)
        | some auth => (.ok ⟨org, user, auth⟩, { s with auths := insert auth s.auths })

/-- What is scheduled for ten minutes later. -/
def cleanup (t : TempDB ID) (s : Services ID) : Services ID :=
  (((s.deleteAuthorization t.auth).deleteUserResourceMapping t.user t.org).deleteUser t.user).deleteOrganization t.org

/-- The services once a call has failed, or has been cleaned up. -/
def settled : Services ID :=
  match createTempDB o s with
  | (.error _, s) => s
  | (.ok t, s) => cleanup t s

theorem notMem_of_created {o : Option ID} {t : Finset ID} {id : ID} (h : created o t = some id) : id ∉ t := by
  simpa using (Option.filter_eq_some_iff.mp h).2

/-- Only the id of both decides whether the mapping is deleted. -/
theorem erase_swap_insert {s : Finset (ID × ID)} {org user : ID} (h : (org, user) ∉ s) :
    (insert (org, user) s).erase (user, org) = s ↔ org = user := by
  constructor
  · intro heq
    by_contra hne
    refine h (heq ▸ Finset.mem_erase.mpr ⟨fun hswap => hne (Prod.mk.inj hswap).1, Finset.mem_insert_self _ _⟩)
  · rintro rfl
    exact Finset.erase_insert h

/-- **All or nothing** holds exactly if no mapping is created, or one id stands for the organization and the user. -/
theorem settled_eq_iff : settled o s = s ↔
    (o.random = true → ∀ org, created o.org s.orgs = some org → ∀ user, created o.user s.users = some user →
      o.password = true → o.mapping = true → (org, user) ∉ s.mappings → org = user) := by
  rw [settled, createTempDB]
  rcases hrandom : o.random
  · exact iff_of_true rfl nofun
  rw [if_neg nofun, forall_prop_of_true rfl]
  rcases horg : created o.org s.orgs with _ | org
  · exact iff_of_true rfl nofun
  have herase := Finset.erase_insert (notMem_of_created horg)
  dsimp only
  rcases huser : created o.user s.users with _ | user
  · exact iff_of_true (Services.ext herase rfl rfl rfl) fun _ _ _ h => nomatch h
  have herase' := Finset.erase_insert (notMem_of_created huser)
  have hundo : (({ s with orgs := insert org s.orgs, users := insert user s.users } : Services ID).deleteUser
      user).deleteOrganization org = s := Services.ext herase herase' rfl rfl
  dsimp only
  simp only [Option.some.injEq, forall_eq']
  split_ifs with hpassword hmapping
  · exact iff_of_true hundo fun h => nomatch hpassword.symm.trans h
  · refine iff_of_true hundo fun _ h hnew => absurd hmapping ?_
    rintro (hno | hold)
    · cases hno.symm.trans h
    · exact hnew hold
  obtain ⟨hmade, hnew⟩ := not_or.mp hmapping
  rw [forall_prop_of_true (by simpa using hpassword), forall_prop_of_true (by simpa using hmade),
    forall_prop_of_true hnew, ← erase_swap_insert hnew]
  -- all but the mapping is as before, with or without an authorization
  rcases hauth : created o.auth s.auths with _ | auth
  · exact ⟨congrArg Services.mappings, fun h => Services.ext herase herase' h rfl⟩
  · refine ⟨congrArg Services.mappings, fun h => Services.ext herase herase' h ?_⟩
    exact Finset.erase_insert (notMem_of_created hauth)

/-- The authorization fails, or nothing does: the mapping stays either way. -/
theorem mapping_stays : settled ⟨true, some 1, some 2, true, true, none⟩ ⟨∅, ∅, ∅, ∅⟩ = (⟨∅, ∅, {(1, 2)}, ∅⟩ : Services ℕ) ∧
    settled ⟨true, some 1, some 2, true, true, some 3⟩ ⟨∅, ∅, ∅, ∅⟩ = (⟨∅, ∅, {(1, 2)}, ∅⟩ : Services ℕ) := by
  decide

end Influxdb.NoSqlModule
