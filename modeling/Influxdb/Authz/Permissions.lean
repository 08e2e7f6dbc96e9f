import Mathlib.Data.List.Chain

/-!
# Permissions — what a created authorization may do (`authz.go`, `authorizer/auth.go`)

A caller may give a new authorization the permissions that its own set allows.  A permission with a resource id matches
that id in every organization, so one that is allowed for its organization only can reach further than the set that
allowed it.  `delegations_within_iff` says when a chain of authorizations stays within the first set.
-/

namespace Influxdb.Authz

inductive Action where
  | read
  | write
deriving DecidableEq

/-- `ResourceType`; the last one is `InstanceResourceType`. -/
inductive ResourceType where
  | authorizations | buckets | dashboards | orgs | sources | tasks | telegrafs | users | variables | scrapers | secrets
  | labels | views | documents | notificationRules | notificationEndpoints | checks | dbrp | notebooks | annotations
  | remotes | replications | whole
deriving DecidableEq

abbrev ID := BitVec 64

structure Resource where
  type : ResourceType
  id : Option ID
  orgID : Option ID
deriving DecidableEq

structure Permission where
  action : Action
  resource : Resource
deriving DecidableEq

/-- `matchesV1`, which `Matches` calls. -/
def Permission.matchesV1 (p perm : Permission) : Bool :=
  if p.action ≠ perm.action then false
  else if p.resource.type = .whole then true
  else if p.resource.type ≠ perm.resource.type then false
  else if p.resource.orgID = none ∧ p.resource.id = none then true
  else if p.resource.orgID ≠ none ∧ p.resource.id = none ∧ perm.resource.orgID = p.resource.orgID then true
  else decide (p.resource.id ≠ none ∧ perm.resource.id = p.resource.id)

def permissionAllowed (perm : Permission) (ps : List Permission) : Bool := ps.any (·.matchesV1 perm)

/-- `VerifyPermissions` for a caller with the set `pset`; the error names the permission that is not allowed. -/
def verifyPermissions (pset : List Permission) : List Permission → Except Permission Unit
  | [] => .ok ()
  | p :: ps => if permissionAllowed p pset then verifyPermissions pset ps else .error p

/-- The permission without its organization. -/
def Permission.anywhere (p : Permission) : Permission := { p with resource := { p.resource with orgID := none } }

/-- Everything that `qs` grants is granted by `ps`. -/
def Within (qs ps : List Permission) : Prop := ∀ perm, permissionAllowed perm qs → permissionAllowed perm ps

/-- The sets of authorizations, each created with the one before it, the first one with `ps`. -/
def Delegations (ps : List Permission) : Type :=
  { chain : List (List Permission) // (ps :: chain).IsChain fun pset qs => verifyPermissions pset qs = .ok () }

variable {p q perm : Permission} {ps qs pset : List Permission}

theorem matchesV1_iff : p.matchesV1 perm ↔ p.action = perm.action ∧ (p.resource.type = .whole ∨
    p.resource.type = perm.resource.type ∧ (p.resource.orgID = none ∧ p.resource.id = none ∨
      p.resource.orgID ≠ none ∧ p.resource.id = none ∧ perm.resource.orgID = p.resource.orgID ∨
      p.resource.id ≠ none ∧ perm.resource.id = p.resource.id)) := by
  rw [Permission.matchesV1]
  split_ifs <;> grind

theorem allowed_iff : permissionAllowed perm ps ↔ ∃ p ∈ ps, p.matchesV1 perm := List.any_eq_true

theorem verifyPermissions_eq_ok : verifyPermissions pset ps = .ok () ↔ ∀ p ∈ ps, permissionAllowed p pset := by
  induction ps with
  | nil => simp [verifyPermissions]
  | cons p ps ih =>
    rw [verifyPermissions, List.forall_mem_cons, ← ih]
    split_ifs with h
    · simp [h]
    · simp [h]

/-- Matching is transitive but for a permission with an organization and an id in the middle. -/
theorem matchesV1_trans (hpq : p.matchesV1 q) (h : q.matchesV1 perm)
    (hq : q.resource.id = none ∨ q.resource.orgID = none) : p.matchesV1 perm := by
  rw [matchesV1_iff] at *
  obtain ⟨ha, hpq⟩ := hpq
  obtain ⟨ha', h⟩ := h
  refine ⟨ha.trans ha', ?_⟩
  rcases hpq with hwhole | ⟨htype, hpq⟩
  · exact .inl hwhole
  rcases h with hwhole | ⟨htype', h⟩
  · exact .inl (htype.trans hwhole)
  refine .inr ⟨htype.trans htype', ?_⟩
  rcases hpq with hglobal | ⟨horg, hnone, heq⟩ | ⟨hid, heq⟩
  · exact .inl hglobal
  · -- allowed for the organization
    rw [← heq] at horg
    rcases h with ⟨h, -⟩ | ⟨-, -, h⟩ | ⟨h, -⟩
    · exact absurd h horg
    · exact .inr (.inl ⟨heq ▸ horg, hnone, h.trans heq⟩)
    · exact absurd (hq.resolve_right horg) h
  · rw [← heq] at hid
    rcases h with ⟨-, h⟩ | ⟨-, h, -⟩ | ⟨-, h⟩
    · exact absurd h hid
    · exact absurd h hid
    · exact .inr (.inr ⟨heq ▸ hid, h.trans heq⟩)

theorem anywhere_matchesV1 (h : q.matchesV1 perm) (hid : q.resource.id ≠ none) : q.anywhere.matchesV1 perm := by
  rw [matchesV1_iff] at h ⊢
  refine ⟨h.1, h.2.imp id fun h' => ⟨h'.1, .inr (.inr ?_)⟩⟩
  rcases h'.2 with ⟨-, h⟩ | ⟨-, h, -⟩ | h
  · exact absurd h hid
  · exact absurd h hid
  · exact h

theorem within_of_verified (hpset : Within pset ps) (hv : verifyPermissions pset qs = .ok ())
    (hid : ∀ q ∈ qs, q.resource.id ≠ none → permissionAllowed q.anywhere ps) : Within qs ps := by
  intro perm hperm
  obtain ⟨q, hq, hmatch⟩ := allowed_iff.mp hperm
  by_cases hnone : q.resource.id = none
  · obtain ⟨p, hp, hpq⟩ := allowed_iff.mp (hpset q (verifyPermissions_eq_ok.mp hv q hq))
    exact allowed_iff.mpr ⟨p, hp, matchesV1_trans hpq hmatch (.inl hnone)⟩
  · obtain ⟨p, hp, hpq⟩ := allowed_iff.mp (hid q hq hnone)
    exact allowed_iff.mpr ⟨p, hp, matchesV1_trans hpq (anywhere_matchesV1 hmatch hnone) (.inr rfl)⟩

/-- **A chain of authorizations** grants no more than the first set precisely if the first set grants its permissions
with a resource id without their organizations too. -/
theorem delegations_within_iff (chain : Delegations ps) : (∀ qs ∈ chain.1, Within qs ps) ↔
    ∀ qs ∈ chain.1, ∀ q ∈ qs, q.resource.id ≠ none → permissionAllowed q.anywhere ps := by
  obtain ⟨chain, hchain⟩ := chain
  constructor
  · intro h qs hqs q hq hid
    refine h qs hqs _ (allowed_iff.mpr ⟨q, hq, ?_⟩)
    exact matchesV1_iff.mpr ⟨rfl, .inr ⟨rfl, .inr (.inr ⟨hid, rfl⟩)⟩⟩
  · -- by induction on the chain, for any set before it that is within the first one
    have hrun : ∀ pset, Within pset ps → (pset :: chain).IsChain (fun pset qs => verifyPermissions pset qs = .ok ()) →
        (∀ qs ∈ chain, ∀ q ∈ qs, q.resource.id ≠ none → permissionAllowed q.anywhere ps) →
        ∀ qs ∈ chain, Within qs ps := by
      clear hchain
      induction chain with
      | nil => simp
      | cons qs chain ih =>
        intro pset hpset hchain h
        obtain ⟨hv, hchain⟩ := List.isChain_cons_cons.mp hchain
        obtain ⟨hqs, h⟩ := List.forall_mem_cons.mp h
        have hwithin := within_of_verified hpset hv hqs
        exact List.forall_mem_cons.mpr ⟨hwithin, ih qs hwithin hchain h⟩
    exact hrun ps (fun _ h => h) hchain

/-- All buckets of an organization, a bucket that is said to be one of them, and that bucket in another organization. -/
def orgBuckets : Permission := ⟨.read, .buckets, none, some 1⟩

def claimedBucket : Permission := ⟨.read, .buckets, some 5, some 1⟩

def foreignBucket : Permission := ⟨.read, .buckets, some 5, some 2⟩

theorem delegation_escalates : verifyPermissions [orgBuckets] [claimedBucket] = .ok () ∧
    permissionAllowed foreignBucket [claimedBucket] = true ∧ permissionAllowed foreignBucket [orgBuckets] = false :=
  ⟨by rfl, by rfl, by rfl⟩

end Influxdb.Authz
