import Influxdb.Lib.Except
import Influxdb.Tsm1.CacheStore

/-!
# CacheRun — what the cache holds along a run

The ledger has, for every key, the writes that wait in the cache and those in the snapshot; a deletion takes a range
away from both.  The cache shows the last writes of the ledger as long as no deletion meets a point of the snapshot,
which `DeleteRange` does not touch.  That a failed snapshot is not thrown away depends on its size, so the size has to
count every value.
-/

namespace Influxdb.Tsm1

open List Cursors Timed Cache Influxdb.Tsm1.Ring Nat
open BitVec (ofNat toNat_ofNat toNat_add ofNat_add)

namespace Cache

/-! ## Sizes -/

section Sizes

variable {c : Cache} {values : List (Key × ValueArray Value)}

theorem decreaseSize_eq (c : Cache) (delta : Word) : c.decreaseSize delta = { c with size := c.size - delta } := by
  have h : c.size + ~~~(delta - 1) = c.size - delta := by bv_omega
  rw [decreaseSize, h]

theorem toNat_sub_ofNat {x : Word} {n : ℕ} (h : n ≤ x.toNat) : (x - ofNat 64 n).toNat = x.toNat - n := by
  have hlt := x.isLt
  have hn : (ofNat 64 n).toNat = n := by
    rw [toNat_ofNat]
    exact mod_eq_of_lt (by omega)
  rw [BitVec.toNat_sub_of_le (by rw [BitVec.le_def, hn]; exact h), hn]

theorem toNat_add_ofNat {x : Word} {n : ℕ} (h : x.toNat + n < 2 ^ 64) : (x + ofNat 64 n).toNat = x.toNat + n := by
  rw [toNat_add, toNat_ofNat, add_mod_mod]
  exact mod_eq_of_lt h

def valueBytes (values : List (Key × ValueArray Value)) : ℕ := (values.map fun p => sizeOfValues p.2).sum

def keyBytes (values : List (Key × ValueArray Value)) : ℕ := (values.map fun p => p.1.length).sum

theorem valueBytes_cons (p : Key × ValueArray Value) (values : List (Key × ValueArray Value)) :
    valueBytes (p :: values) = sizeOfValues p.2 + valueBytes values := sum_cons

theorem keyBytes_cons (p : Key × ValueArray Value) (values : List (Key × ValueArray Value)) :
    keyBytes (p :: values) = p.1.length + keyBytes values := sum_cons

theorem addedSize_eq (values : List (Key × ValueArray Value)) : addedSize values = ofNat 64 (valueBytes values) := by
  induction values with
  | nil => rfl
  | cons p values ih =>
    rw [addedSize, map_cons, sum_cons, ← addedSize, ih, valueBytes_cons, bytesOf, ofNat_add]

end Sizes

/-! ## The ledger -/

/-- The writes of every key that are in the cache and in its snapshot. -/
structure Ledger where
  live : Key → ValueArray Value
  snap : Key → ValueArray Value

inductive Op where
  | writeMulti (values : List (Key × List (Word × Value)))
  | deleteRange (keys : List Key) (min max : Word)
  | deduplicate
  | snapshot
  | clearSnapshot (success : Bool)
  | values (key : Key)

/-- The values with their times as integers. -/
def timed (values : List (Key × List (Word × Value))) : List (Key × ValueArray Value) :=
  values.map fun p => (p.1, p.2.map fun q => (q.1.toInt, q.2))

variable (hash : Key → ℕ)

def step (c : Cache) : Op → Except String Cache
  | .writeMulti values => .ok (c.writeMulti hash (timed values)).cache
  | .deleteRange keys min max => .ok (c.deleteRange hash keys min.toInt max.toInt)
  | .deduplicate => .ok c.deduplicate
  | .snapshot => .ok c.takeSnapshot.1
  | .clearSnapshot success => c.clearSnapshot success
  | .values key => .ok (c.values hash key).2

/-- The writes without those of a range. -/
def without (keys : List Key) (min max : Int) (a : Key → ValueArray Value) (k : Key) : ValueArray Value :=
  if k ∈ keys then (a k).filter fun p => ¬(min ≤ p.1 ∧ p.1 ≤ max) else a k

/-- An entry takes values of its own type, one that never had a value takes any, and a new one takes values of one type. -/
def accepts (e : Option Entry) (v : ValueArray Value) : Bool :=
  match e with
  | none => v.all fun p => v.all fun q => valueType p.2 == valueType q.2
  | some e => e.vtype == 0 || v.all fun p => valueType p.2 == e.vtype

/-- The writes of a call that succeed: none if the cache has no room for all of them, or else those of keys whose entry
takes the values. -/
def accepted (c : Cache) (values : List (Key × ValueArray Value)) : List (Key × ValueArray Value) :=
  if c.maxSize > 0 ∧ c.totalSize + addedSize values > c.maxSize then []
  else values.filter fun p => accepts (c.store.entry hash p.1) p.2

/-- The values that have been written for a key. -/
def writtenFor (written : List (Key × ValueArray Value)) (k : Key) : ValueArray Value :=
  (written.filter fun p => p.1 = k).flatMap (·.2)

/-- What a call of the cache means: a write that succeeds is added, a deletion takes a range away, a new snapshot takes
all writes, and a snapshot that is cleared with success takes its writes with it. -/
def Ledger.step (c : Cache) (a : Ledger) : Op → Ledger
  | .writeMulti values =>
    { a with live := fun k => a.live k ++ writtenFor (accepted hash c (timed values)) k }
  | .deleteRange keys min max =>
    ⟨without keys min.toInt max.toInt a.live, without keys min.toInt max.toInt a.snap⟩
  | .deduplicate => a
  | .snapshot => if c.snapshotting ∨ c.retries then a else ⟨fun _ => [], fun k => a.snap k ++ a.live k⟩
  | .clearSnapshot success => if success then { a with snap := fun _ => [] } else a
  | .values _ => a

/-- The condition on a call: a write is a map, with each key once, and the counted size does not overflow; no point of
the snapshot is in a deleted range, and a snapshot that is cleared is there. -/
def Valid (c : Cache) : Op → Prop
  | .writeMulti values => ((timed values).map (·.1)).Nodup ∧
    c.size.toNat + valueBytes (timed values) + keyBytes (timed values) < 2 ^ 64
  | .deleteRange keys min max =>
    ∀ k ∈ keys, ∀ p ∈ valuesOf (c.snapshotEntry hash k), ¬(min.toInt ≤ p.1 ∧ p.1 ≤ max.toInt)
  | .clearSnapshot _ => c.snapshot.isSome
  | _ => True

instance (c : Cache) : DecidablePred (Valid hash c)
  | .writeMulti values =>
    inferInstanceAs (Decidable (((timed values).map (·.1)).Nodup ∧
      c.size.toNat + valueBytes (timed values) + keyBytes (timed values) < 2 ^ 64))
  | .deleteRange keys min max => inferInstanceAs (Decidable (∀ k ∈ keys,
      ∀ p ∈ valuesOf (c.snapshotEntry hash k), ¬(min.toInt ≤ p.1 ∧ p.1 ≤ max.toInt)))
  | .clearSnapshot _ => inferInstanceAs (Decidable (c.snapshot.isSome = true))
  | .deduplicate | .snapshot | .values _ => inferInstanceAs (Decidable True)

/-- Calls that all meet the condition. -/
def ValidRun (c : Cache) : List Op → Prop
  | [] => True
  | op :: ops => Valid hash c op ∧ ∀ c', step hash c op = .ok c' → ValidRun c' ops

theorem ValidRun.cons {c c' : Cache} {op : Op} {ops : List Op} (h : Valid hash c op) (hstep : step hash c op = .ok c')
    (hrest : ValidRun hash c' ops) : ValidRun hash c (op :: ops) := by
  refine ⟨h, fun c'' heq => ?_⟩
  cases hstep.symm.trans heq
  exact hrest

def run (c : Cache) (a : Ledger) : List Op → Except String (Cache × Ledger)
  | [] => .ok (c, a)
  | op :: ops => do
    let c' ← step hash c op
    run c' (a.step hash c op) ops

/-! ## The invariant -/

/-- The store has the last writes of a ledger, and its size counts all of them. -/
structure StoreHolds (r : Ring) (size : Word) (a : Key → ValueArray Value) : Prop where
  last : ∀ k t, r.last hash k t = lastWrite (a k) t
  size : r.bytes ≤ size.toNat
  int64 : ∀ k t, ¬(minInt64 ≤ t ∧ t ≤ maxInt64) → r.last hash k t = none

/-- The store and the snapshot have the last writes of the ledger. -/
structure Holds (c : Cache) (a : Ledger) : Prop where
  live : StoreHolds hash c.store c.size a.live
  snap : match c.snapshot with
    | none => c.snapshotSize = 0 ∧ ∀ k t, lastWrite (a.snap k) t = none
    | some s => c.snapshotSize = s.size ∧ StoreHolds hash s.store s.size a.snap

variable {hash} {c : Cache} {a : Ledger} {r : Ring} {size : Word} {l l' : Key → ValueArray Value}

theorem StoreHolds.congr (h : StoreHolds hash r size l) (hl : ∀ k t, lastWrite (l' k) t = lastWrite (l k) t) :
    StoreHolds hash r size l' :=
  ⟨fun k t => (h.last k t).trans (hl k t).symm, h.size, h.int64⟩

theorem storeHolds_empty (size : Word) : StoreHolds hash .empty size fun _ => [] :=
  ⟨fun _ _ => rfl, (Finset.sum_eq_zero fun _ _ => rfl).trans_le (zero_le _), fun _ _ _ => rfl⟩

theorem StoreHolds.modify (h : StoreHolds hash r size l) (key : Key) :
    StoreHolds hash (r.modify hash key Entry.deduplicate) size l where
  last k t := (r.last_modify_deduplicate key k t).trans (h.last k t)
  size := (bytes_modify_le fun e => e.deduplicate_spec.2.2).trans h.size
  int64 k t ht := (r.last_modify_deduplicate key k t).trans (h.int64 k t ht)

theorem StoreHolds.apply (h : StoreHolds hash r size l) : StoreHolds hash (r.apply Entry.deduplicate) size l where
  last k t := (r.last_apply_deduplicate k t).trans (h.last k t)
  size := (bytes_apply_le fun e => e.deduplicate_spec.2.2).trans h.size
  int64 k t ht := (r.last_apply_deduplicate k t).trans (h.int64 k t ht)

theorem Holds.snapshotEntry (h : Holds hash c a) (k : Key) (t : Int) :
    lastWrite (valuesOf (c.snapshotEntry hash k)) t = lastWrite (a.snap k) t := by
  have hsnap := h.snap
  rw [Cache.snapshotEntry]
  rcases hs : c.snapshot with _ | s <;> rw [hs] at hsnap
  · exact (hsnap.2 k t).symm
  · exact hsnap.2.last k t

/-! ## Writing -/

@[simp] theorem writtenFor_nil (k : Key) : writtenFor [] k = [] := rfl

theorem writtenFor_concat (written : List (Key × ValueArray Value)) (key : Key) (v : ValueArray Value) (k : Key) :
    writtenFor (written ++ [(key, v)]) k = writtenFor written k ++ if key = k then v else [] := by
  rw [writtenFor, filter_append, flatMap_append, ← writtenFor]
  by_cases h : key = k <;> simp [h]

/-- The loop of `WriteMulti` in progress: some values have been written, and the size has room for those that are left. -/
structure Writes (hash : Key → ℕ) (base : Key → ValueArray Value) (s : Writing)
    (written rest : List (Key × ValueArray Value)) : Prop where
  last : ∀ k t, s.cache.store.last hash k t = lastWrite (base k ++ writtenFor written k) t
  size : s.cache.store.bytes + valueBytes rest ≤ s.cache.size.toNat
  room : s.cache.size.toNat + keyBytes rest < 2 ^ 64
  int64 : ∀ k t, ¬(minInt64 ≤ t ∧ t ≤ maxInt64) → s.cache.store.last hash k t = none

variable {base : Key → ValueArray Value} {s : Writing} {key : Key} {v : ValueArray Value}
  {written rest : List (Key × ValueArray Value)}

theorem Writes.toNat_sub (h : Writes hash base s written ((key, v) :: rest)) :
    (s.cache.size - bytesOf v).toNat + sizeOfValues v = s.cache.size.toNat := by
  have hsize := h.size
  simp only [valueBytes_cons] at hsize
  rw [bytesOf, toNat_sub_ofNat (by omega)]
  omega

theorem Writes.failed (h : Writes hash base s written ((key, v) :: rest)) (err : String) :
    Writes hash base ⟨s.cache.decreaseSize (bytesOf v), some err⟩ written rest := by
  have hsize := h.size
  have hroom := h.room
  simp only [valueBytes_cons, keyBytes_cons] at hsize hroom
  have hnat := h.toNat_sub
  rw [decreaseSize_eq]
  exact ⟨h.last, by simp only; omega, by simp only; omega, h.int64⟩

theorem Writes.stored (h : Writes hash base s written ((key, v) :: rest)) {newKey : Bool} {store : Ring}
    (hwrite : s.cache.store.write hash key v = .ok (newKey, store)) (hv : ∀ q ∈ v, minInt64 ≤ q.1 ∧ q.1 ≤ maxInt64) :
    Writes hash base { s with
        cache := { s.cache with
          store := store
          size := if newKey then s.cache.size + ofNat 64 key.length else s.cache.size } }
      (written ++ [(key, v)]) rest := by
  obtain ⟨hlast, hbytes⟩ := write_spec hwrite
  have hsize := h.size
  have hroom := h.room
  simp only [valueBytes_cons, keyBytes_cons] at hsize hroom
  have hnat : (if newKey then s.cache.size + ofNat 64 key.length else s.cache.size).toNat =
      s.cache.size.toNat + if newKey then key.length else 0 := by
    cases newKey with
    | false => rfl
    | true => exact toNat_add_ofNat (by omega)
  have hle : (if newKey then key.length else 0) ≤ key.length := by split <;> omega
  refine ⟨?_, ?_, ?_, ?_⟩
  · intro k t
    rw [hlast, writtenFor_concat]
    by_cases hk : k = key
    · rw [if_pos hk, if_pos hk.symm, ← append_assoc, lastWrite_append, h.last]
    · rw [if_neg hk, if_neg (Ne.symm hk), append_nil, h.last]
  · simp only [hnat, hbytes]
    omega
  · simp only [hnat]
    omega
  · intro k t ht
    have hnone : lastWrite v t = none := lastWrite_eq_none.mpr fun q hq heq => ht (heq ▸ hv q hq)
    simp only [hlast, hnone, h.int64 k t ht, Option.none_or, ite_self]

/-- The writes that the store takes, one after the other. -/
def taken (hash : Key → ℕ) : Ring → List (Key × ValueArray Value) → List (Key × ValueArray Value)
  | _, [] => []
  | r, (k, v) :: rest =>
    match r.write hash k v with
    | .error _ => taken hash r rest
    | .ok (_, r') => (k, v) :: taken hash r' rest

/-- **The loop of `WriteMulti`** over the first of the values. -/
theorem Writes.writeKeys {values first : List (Key × ValueArray Value)} (h : Writes hash base s written values)
    (hvalues : values = first ++ rest) (hint : ∀ p ∈ values, ∀ q ∈ p.2, minInt64 ≤ q.1 ∧ q.1 ≤ maxInt64) :
    Writes hash base (writeKeys hash s first) (written ++ taken hash s.cache.store first) rest ∧ ∃ r n,
      (writeKeys hash s first).cache = { s.cache with store := r, size := n } ∧
        n.toNat ≤ s.cache.size.toNat + keyBytes first := by
  induction first generalizing s values written with
  | nil =>
    subst hvalues
    rw [taken, append_nil]
    exact ⟨h, _, _, rfl, Nat.le_add_right ..⟩
  | cons p first ih =>
    obtain ⟨key, v⟩ := p
    subst hvalues
    have hint' := (forall_mem_cons.mp hint).2
    rw [writeKeys, taken, keyBytes_cons]
    rcases hwrite : s.cache.store.write hash key v with err | ⟨newKey, store⟩
    · obtain ⟨hdone, r, n, heq, hle⟩ := ih (h.failed err) rfl hint'
      refine ⟨?_, r, n, heq, hle.trans ?_⟩
      · simpa only [decreaseSize_eq] using hdone
      · have hsub := h.toNat_sub
        simp only [decreaseSize_eq]
        omega
    · obtain ⟨hdone, r, n, heq, hle⟩ := ih (h.stored hwrite (hint (key, v) mem_cons_self)) rfl hint'
      refine ⟨?_, r, n, heq, hle.trans ?_⟩
      · simpa only [append_assoc, singleton_append] using hdone
      have hadd : (if newKey then s.cache.size + ofNat 64 key.length else s.cache.size).toNat ≤
          s.cache.size.toNat + key.length := by
        split_ifs
        · rw [toNat_add, toNat_ofNat, add_mod_mod]
          exact mod_le ..
        · exact Nat.le_add_right ..
      simp only
      omega

/-- **The store takes** what its entry accepts. -/
theorem accepts_eq (r : Ring) (key : Key) (v : ValueArray Value) :
    accepts (r.entry hash key) v = (r.write hash key v).isOk := by
  unfold Ring.write accepts
  rcases r.entry hash key with _ | e
  · rcases v with _ | ⟨p, v⟩
    · rfl
    · have hall : ((p :: v).all fun p' => (p :: v).all fun q => valueType p'.2 == valueType q.2) =
          (p :: v).all fun q => valueType p.2 == valueType q.2 := by
        rw [Bool.eq_iff_iff]
        simp only [all_eq_true, beq_iff_eq]
        exact ⟨fun h => h p mem_cons_self, fun h p' hp' q hq => (h p' hp').symm.trans (h q hq)⟩
      simp only [hall, newEntryValues]
      split_ifs with hsame
      · rw [hsame]
        rfl
      · rw [Bool.not_eq_true] at hsame
        rw [hsame]
        rfl
  · rcases v with _ | ⟨p, v⟩
    · simp [Entry.add, bind, Except.bind, pure, Except.pure, Except.isOk, Except.toBool]
    · have hall : ((p :: v).all fun q => valueType q.2 == e.vtype) = (p :: v).all fun q => e.vtype == valueType q.2 := by
        simp only [Bool.beq_comm]
      simp only [hall, Entry.add]
      split_ifs with hconflict
      · obtain ⟨hne, hfalse⟩ := hconflict
        rw [hfalse, Bool.or_false, beq_false_of_ne hne]
        rfl
      all_goals
        rw [not_and_or, not_not, Bool.not_eq_false] at hconflict
        rcases hconflict with hzero | htrue
        · rw [hzero]
          rfl
        · rw [htrue, Bool.or_true]
          rfl

theorem entry_write_of_ne {newKey : Bool} {r' : Ring} (h : r.write hash key v = .ok (newKey, r')) {k : Key} (hk : k ≠ key) :
    r'.entry hash k = r.entry hash k := by
  unfold Ring.write at h
  rcases hentry : r.entry hash key with _ | e
  all_goals
    rw [hentry] at h
    obtain ⟨e', -, heq⟩ := bind_eq_ok h
    cases heq
    rw [entry_put, if_neg hk]

theorem taken_eq {values : List (Key × ValueArray Value)} (hnodup : (values.map (·.1)).Nodup) (hr : ∀ p ∈ values,
    r.entry hash p.1 = c.store.entry hash p.1) :
    taken hash r values = values.filter fun p => accepts (c.store.entry hash p.1) p.2 := by
  induction values generalizing r with
  | nil => rfl
  | cons p values ih =>
    obtain ⟨key, v⟩ := p
    obtain ⟨hfresh, hnodup⟩ := nodup_cons.mp hnodup
    obtain ⟨hentry, hrest⟩ := forall_mem_cons.mp hr
    have haccepts := @accepts_eq hash r key v
    rw [hentry] at haccepts
    rw [taken, filter_cons, haccepts]
    rcases hwrite : r.write hash key v with err | ⟨newKey, r'⟩
    · exact ih hnodup hrest
    · refine congrArg _ (ih hnodup fun p hp => ?_)
      rw [entry_write_of_ne hwrite fun heq => hfresh (mem_map.mpr ⟨p, hp, heq⟩), hrest p hp]

theorem timed_int64 (values : List (Key × List (Word × Value))) :
    ∀ p ∈ timed values, ∀ q ∈ p.2, minInt64 ≤ q.1 ∧ q.1 ≤ maxInt64 := by
  refine forall_mem_map.mpr fun p _ => forall_mem_map.mpr fun q _ => ?_
  have h1 := q.1.le_toInt
  have h2 := q.1.toInt_lt
  simp only [minInt64, maxInt64]
  omega

section WriteMulti

variable {values : List (Key × List (Word × Value))}
  (hvalid : c.size.toNat + valueBytes (timed values) + keyBytes (timed values) < 2 ^ 64)
include hvalid

/-- The loop starts with room for all values. -/
theorem StoreHolds.writes (h : StoreHolds hash c.store c.size l) :
    (c.size + addedSize (timed values)).toNat = c.size.toNat + valueBytes (timed values) ∧
      Writes hash l ⟨{ c with size := c.size + addedSize (timed values) }, none⟩ [] (timed values) := by
  have hnat : (c.size + addedSize (timed values)).toNat = c.size.toNat + valueBytes (timed values) := by
    rw [addedSize_eq]
    exact toNat_add_ofNat (by omega)
  refine ⟨hnat, fun k t => ?_, ?_, ?_, h.int64⟩
  · rw [writtenFor_nil, append_nil]
    exact h.last k t
  · have := h.size
    simp only [hnat]
    omega
  · simp only [hnat]
    exact hvalid

/-- **`WriteMulti`.** -/
theorem StoreHolds.writeMulti (h : StoreHolds hash c.store c.size l) : ∃ r n,
    (c.writeMulti hash (timed values)).cache = { c with store := r, size := n } ∧
      n.toNat ≤ c.size.toNat + (valueBytes (timed values) + keyBytes (timed values)) ∧
      (∃ l', StoreHolds hash r n l') ∧ (((timed values).map (·.1)).Nodup →
        StoreHolds hash r n fun k => l k ++ writtenFor (accepted hash c (timed values)) k) := by
  unfold Cache.writeMulti accepted
  simp only
  split_ifs with hlimit
  · refine ⟨_, _, rfl, Nat.le_add_right .., ⟨l, h⟩, fun _ => h.congr fun k t => ?_⟩
    simp only [writtenFor_nil, append_nil]
  · obtain ⟨hnat, hstart⟩ := h.writes hvalid
    obtain ⟨hdone, r, n, heq, hle⟩ := hstart.writeKeys (append_nil _).symm (timed_int64 values)
    obtain ⟨hlast, hsize, -, hint⟩ := hdone
    rw [heq] at hlast hsize hint
    have hholds : StoreHolds hash r n fun k => l k ++ writtenFor (taken hash c.store (timed values)) k :=
      ⟨hlast, (le_add_right _ _).trans hsize, hint⟩
    refine ⟨r, n, heq, ?_, ⟨_, hholds⟩, fun hnodup => taken_eq hnodup (fun _ _ => rfl) ▸ hholds⟩
    simp only [hnat] at hle
    omega

theorem Holds.writeMulti (h : Holds hash c a) (hnodup : ((timed values).map (·.1)).Nodup) :
    Holds hash (c.writeMulti hash (timed values)).cache
      { a with live := fun k => a.live k ++ writtenFor (accepted hash c (timed values)) k } := by
  obtain ⟨r, n, heq, -, -, hlive⟩ := h.live.writeMulti hvalid
  rw [heq]
  exact ⟨hlive hnodup, h.snap⟩

end WriteMulti

/-! ## Deleting -/

/-- What a deletion leaves of the last writes of a store. -/
def Cleared (hash : Key → ℕ) (r r' : Ring) (P : Key → Prop) [DecidablePred P] (min max : Int) : Prop :=
  ∀ k t, r'.last hash k t = if P k ∧ min ≤ t ∧ t ≤ max then none else r.last hash k t

theorem deleteKey_spec (h : StoreHolds hash c.store c.size l) (min max : Int) (key : Key) :
    ∃ r n, deleteKey hash min max c key = { c with store := r, size := n } ∧
      Cleared hash c.store r (· = key) min max ∧ r.bytes ≤ n.toNat ∧ n.toNat ≤ c.size.toNat := by
  rcases hentry : c.store.entry hash key with _ | e
  · have hsame : deleteKey hash min max c key = c := by simp only [deleteKey, hentry]
    refine ⟨_, _, hsame, fun k t => ?_, h.size, le_rfl⟩
    split_ifs with hk
    · rw [last, hk.1, hentry, valuesOf_none, lastWrite_nil]
    · rfl
  -- removing the entry takes its bytes away
  have hremove : (c.store.remove hash key).bytes ≤
        (c.size - (ofNat 64 e.size + ofNat 64 key.length)).toNat ∧
      (c.size - (ofNat 64 e.size + ofNat 64 key.length)).toNat ≤ c.size.toNat := by
    have hbytes := (bytes_remove hentry).trans h.size
    rw [← ofNat_add, toNat_sub_ofNat (by omega)]
    omega
  have hcleared (hout : ∀ t, ¬(min ≤ t ∧ t ≤ max) → c.store.last hash key t = none) :
      Cleared hash c.store (c.store.remove hash key) (· = key) min max := by
    intro k t
    rw [last_remove]
    by_cases hk : k = key
    · by_cases ht : min ≤ t ∧ t ≤ max
      · rw [if_pos hk, if_pos ⟨hk, ht⟩]
      · rw [if_pos hk, if_neg fun h => ht h.2, hk, hout t ht]
    · rw [if_neg hk, if_neg fun h => hk h.1]
  have hfilter := e.filter_spec min max
  simp only [deleteKey, hentry, decreaseSize_eq]
  split_ifs with hfull hcount
  · exact ⟨_, _, rfl, hcleared fun t ht => h.int64 key t (by rwa [← hfull.1, ← hfull.2]), hremove⟩
  · -- nothing is left of the entry
    refine ⟨_, _, rfl, hcleared fun t ht => ?_, hremove⟩
    have hnone := hfilter.1 t
    rw [length_eq_zero_iff.mp hcount, lastWrite_nil, if_neg ht] at hnone
    rw [last, hentry, valuesOf_some, ← hnone]
  · refine ⟨_, _, rfl, fun k t => last_modify_filter hentry min max k t, ?_⟩
    have hle := hfilter.2
    have hmodify := bytes_put_of_some (r := c.store) (e := e.filter min max) hentry
    have hsub : ofNat 64 e.size - ofNat 64 (e.filter min max).size =
        ofNat 64 (e.size - (e.filter min max).size) := by
      have hsum : ofNat 64 e.size =
          ofNat 64 (e.size - (e.filter min max).size) + ofNat 64 (e.filter min max).size := by
        rw [← ofNat_add, Nat.sub_add_cancel hle]
      rw [hsum, BitVec.add_sub_cancel]
    have hbytes := le_bytes hentry
    have hsize := h.size
    simp only [Ring.modify, hentry]
    rw [hsub, toNat_sub_ofNat (by omega)]
    omega

theorem lastWrite_without (keys : List Key) (min max : Int) (a : Key → ValueArray Value) (k : Key) (t : Int) :
    lastWrite (without keys min max a k) t = if k ∈ keys ∧ min ≤ t ∧ t ≤ max then none else lastWrite (a k) t := by
  unfold without
  by_cases hk : k ∈ keys
  · rw [if_pos hk, lastWrite_filter (fun t => decide ¬(min ≤ t ∧ t ≤ max))]
    by_cases ht : min ≤ t ∧ t ≤ max
    · simp [ht, hk]
    · simp only [ht, not_false_eq_true, decide_true, if_true, hk, and_false, if_false]
  · rw [if_neg hk, if_neg fun h => hk h.1]

/-- **`DeleteRange`** clears the range of every key. -/
theorem StoreHolds.deleteRange (h : StoreHolds hash c.store c.size l) (keys : List Key) (min max : Int) : ∃ r n,
    c.deleteRange hash keys min max = { c with store := r, size := n } ∧
      StoreHolds hash r n (without keys min max l) ∧ n.toNat ≤ c.size.toNat := by
  induction keys generalizing c l with
  | nil => exact ⟨_, _, rfl, h.congr fun k t => by rw [lastWrite_without, if_neg fun h => nomatch h.1], le_rfl⟩
  | cons key keys ih =>
    obtain ⟨r, n, heq, hlast, hsize, hle⟩ := deleteKey_spec h min max key
    have hr : StoreHolds hash r n (without [key] min max l) := by
      refine ⟨fun k t => ?_, hsize, fun k t ht => ?_⟩
      · rw [hlast, lastWrite_without, h.last]
        simp only [mem_singleton]
      · rw [hlast, h.int64 k t ht, ite_self]
    obtain ⟨r', n', heq', hr', hle'⟩ := ih (c := { c with store := r, size := n }) hr
    rw [deleteRange, foldl_cons, heq, ← deleteRange]
    refine ⟨r', n', heq', hr'.congr fun k t => ?_, hle'.trans hle⟩
    rw [lastWrite_without, lastWrite_without, lastWrite_without]
    by_cases ht : min ≤ t ∧ t ≤ max
    · by_cases hk : k = key <;> simp [ht, hk]
    · simp [ht]

variable (h : Holds hash c a)
include h

theorem Holds.deleteRange {keys : List Key} {min max : Int}
    (hvalid : ∀ k ∈ keys, ∀ p ∈ valuesOf (c.snapshotEntry hash k), ¬(min ≤ p.1 ∧ p.1 ≤ max)) :
    Holds hash (c.deleteRange hash keys min max) ⟨without keys min max a.live, without keys min max a.snap⟩ := by
  obtain ⟨r, n, heq, hlive, -⟩ := h.live.deleteRange keys min max
  -- the snapshot has no write in the range
  have hsame : ∀ k t, lastWrite (without keys min max a.snap k) t = lastWrite (a.snap k) t := by
    intro k t
    rw [lastWrite_without]
    split_ifs with hin
    · rw [← h.snapshotEntry k t]
      refine (lastWrite_eq_none.mpr fun p hp heq => ?_).symm
      exact hvalid k hin.1 p hp (heq ▸ hin.2)
    · rfl
  rw [heq]
  refine ⟨hlive, ?_⟩
  have hsnap := h.snap
  rcases hs : c.snapshot with _ | s <;> rw [hs] at hsnap
  · exact ⟨hsnap.1, fun k t => (hsame k t).trans (hsnap.2 k t)⟩
  · exact ⟨hsnap.1, hsnap.2.congr hsame⟩

/-! ## Snapshots and reading -/

theorem Holds.not_retries (hr : c.retries = false) : c.snapshotSize = 0 ∧ ∀ k t, lastWrite (a.snap k) t = none := by
  have hsnap := h.snap
  unfold retries at hr
  rcases hs : c.snapshot with _ | s
  · rw [hs] at hsnap
    exact hsnap
  · rw [hs] at hsnap hr
    have hzero : s.size = 0 := by
      have hle := of_decide_eq_false hr
      exact BitVec.le_zero_iff.mp (BitVec.not_lt.mp hle)
    obtain ⟨hsize, hstore⟩ := hsnap
    refine ⟨hsize.trans hzero, fun k t => ?_⟩
    have hbytes := hstore.size
    rw [hzero] at hbytes
    rw [← hstore.last]
    exact last_of_bytes (le_zero.mp hbytes) k t

theorem Holds.takeSnapshot : Holds hash c.takeSnapshot.1
    (if c.snapshotting ∨ c.retries then a else ⟨fun _ => [], fun k => a.snap k ++ a.live k⟩) := by
  unfold Cache.takeSnapshot
  by_cases hsnap : c.snapshotting = true
  · rw [if_pos hsnap, if_pos (.inl hsnap)]
    exact h
  rw [if_neg hsnap]
  by_cases hretry : c.retries = true
  · rw [if_pos hretry, if_pos (.inr hretry)]
    exact ⟨h.live, h.snap⟩
  rw [if_neg hretry, if_neg (by simp [hsnap, hretry])]
  obtain ⟨hzero, hnone⟩ := h.not_retries (by simpa using hretry)
  have htotal : c.totalSize = c.size := by rw [totalSize, hzero]; exact BitVec.add_zero _
  refine ⟨storeHolds_empty 0, rfl, ?_⟩
  simp only [htotal]
  refine h.live.congr fun k t => ?_
  rw [lastWrite_append, hnone, Option.or_none]

theorem Holds.clearSnapshot (hvalid : c.snapshot.isSome) (success : Bool) : ∃ c', c.clearSnapshot success = .ok c' ∧
      Holds hash c' (if success then { a with snap := fun _ => [] } else a) := by
  unfold Cache.clearSnapshot
  have hsnap := h.snap
  rcases hs : c.snapshot with _ | s
  · rw [hs] at hvalid
    nomatch hvalid
  · rw [hs] at hsnap
    cases success with
    | true => exact ⟨_, rfl, h.live, rfl, storeHolds_empty 0⟩
    | false =>
      refine ⟨_, rfl, h.live, ?_⟩
      exact hsnap

theorem Holds.values (key : Key) : Holds hash (c.values hash key).2 a := by
  refine ⟨h.live.modify key, ?_⟩
  have hsnap := h.snap
  simp only [Cache.values]
  rcases hs : c.snapshot with _ | s <;> rw [hs] at hsnap
  · exact hsnap
  · exact ⟨hsnap.1, hsnap.2.modify key⟩

omit h

/-! ## Runs -/

/-- **One call.** -/
theorem Holds.step (h : Holds hash c a) {op : Op} (hvalid : Valid hash c op) :
    ∃ c', step hash c op = .ok c' ∧ Holds hash c' (a.step hash c op) := by
  cases op with
  | writeMulti values => exact ⟨_, rfl, h.writeMulti hvalid.2 hvalid.1⟩
  | deleteRange keys min max => exact ⟨_, rfl, h.deleteRange hvalid⟩
  | deduplicate => exact ⟨_, rfl, h.live.apply, h.snap⟩
  | snapshot => exact ⟨_, rfl, h.takeSnapshot⟩
  | clearSnapshot success => exact h.clearSnapshot hvalid success
  | values key => exact ⟨_, rfl, h.values key⟩

/-- **Every run** keeps to its ledger. -/
theorem Holds.run : ∀ {ops : List Op} {c : Cache} {a : Ledger}, Holds hash c a → ValidRun hash c ops →
    ∃ c' a', run hash c a ops = .ok (c', a') ∧ Holds hash c' a'
  | [], c, a, h, _ => ⟨c, a, rfl, h⟩
  | op :: ops, c, a, h, hvalid => by
    obtain ⟨c₁, heq₁, h₁⟩ := h.step hvalid.1
    obtain ⟨c', a', heq, h'⟩ := h₁.run (hvalid.2 c₁ heq₁)
    refine ⟨c', a', ?_, h'⟩
    rw [Cache.run, heq₁]
    exact heq

/-- The bytes that a call brings: the values and the keys of a write. -/
def offered : Op → ℕ
  | .writeMulti values => valueBytes (timed values) + keyBytes (timed values)
  | _ => 0

/-- The store is counted, and both sizes together are within the bytes that have been offered. -/
structure Counted (hash : Key → ℕ) (c : Cache) (n : ℕ) : Prop where
  live : ∃ l, StoreHolds hash c.store c.size l
  total : c.size.toNat + c.snapshotSize.toNat ≤ n

variable {n : ℕ} {op : Op} {c' : Cache}

theorem Counted.step (h : Counted hash c n) (hn : n + offered op < 2 ^ 64) (hstep : step hash c op = .ok c') :
    Counted hash c' (n + offered op) := by
  obtain ⟨⟨l, hl⟩, htotal⟩ := h
  cases op with
  | writeMulti values =>
    simp only [offered] at hn ⊢
    obtain ⟨r, m, heq, hle, hr, -⟩ := @StoreHolds.writeMulti hash c l values (by omega) hl
    cases (congrArg Except.ok heq).symm.trans hstep
    refine ⟨hr, ?_⟩
    simp only
    omega
  | deleteRange keys min max =>
    obtain ⟨r, m, heq, hr, hle⟩ := hl.deleteRange keys min.toInt max.toInt
    cases (congrArg Except.ok heq).symm.trans hstep
    refine ⟨⟨_, hr⟩, ?_⟩
    simp only
    omega
  | deduplicate =>
    cases hstep
    exact ⟨⟨l, hl.apply⟩, htotal⟩
  | snapshot =>
    cases hstep
    unfold takeSnapshot
    split_ifs
    · exact ⟨⟨l, hl⟩, htotal⟩
    · exact ⟨⟨l, hl⟩, htotal⟩
    · refine ⟨⟨_, storeHolds_empty 0⟩, ?_⟩
      show 0 + (c.size + c.snapshotSize).toNat ≤ n
      rw [zero_add, toNat_add]
      exact (mod_le ..).trans htotal
  | clearSnapshot success =>
    unfold step clearSnapshot at hstep
    rcases hs : c.snapshot with _ | s <;> rw [hs] at hstep
    · cases hstep
    cases success with
    | true =>
      cases hstep
      exact ⟨⟨l, hl⟩, (le_add_right ..).trans htotal⟩
    | false =>
      cases hstep
      exact ⟨⟨l, hl⟩, htotal⟩
  | values key =>
    cases hstep
    exact ⟨⟨l, hl.modify key⟩, htotal⟩

theorem Counted.run {ops : List Op} (h : Counted hash c n) (hn : n + (ops.map offered).sum < 2 ^ 64)
    (hrun : ops.foldlM (Cache.step hash) c = .ok c') : Counted hash c' (n + (ops.map offered).sum) := by
  induction ops generalizing c n with
  | nil =>
    cases hrun
    exact h
  | cons op ops ih =>
    rw [map_cons, sum_cons, ← add_assoc] at hn ⊢
    rw [foldlM_cons] at hrun
    rcases hstep : Cache.step hash c op with err | c₁ <;> rw [hstep] at hrun
    · cases hrun
    · exact ih (h.step (by omega) hstep) hn hrun

end Cache

end Influxdb.Tsm1
