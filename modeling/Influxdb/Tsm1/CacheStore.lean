import Influxdb.Tsm1.Cache
import Mathlib.Algebra.BigOperators.Fin
import Mathlib.Algebra.Order.BigOperators.Group.Finset

/-!
# CacheStore — entries and the ring as maps of last writes

Entries are compared by the last write of each time: sorting and deduplicating do not change it, adding values puts
writes behind it, and filtering takes times away.  The partitions of the ring act as one map, and the bytes of its
entries change by what is stored and removed.
-/

namespace Influxdb.Tsm1

open Assoc Cursors Timed Finset Entry

/-! ## Values -/

section Values

variable {a b : ValueArray Value}

theorem asc_of_ordered : ∀ {a : ValueArray Value}, ordered a = true → Asc a
  | [], _ => asc_nil
  | [p], _ => asc_singleton p
  | p :: q :: a, h => by
    rw [ordered, Bool.and_eq_true, decide_eq_true_eq] at h
    have ih := asc_of_ordered h.2
    exact asc_cons.mpr ⟨fun x hx => ih.lt_of_mem_cons h.1 hx, ih⟩

/-- **`Deduplicate`** gives an ascending list with the same last writes. -/
theorem deduplicate_spec (a : ValueArray Value) :
    Asc (deduplicate a) ∧ ∀ t, lastWrite (deduplicate a) t = lastWrite a t := by
  unfold deduplicate
  split_ifs with hord
  · exact ⟨asc_of_ordered hord, fun _ => rfl⟩
  · have hsorted := pairwise_sortStable a
    have hlast := lastWrite_sortStable a
    rcases hs : sortStable a with _ | ⟨p, l⟩
    all_goals rw [hs] at hsorted hlast
    · exact ⟨asc_nil, hlast⟩
    · exact ⟨asc_dedupLoop hsorted, fun t => (lastWrite_dedupLoop l p hsorted t).trans (hlast t)⟩

theorem sizeOfValues_append (a b : ValueArray Value) : sizeOfValues (a ++ b) = sizeOfValues a + sizeOfValues b := by
  rw [sizeOfValues, List.map_append, List.sum_append, sizeOfValues, sizeOfValues]

theorem sizeOfValues_le_of_sublist (h : a.Sublist b) : sizeOfValues a ≤ sizeOfValues b :=
  (h.map _).sum_le_sum fun _ _ => Nat.zero_le _

theorem sizeOfValues_deduplicate_le (a : ValueArray Value) : sizeOfValues (deduplicate a) ≤ sizeOfValues a := by
  unfold deduplicate
  split_ifs
  · exact le_rfl
  · have hperm := ((sortStable_perm a).map fun p => p.2.size).sum_eq
    rcases hs : sortStable a with _ | ⟨p, l⟩
    · exact Nat.zero_le _
    · rw [hs] at hperm
      exact (sizeOfValues_le_of_sublist (dedupLoop_sublist l p)).trans hperm.le

theorem Value.size_pos (v : Value) : 0 < v.size := by
  cases v <;> simp only [Value.size] <;> omega

theorem eq_nil_of_sizeOfValues (h : sizeOfValues a = 0) : a = [] := by
  rcases a with _ | ⟨p, a⟩
  · rfl
  · have hpos := p.2.size_pos
    rw [sizeOfValues, List.map_cons, List.sum_cons] at h
    omega

end Values

/-! ## Entries -/

namespace Entry

variable {e e' : Entry} {v : ValueArray Value}

theorem deduplicate_spec (e : Entry) :
    Asc e.deduplicate.values ∧ (∀ t, lastWrite e.deduplicate.values t = lastWrite e.values t) ∧
      e.deduplicate.size ≤ e.size := by
  unfold deduplicate
  split_ifs with hlen
  · refine ⟨?_, fun _ => rfl, le_rfl⟩
    rcases hv : e.values with _ | ⟨p, _ | ⟨q, a⟩⟩
    · exact asc_nil
    · exact asc_singleton p
    · rw [hv, List.length_cons, List.length_cons] at hlen
      omega
  · obtain ⟨hasc, hlast⟩ := Tsm1.deduplicate_spec e.values
    exact ⟨hasc, hlast, sizeOfValues_deduplicate_le e.values⟩

theorem filter_values (e : Entry) (min max : Int) :
    (e.filter min max).values = e.deduplicate.values.exclude min max := by
  unfold filter deduplicate
  by_cases hlen : e.values.length ≤ 1
  · rw [if_pos hlen]
    simp only [if_neg (not_lt.mpr hlen)]
  · rw [if_neg hlen]
    simp only [if_pos (not_le.mp hlen)]

/-- **`filter`** takes the writes of the range away. -/
theorem filter_spec (e : Entry) (min max : Int) :
    (∀ t, lastWrite (e.filter min max).values t = if min ≤ t ∧ t ≤ max then none else lastWrite e.values t) ∧
      (e.filter min max).size ≤ e.size := by
  obtain ⟨hasc, hlast, hsize⟩ := e.deduplicate_spec
  have heq := (e.filter_values min max).trans (ValueArray.exclude_eq hasc min max)
  constructor
  · intro t
    rw [heq, lastWrite_filter (fun t => decide ¬(min ≤ t ∧ t ≤ max)), hlast]
    by_cases ht : min ≤ t ∧ t ≤ max
    · simp only [ht, not_true_eq_false, decide_false, Bool.false_eq_true, if_false, and_self, if_true]
    · simp only [ht, not_false_eq_true, decide_true, if_true, if_false]
  · refine le_trans ?_ hsize
    rw [size, heq]
    exact sizeOfValues_le_of_sublist List.filter_sublist

theorem add_values (h : e.add v = .ok e') : e'.values = e.values ++ v := by
  rcases v with _ | ⟨p, v⟩
  · cases h
    rw [List.append_nil]
  · unfold add at h
    simp only at h
    split_ifs at h with hconflict hnil
    · cases h
      rw [List.length_eq_zero_iff.mp hnil, List.nil_append]
    · cases h
      rfl

theorem newEntryValues_values (h : newEntryValues v = .ok e) : e.values = v := by
  rcases v with _ | ⟨p, v⟩
  · cases h
    rfl
  · unfold newEntryValues at h
    simp only at h
    split_ifs at h
    cases h
    rfl

end Entry

/-! ## The ring -/

namespace Ring

variable {hash : Key → ℕ} {r r' : Ring} {key k : Key} {e : Entry} {v : ValueArray Value} {f : Entry → Entry}

theorem partitions_update_self (r : Ring) (key : Key) (g : List (Key × Entry) → List (Key × Entry)) :
    (r.update hash key g).partitions (getPartition hash key) = g (r.partitions (getPartition hash key)) :=
  Function.update_self ..

theorem partitions_update_of_ne {i : Fin 16} (h : i ≠ getPartition hash key) (r : Ring)
    (g : List (Key × Entry) → List (Key × Entry)) : (r.update hash key g).partitions i = r.partitions i :=
  Function.update_of_ne h ..

theorem entry_put (r : Ring) (key : Key) (e : Entry) (k : Key) :
    (r.update hash key (put key e)).entry hash k = if k = key then some e else r.entry hash k := by
  unfold entry
  split_ifs with h
  · rw [h, partitions_update_self, get_put_self]
  · by_cases hp : getPartition hash k = getPartition hash key
    · rw [hp, partitions_update_self, get_put_of_ne h]
    · rw [partitions_update_of_ne hp]

theorem entry_remove (r : Ring) (key k : Key) :
    (r.remove hash key).entry hash k = if k = key then none else r.entry hash k := by
  unfold entry remove
  by_cases hp : getPartition hash k = getPartition hash key
  · rw [hp, partitions_update_self, get_erase]
  · have hne : k ≠ key := fun h => hp (by rw [h])
    rw [partitions_update_of_ne hp, if_neg hne]

theorem entry_modify (r : Ring) (key : Key) (f : Entry → Entry) (k : Key) :
    (r.modify hash key f).entry hash k = if k = key then (r.entry hash key).map f else r.entry hash k := by
  unfold modify
  rcases h : r.entry hash key with _ | e
  · split_ifs with hk
    · rw [hk, h, Option.map_none]
    · rfl
  · rw [entry_put, Option.map_some]

theorem entry_apply (r : Ring) (f : Entry → Entry) (k : Key) : (r.apply f).entry hash k = (r.entry hash k).map f := by
  exact get_mapValues f _ k

/-! ### Bytes -/

/-- The bytes that the cache counts for an entry. -/
def entryBytes (k : Key) (e : Entry) : ℕ := k.length + e.size

def bytes (r : Ring) : ℕ := ∑ i, weight entryBytes (r.partitions i)

theorem bytes_update (hash : Key → ℕ) (r : Ring) (key : Key) (g : List (Key × Entry) → List (Key × Entry)) :
    (r.update hash key g).bytes + weight entryBytes (r.partitions (getPartition hash key)) =
      r.bytes + weight entryBytes (g (r.partitions (getPartition hash key))) := by
  have hold := add_sum_erase univ (fun i => weight entryBytes (r.partitions i))
    (mem_univ (getPartition hash key))
  have hnew := add_sum_erase univ
    (fun i => weight entryBytes ((r.update hash key g).partitions i)) (mem_univ (getPartition hash key))
  have hrest : ∑ i ∈ univ.erase (getPartition hash key),
        weight entryBytes ((r.update hash key g).partitions i) =
      ∑ i ∈ univ.erase (getPartition hash key), weight entryBytes (r.partitions i) := by
    refine sum_congr rfl fun i hi => ?_
    rw [partitions_update_of_ne (ne_of_mem_erase hi)]
  simp only [partitions_update_self] at hnew
  rw [bytes, bytes, ← hold, ← hnew, hrest]
  omega

theorem bytes_put_of_none (h : r.entry hash key = none) :
    (r.update hash key (put key e)).bytes = r.bytes + entryBytes key e := by
  have h1 := bytes_update hash r key (put key e)
  have h2 := weight_put_of_none (w := entryBytes) (v := e) h
  omega

theorem bytes_put_of_some {e₀ : Entry} (h : r.entry hash key = some e₀) :
    (r.update hash key (put key e)).bytes + e₀.size = r.bytes + e.size := by
  have h1 := bytes_update hash r key (put key e)
  have h2 := weight_put_of_some (w := entryBytes) (v := e) h
  simp only [entryBytes] at h1 h2
  omega

theorem bytes_remove (h : r.entry hash key = some e) : (r.remove hash key).bytes + (e.size + key.length) ≤ r.bytes := by
  have h1 := bytes_update hash r key (erase key)
  have h2 := weight_erase (w := entryBytes) h
  have h3 : entryBytes key e = key.length + e.size := rfl
  rw [remove]
  omega

theorem bytes_modify_le (hf : ∀ e, (f e).size ≤ e.size) : (r.modify hash key f).bytes ≤ r.bytes := by
  unfold modify
  rcases h : r.entry hash key with _ | e
  · exact le_rfl
  · have h1 := bytes_put_of_some (e := f e) h
    have h2 := hf e
    simp only
    omega

theorem bytes_apply_le (hf : ∀ e, (f e).size ≤ e.size) : (r.apply f).bytes ≤ r.bytes := by
  refine sum_le_sum fun i _ => ?_
  exact weight_mapValues_le f (fun k e => Nat.add_le_add_left (hf e) _) _

theorem le_bytes (h : r.entry hash key = some e) : e.size ≤ r.bytes := by
  have h1 := bytes_remove h
  omega

/-! ### Last writes -/

@[simp] theorem valuesOf_none : Cache.valuesOf none = [] := rfl

@[simp] theorem valuesOf_some (e : Entry) : Cache.valuesOf (some e) = e.values := rfl

variable (hash) in
def last (r : Ring) (k : Key) (t : Int) : Option Value := lastWrite (Cache.valuesOf (r.entry hash k)) t

/-- **`write`** puts the values behind those of the key, and counts them. -/
theorem write_spec {newKey : Bool} (h : r.write hash key v = .ok (newKey, r')) :
    (∀ k t, r'.last hash k t = if k = key then (lastWrite v t).or (r.last hash k t) else r.last hash k t) ∧
      r'.bytes = r.bytes + sizeOfValues v + if newKey then key.length else 0 := by
  unfold write at h
  rcases hentry : r.entry hash key with _ | e₀
  · rw [hentry] at h
    simp only [bind, Except.bind] at h
    split at h
    · cases h
    next e hnew =>
      cases h
      have hvalues := newEntryValues_values hnew
      constructor
      · intro k t
        rw [last, entry_put]
        split_ifs with hk
        · rw [last, hk, hentry, valuesOf_some, hvalues, valuesOf_none, lastWrite_nil, Option.or_none]
        · rfl
      · rw [bytes_put_of_none hentry, if_pos rfl, entryBytes, size, hvalues]
        omega
  · rw [hentry] at h
    simp only [bind, Except.bind] at h
    split at h
    · cases h
    next e hadd =>
      cases h
      have hvalues := add_values hadd
      constructor
      · intro k t
        rw [last, entry_put]
        split_ifs with hk
        · rw [last, hk, hentry, valuesOf_some, hvalues, lastWrite_append, valuesOf_some]
        · rfl
      · have h1 := bytes_put_of_some (e := e) hentry
        have h2 := sizeOfValues_append e₀.values v
        have h3 : e.size = sizeOfValues (e₀.values ++ v) := by rw [size, hvalues]
        have h4 : e₀.size = sizeOfValues e₀.values := rfl
        simp only [Bool.false_eq_true, if_false]
        omega

theorem last_remove (r : Ring) (key k : Key) (t : Int) :
    (r.remove hash key).last hash k t = if k = key then none else r.last hash k t := by
  rw [last, entry_remove]
  split_ifs <;> rfl

theorem last_modify_deduplicate (r : Ring) (key k : Key) (t : Int) :
    (r.modify hash key Entry.deduplicate).last hash k t = r.last hash k t := by
  rw [last, entry_modify]
  split_ifs with hk
  · subst hk
    rw [last]
    rcases r.entry hash k with _ | e
    · rfl
    · exact e.deduplicate_spec.2.1 t
  · rfl

theorem last_apply_deduplicate (r : Ring) (k : Key) (t : Int) :
    (r.apply Entry.deduplicate).last hash k t = r.last hash k t := by
  rw [last, entry_apply, last]
  rcases r.entry hash k with _ | e
  · rfl
  · exact e.deduplicate_spec.2.1 t

theorem last_modify_filter (h : r.entry hash key = some e) (min max : Int) (k : Key) (t : Int) :
    (r.modify hash key fun e => e.filter min max).last hash k t =
      if k = key ∧ min ≤ t ∧ t ≤ max then none else r.last hash k t := by
  rw [last, entry_modify]
  by_cases hk : k = key
  · subst hk
    rw [if_pos rfl, h, Option.map_some, valuesOf_some, (e.filter_spec min max).1, last, h, valuesOf_some]
    simp only [true_and]
  · rw [if_neg hk, if_neg fun h => hk h.1, last]

theorem last_of_bytes (h : r.bytes = 0) (k : Key) (t : Int) : r.last hash k t = none := by
  rw [last]
  rcases hentry : r.entry hash k with _ | e
  · rfl
  · have hle := le_bytes hentry
    have hnil : e.values = [] := eq_nil_of_sizeOfValues (show e.size = 0 by omega)
    rw [valuesOf_some, hnil, lastWrite_nil]

end Ring

end Influxdb.Tsm1
