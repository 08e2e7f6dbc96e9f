import Mathlib.Data.List.Basic

/-!
# Slices — slices that share their arrays

A slice is a reference to an array and a length; several slices may refer to one array.  Appending writes behind the end of
the slice if the array has room there and moves to a new array if it has not; removing an element moves the elements behind
it down, in the array that other slices may still read.  The lemmas say which slices see such a write.
-/

namespace Influxdb

open List

variable {l : List α} {n : ℕ}

/-- A slice that starts at the beginning of its array. -/
structure SliceHeader where
  array : ℕ
  len : ℕ
deriving DecidableEq

/-- The nil slice, on an array without room. -/
instance : Inhabited SliceHeader := ⟨⟨0, 0⟩⟩

/-- The arrays, each with its capacity; `next` is the first that is not in use. -/
structure Memory (α : Type*) where
  arrays : ℕ → List α
  next : ℕ

namespace Memory

variable {α : Type*} {m : Memory α} {s t : SliceHeader} {v : α} {i j : ℕ}

def items (m : Memory α) (s : SliceHeader) : List α := (m.arrays s.array).take s.len

def write (m : Memory α) (a : ℕ) (l : List α) : Memory α :=
  { m with arrays := fun b => if b = a then l else m.arrays b }

def append (m : Memory α) (s : SliceHeader) (v : α) : SliceHeader × Memory α :=
  if s.len < (m.arrays s.array).length then
    (⟨s.array, s.len + 1⟩, m.write s.array ((m.arrays s.array).set s.len v))
  else (⟨m.next, s.len + 1⟩, { m.write m.next (m.items s ++ [v]) with next := m.next + 1 })

/-- A list whose elements between `i` and `n` have moved down by one. -/
def shiftDown (i n : ℕ) (l : List α) : List α := l.take i ++ ((l.take n).drop (i + 1) ++ l.drop (n - 1))

/-- `append(s[:i], s[i+1:]...)` -/
def removeAt (m : Memory α) (s : SliceHeader) (i : ℕ) : SliceHeader × Memory α :=
  (⟨s.array, s.len - 1⟩, m.write s.array (shiftDown i s.len (m.arrays s.array)))

/-- The slice refers to an array that is in use and is not longer than it. -/
def Fits (m : Memory α) (s : SliceHeader) : Prop := s.len ≤ (m.arrays s.array).length ∧ s.array < m.next

/-! ## Reading -/

theorem arrays_write_self (m : Memory α) (a : ℕ) (l : List α) : (m.write a l).arrays a = l := if_pos rfl

theorem arrays_write_of_ne {a b : ℕ} (h : b ≠ a) (m : Memory α) (l : List α) : (m.write a l).arrays b = m.arrays b :=
  if_neg h

theorem length_items (h : m.Fits s) : (m.items s).length = s.len := by
  rw [items, length_take, Nat.min_eq_left h.1]

/-- **Appending is invisible** to the slices that end where the slice ends or before, and to those on other arrays. -/
theorem items_append (ht : m.Fits t) (h : t.array = s.array → t.len ≤ s.len) (v : α) :
    (m.append s v).2.items t = m.items t := by
  rw [append]
  split_ifs with hroom
  · by_cases ha : t.array = s.array
    · show ((m.write s.array _).arrays t.array).take t.len = _
      rw [items, ha, arrays_write_self, take_set_of_le (h ha)]
    · show ((m.write s.array _).arrays t.array).take t.len = _
      rw [arrays_write_of_ne ha, items]
  · show ((m.write m.next _).arrays t.array).take t.len = _
    rw [arrays_write_of_ne (Nat.ne_of_lt ht.2), items]

theorem Fits.write {a : ℕ} {l : List α} (ht : m.Fits t) (h : t.array = a → (m.arrays a).length ≤ l.length) :
    (m.write a l).Fits t := by
  refine ⟨?_, ht.2⟩
  rcases eq_or_ne t.array a with rfl | ha
  · rw [arrays_write_self]
    exact Nat.le_trans ht.1 (h rfl)
  · rw [arrays_write_of_ne ha]
    exact ht.1

/-! ## Removing -/

theorem getElem?_shiftDown (hi : i < n) (hn : n ≤ l.length) (j : ℕ) :
    (shiftDown i n l)[j]? = if i ≤ j ∧ j + 1 < n then l[j + 1]? else l[j]? := by
  have htake : (l.take i).length = i := by rw [length_take]; omega
  have hmid : ((l.take n).drop (i + 1)).length = n - (i + 1) := by
    rw [length_drop, length_take]; omega
  rw [shiftDown]
  by_cases hji : j < i
  · rw [getElem?_append_left (by omega), getElem?_take_of_lt hji, if_neg (by omega)]
  · rw [getElem?_append_right (by omega), htake]
    by_cases hjn : j + 1 < n
    · rw [getElem?_append_left (by omega), getElem?_drop, if_pos ⟨by omega, hjn⟩,
        show i + 1 + (j - i) = j + 1 by omega, getElem?_take_of_lt hjn]
    · rw [getElem?_append_right (by omega), hmid, getElem?_drop, if_neg (by omega)]
      congr 1
      omega

/-- All elements from `i` on are the same. -/
def Constant (l : List α) (i : ℕ) : Prop := ∀ x ∈ l.drop i, ∀ y ∈ l.drop i, x = y

theorem constant_iff : Constant l i ↔ ∀ j, i ≤ j → j + 1 < l.length → l[j + 1]? = l[j]? := by
  constructor
  · intro h j hij hj
    have hget : ∀ k, i ≤ k → ∀ hk, l[k] ∈ l.drop i := by
      intro k hik hk
      rw [mem_iff_getElem?]
      exact ⟨k - i, by rw [getElem?_drop, show i + (k - i) = k by omega, getElem?_eq_getElem hk]⟩
    rw [getElem?_eq_getElem hj, getElem?_eq_getElem (by omega : j < l.length)]
    exact congrArg some (h _ (hget _ (by omega) hj) _ (hget _ hij (by omega)))
  · intro h
    have hall : ∀ k, i + k < l.length → l[i + k]? = l[i]? := by
      intro k
      induction k with
      | zero => exact fun _ => rfl
      | succ k ih =>
        intro hk
        rw [← ih (by omega)]
        exact h (i + k) (by omega) hk
    have hmem : ∀ x ∈ l.drop i, l[i]? = some x := by
      intro x hx
      obtain ⟨k, hk⟩ := mem_iff_getElem?.mp hx
      rw [getElem?_drop] at hk
      rw [← hk]
      exact (hall k (List.getElem?_eq_some_iff.mp hk).1).symm
    intro x hx y hy
    exact Option.some.inj ((hmem x hx).symm.trans (hmem y hy))

theorem shiftDown_eq_of_constant (hi : i < n) (hn : n ≤ l.length) (h : Constant (l.take n) i) :
    shiftDown i n l = l := by
  rw [constant_iff, length_take, Nat.min_eq_left hn] at h
  refine ext_getElem? fun j => ?_
  rw [getElem?_shiftDown hi hn]
  split_ifs with hc
  · have hj := h j hc.1 hc.2
    rwa [getElem?_take_of_lt hc.2, getElem?_take_of_lt (by omega : j < n)] at hj
  · rfl

theorem take_shiftDown_eq_iff (hi : i < n) (hn : n ≤ l.length) :
    (shiftDown i n l).take n = l.take n ↔ Constant (l.take n) i := by
  refine ⟨fun h => ?_, fun h => by rw [shiftDown_eq_of_constant hi hn h]⟩
  rw [constant_iff, length_take, Nat.min_eq_left hn]
  intro j hij hj
  have hg := congrArg (fun l => l[j]?) h
  simp only [getElem?_take_of_lt (by omega : j < n)] at hg
  rw [getElem?_shiftDown hi hn, if_pos ⟨hij, hj⟩] at hg
  rw [getElem?_take_of_lt hj, getElem?_take_of_lt (by omega : j < n), hg]

/-- **The slice itself sees a removal**, unless all its elements from the removed one on are the same. -/
theorem items_removeAt_self_iff (hs : m.Fits s) (hi : i < s.len) :
    (m.removeAt s i).2.items s = m.items s ↔ Constant (m.items s) i := by
  show ((m.write s.array _).arrays s.array).take s.len = _ ↔ _
  rw [arrays_write_self]
  exact take_shiftDown_eq_iff hi hs.1

theorem items_removeAt_of_constant (hs : m.Fits s) (hi : i < s.len) (h : Constant (m.items s) i) (t : SliceHeader) :
    (m.removeAt s i).2.items t = m.items t := by
  have hw := shiftDown_eq_of_constant hi hs.1 h
  show ((m.write s.array _).arrays t.array).take t.len = _
  rw [hw]
  by_cases ha : t.array = s.array
  · rw [ha, arrays_write_self, items, ha]
  · rw [arrays_write_of_ne ha, items]

theorem length_shiftDown (hi : i < n) (hn : n ≤ l.length) : (shiftDown i n l).length = l.length := by
  rw [shiftDown, length_append, length_append, length_take, length_drop, length_take, length_drop]
  omega

end Memory

end Influxdb
