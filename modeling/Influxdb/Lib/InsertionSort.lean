import Mathlib.Data.List.Chain
import Mathlib.Data.List.Sort

/-!
# InsertionSort — insertion sort under an arbitrary comparison

`insertionSort less l` takes the elements of `l` in order and moves each one to the left past its
neighbours for as long as `less` puts it before them.  Nothing is assumed of `less` beyond asymmetry:
it may fail to be transitive, and then the result is not sorted in any global sense.  What survives is
local: the result comes from `l` by exchanges of adjacent pairs that `less` orders the other way
(`insertionSort_induction`), and no adjacent pair of the result is out of order (`isChain_insertionSort`).
-/

namespace Influxdb

open List

variable {α : Type*} {less : α → α → Bool} {l : List α}

/-- Insert `x` at the end of the list whose reverse is `r`, moving it left while `less` says so. -/
def insertRev (less : α → α → Bool) (x : α) : List α → List α
  | [] => [x]
  | e :: r => if less x e then e :: insertRev less x r else x :: e :: r

/-- Insertion sort, from left to right. -/
def insertionSort (less : α → α → Bool) (l : List α) : List α :=
  (l.foldl (fun r x => insertRev less x r) []).reverse

variable {P : List α → Prop} (h : ∀ as x y bs, less y x = true → P (as ++ x :: y :: bs) → P (as ++ y :: x :: bs))

include h

/-- A property kept by every exchange of an adjacent pair that `less` orders the other way is kept by
moving one element to its place. -/
theorem insertRev_induction (x : α) : ∀ r bs, P (r.reverse ++ x :: bs) → P ((insertRev less x r).reverse ++ bs)
  | [], bs, hP => by simpa [insertRev] using hP
  | e :: r, bs, hP => by
    rw [insertRev]
    split_ifs with hl
    · have hP' := insertRev_induction x r (e :: bs) (h r.reverse e x bs hl (by simpa using hP))
      simpa using hP'
    · simpa using hP

/-- **Insertion sort is a sequence of exchanges** of adjacent pairs that `less` orders the other way. -/
theorem insertionSort_induction (hl : P l) : P (insertionSort less l) := by
  have key : ∀ xs r, P (r.reverse ++ xs) → P (xs.foldl (fun r x => insertRev less x r) r).reverse := by
    intro xs
    induction xs with
    | nil => intro r hr; simpa using hr
    | cons x xs ih => intro r hr; exact ih _ (insertRev_induction h x r xs hr)
  exact key l [] (by simpa using hl)

omit h

theorem insertionSort_perm (l : List α) : (insertionSort less l).Perm l := by
  refine insertionSort_induction (P := fun l' => l'.Perm l) ?_ (Perm.refl l)
  intro as x y bs _ hp
  exact ((Perm.swap x y bs).append_left as).trans hp

@[simp] theorem mem_insertionSort {x : α} : x ∈ insertionSort less l ↔ x ∈ l :=
  (insertionSort_perm l).mem_iff

theorem insertRev_map {β : Type*} {less' : β → β → Bool} {f : β → α} {x : β} :
    ∀ {r : List β}, (∀ y ∈ r, less (f x) (f y) = less' x y) →
      insertRev less (f x) (r.map f) = (insertRev less' x r).map f
  | [], _ => rfl
  | y :: r, h => by
    rw [map_cons, insertRev, insertRev, h y mem_cons_self, insertRev_map (forall_mem_cons.mp h).2]
    split_ifs <;> rfl

theorem mem_insertRev {x y : α} {r : List α} : y ∈ insertRev less x r ↔ y = x ∨ y ∈ r := by
  induction r with
  | nil => simp [insertRev]
  | cons e r ih =>
    rw [insertRev]
    split_ifs
    · rw [mem_cons, ih, mem_cons]
      exact or_left_comm
    · rw [mem_cons]

theorem insertionSort_map {β : Type*} {less' : β → β → Bool} {f : β → α} {l : List β}
    (h : ∀ x ∈ l, ∀ y ∈ l, less (f x) (f y) = less' x y) :
    insertionSort less (l.map f) = (insertionSort less' l).map f := by
  have key : ∀ (xs r : List β), (∀ x ∈ xs, ∀ y ∈ xs ++ r, less (f x) (f y) = less' x y) →
      (xs.map f).foldl (fun r x => insertRev less x r) (r.map f) =
        (xs.foldl (fun r x => insertRev less' x r) r).map f := by
    intro xs
    induction xs with
    | nil => exact fun r _ => rfl
    | cons x xs ih =>
      intro r hr
      have hx : insertRev less (f x) (r.map f) = (insertRev less' x r).map f :=
        insertRev_map fun y hy => hr x mem_cons_self y (mem_append_right _ hy)
      rw [map_cons, foldl_cons, foldl_cons, hx]
      refine ih _ fun y hy z hz => hr y (mem_cons_of_mem x hy) z ?_
      rw [mem_append, mem_insertRev] at hz
      rw [cons_append, mem_cons, mem_append]
      tauto
  rw [insertionSort, insertionSort, map_reverse]
  exact congrArg List.reverse (key l [] fun x hx y hy => h x hx y (by simpa using hy))

section Chain

variable (less) in
/-- `y` may stand right after `x`. -/
def NotAfter (x y : α) : Prop := less y x = false

theorem isChain_insertRev (hasymm : ∀ x y, less x y = true → less y x = false) (x : α) :
    ∀ {r : List α}, r.IsChain (fun a b => NotAfter less b a) →
      (insertRev less x r).IsChain (fun a b => NotAfter less b a)
  | [], _ => by simp [insertRev]
  | e :: r, hr => by
    rw [insertRev]
    split_ifs with hl
    · -- `x` passes `e`: the new neighbour of `e` is `x` or the old one
      have ih : (insertRev less x r).IsChain (fun a b => NotAfter less b a) :=
        isChain_insertRev hasymm x hr.tail
      cases r with
      | nil =>
        simp only [insertRev, isChain_cons_cons, isChain_singleton, and_true]
        exact hasymm _ _ hl
      | cons d r =>
        rw [insertRev] at ih ⊢
        split_ifs at ih ⊢ with hd
        · exact isChain_cons_cons.mpr ⟨(isChain_cons_cons.mp hr).1, ih⟩
        · exact isChain_cons_cons.mpr ⟨hasymm _ _ hl, ih⟩
    · exact isChain_cons_cons.mpr ⟨by simpa [NotAfter] using hl, hr⟩

theorem isChain_insertionSort (hasymm : ∀ x y, less x y = true → less y x = false) (l : List α) :
    (insertionSort less l).IsChain (NotAfter less) := by
  have key : ∀ (xs r : List α), r.IsChain (fun a b => NotAfter less b a) →
      (xs.foldl (fun r x => insertRev less x r) r).IsChain (fun a b => NotAfter less b a) := by
    intro xs
    induction xs with
    | nil => exact fun r hr => hr
    | cons x xs ih => exact fun r hr => ih _ (isChain_insertRev hasymm x hr)
  unfold insertionSort
  rw [isChain_reverse]
  exact key l [] isChain_nil

theorem insertionSort_of_isChain (h : l.IsChain (NotAfter less)) : insertionSort less l = l := by
  have key : ∀ (xs r : List α), (r.reverse ++ xs).IsChain (NotAfter less) →
      (xs.foldl (fun r x => insertRev less x r) r).reverse = r.reverse ++ xs := by
    intro xs
    induction xs with
    | nil => intro r _; simp
    | cons x xs ih =>
      intro r hr
      have hins : insertRev less x r = x :: r := by
        cases r with
        | nil => rfl
        | cons e r =>
          have he : NotAfter less e x := by
            rw [reverse_cons, append_assoc, singleton_append] at hr
            exact (isChain_cons_cons.mp hr.right_of_append).1
          rw [insertRev, if_neg (by simpa [NotAfter] using he)]
      rw [foldl_cons, hins, ih (x :: r) (by simpa using hr)]
      simp
  exact key l [] (by simpa using h)

end Chain

section Keys

variable {κ : Type*} [LinearOrder κ] {key : α → κ}

def sortByKey (key : α → κ) (l : List α) : List α := insertionSort (fun a b => key a < key b) l

theorem sortByKey_perm (key : α → κ) (l : List α) : (sortByKey key l).Perm l := insertionSort_perm l

@[simp] theorem mem_sortByKey {x : α} : x ∈ sortByKey key l ↔ x ∈ l := (sortByKey_perm key l).mem_iff

theorem pairwise_sortByKey (l : List α) : (sortByKey key l).Pairwise fun a b => key a ≤ key b := by
  have hasymm : ∀ x y, decide (key x < key y) = true → decide (key y < key x) = false := by
    intro x y hxy
    exact decide_eq_false (not_lt.mpr (of_decide_eq_true hxy).le)
  have hle : (sortByKey key l).IsChain fun a b => key a ≤ key b :=
    (isChain_insertionSort hasymm l).imp fun a b hab => not_lt.mp (of_decide_eq_false hab)
  have htrans : IsTrans α fun a b => key a ≤ key b := ⟨fun a b c => le_trans⟩
  exact isChain_iff_pairwise.mp hle

theorem pairwise_lt_sortByKey (hnd : (l.map key).Nodup) : (sortByKey key l).Pairwise fun a b => key a < key b := by
  have hnd' : ((sortByKey key l).map key).Nodup := ((sortByKey_perm key l).map key).nodup_iff.mpr hnd
  have hne : (sortByKey key l).Pairwise fun a b => key a ≠ key b := pairwise_map.mp hnd'
  exact (pairwise_sortByKey l).imp₂ (fun a b hle hne => lt_of_le_of_ne hle hne) hne

/-- **A list with distinct keys** has one order. -/
theorem sortByKey_eq_of_perm {l l' : List α} (hperm : l.Perm l') (hnd : (l.map key).Nodup) :
    sortByKey key l = sortByKey key l' := by
  have hp : (sortByKey key l).Perm (sortByKey key l') :=
    (sortByKey_perm key l).trans (hperm.trans (sortByKey_perm key l').symm)
  refine hp.eq_of_pairwise ?_ (pairwise_sortByKey l) (pairwise_sortByKey l')
  intro a b ha hb hab hba
  exact inj_on_of_nodup_map hnd (mem_sortByKey.mp ha)
    (hperm.mem_iff.mpr (mem_sortByKey.mp hb)) (le_antisymm hab hba)

end Keys

end Influxdb
