import Mathlib.Data.List.Sort
import Mathlib.Order.MinMax

/-!
# Ranges — half-open ranges that do not overlap

A range `[lo, hi)` over a linear order, empty ones included.  Two ranges overlap when each begins strictly before the
other ends, so an empty range overlaps what it lies strictly inside of.  Two things are shown of a list of ranges that do
not overlap: listed by their ends and then by their starts they are also listed by their starts (`lo_le_lo_of_order`), and
one pass over them cuts a window around a point down to its largest free part (`narrowAll_spec`).
-/

namespace Influxdb

@[ext] structure Range (α : Type*) where
  lo : α
  hi : α
deriving DecidableEq

namespace Range

variable {α : Type*} [LinearOrder α] {r s v w : Range α} {t : α}

def Contains (r : Range α) (t : α) : Prop := r.lo ≤ t ∧ t < r.hi

/-- Each range begins strictly before the other ends. -/
def Overlaps (r s : Range α) : Prop := r.lo < s.hi ∧ s.lo < r.hi

def Within (r s : Range α) : Prop := s.lo ≤ r.lo ∧ r.hi ≤ s.hi

theorem Overlaps.symm (h : r.Overlaps s) : s.Overlaps r := ⟨h.2, h.1⟩

theorem overlaps_of_contains (hr : r.Contains t) (hs : s.Contains t) : r.Overlaps s :=
  ⟨hr.1.trans_lt hs.2, hs.1.trans_lt hr.2⟩

theorem Within.refl (r : Range α) : r.Within r := ⟨le_rfl, le_rfl⟩

theorem Within.trans (h : v.Within w) (h' : w.Within r) : v.Within r := ⟨h'.1.trans h.1, h.2.trans h'.2⟩

theorem Within.contains (h : v.Within w) (ht : v.Contains t) : w.Contains t := ⟨h.1.trans ht.1, ht.2.trans_le h.2⟩

theorem Within.antisymm (h : v.Within w) (h' : w.Within v) : v = w :=
  Range.ext (le_antisymm h'.1 h.1) (le_antisymm h.2 h'.2)

theorem Overlaps.mono (h : v.Overlaps r) (hv : v.Within w) (hr : r.Within s) : w.Overlaps s :=
  ⟨(hv.1.trans_lt h.1).trans_le hr.2, (hr.1.trans_lt h.2).trans_le hv.2⟩

/-- **Order by ends is order by starts** for ranges that do not overlap. -/
theorem lo_le_lo_of_order (hr : r.lo ≤ r.hi) (hno : ¬r.Overlaps s)
    (hord : r.hi < s.hi ∨ r.hi = s.hi ∧ r.lo ≤ s.lo) : r.lo ≤ s.lo := by
  rcases hord with hlt | ⟨-, hle⟩
  · by_contra hlo
    rw [not_le] at hlo
    exact hno ⟨hr.trans_lt hlt, hlo.trans_le hr⟩
  · exact hle

/-- The range from the first start to the last end. -/
def hull (r s : Range α) : Range α := ⟨min r.lo s.lo, max r.hi s.hi⟩

theorem within_hull_left (r s : Range α) : r.Within (hull r s) := ⟨min_le_left _ _, le_max_left _ _⟩

theorem within_hull_right (r s : Range α) : s.Within (hull r s) := ⟨min_le_right _ _, le_max_right _ _⟩

theorem hull_within (hr : r.Within w) (hs : s.Within w) : (hull r s).Within w := ⟨le_min hr.1 hs.1, max_le hr.2 hs.2⟩

theorem not_overlaps_hull (hov : r.Overlaps s) (hv : v.lo ≤ v.hi) (hr : ¬r.Overlaps v) (hs : ¬s.Overlaps v) :
    ¬(hull r s).Overlaps v := by
  rintro ⟨hlo, hhi⟩
  rcases min_lt_iff.mp hlo with hlo | hlo <;> rcases lt_max_iff.mp hhi with hhi | hhi
  · exact hr ⟨hlo, hhi⟩
  · rcases le_or_gt v.hi s.lo with hle | hlt
    · exact hr ⟨hlo, (hv.trans hle).trans_lt hov.2⟩
    · exact hs ⟨hlt, hhi⟩
  · rcases le_or_gt v.hi r.lo with hle | hlt
    · exact hs ⟨hlo, (hv.trans hle).trans_lt hov.1⟩
    · exact hr ⟨hlt, hhi⟩
  · exact hs ⟨hlo, hhi⟩

/-! ## The largest free part of a window -/

/-- Cut the window `w` around `t` so that it does not overlap `r`. -/
def narrow (t : α) (w r : Range α) : Range α :=
  ⟨if r.hi ≤ t ∧ w.lo < r.hi then r.hi else w.lo, if t < r.lo ∧ r.lo < w.hi then r.lo else w.hi⟩

/-- Cut the window by every range of a list, in one pass. -/
def narrowAll (t : α) (w : Range α) (rs : List (Range α)) : Range α := rs.foldl (narrow t) w

theorem narrow_within (t : α) (w r : Range α) : (narrow t w r).Within w := by
  simp only [narrow, Within]
  constructor
  · split_ifs with h
    · exact h.2.le
    · exact le_rfl
  · split_ifs with h
    · exact h.2.le
    · exact le_rfl

theorem narrow_contains (hw : w.Contains t) : (narrow t w r).Contains t := by
  simp only [narrow, Contains]
  constructor
  · split_ifs with h
    · exact h.1
    · exact hw.1
  · split_ifs with h
    · exact h.1
    · exact hw.2

theorem not_overlaps_narrow (hr : ¬r.Contains t) : ¬(narrow t w r).Overlaps r := by
  simp only [narrow, Overlaps]
  rintro ⟨hlo, hhi⟩
  by_cases hrt : r.hi ≤ t
  · -- `r` ends before the point: the window starts at its end at the earliest
    split_ifs at hlo with h
    · exact lt_irrefl _ hlo
    · exact h ⟨hrt, hlo⟩
  · have htr : t < r.lo := not_le.mp fun hle => hr ⟨hle, not_le.mp hrt⟩
    split_ifs at hhi with h
    · exact lt_irrefl _ hhi
    · exact h ⟨htr, hhi⟩

theorem within_narrow (hr : r.lo ≤ r.hi) (hv : v.Contains t) (hvw : v.Within w) (hvr : ¬v.Overlaps r) :
    v.Within (narrow t w r) := by
  simp only [narrow, Within]
  constructor
  · split_ifs with h
    · by_contra hlt
      exact hvr ⟨not_le.mp hlt, (hr.trans h.1).trans_lt hv.2⟩
    · exact hvw.1
  · split_ifs with h
    · by_contra hlt
      exact hvr ⟨hv.1.trans_lt (h.1.trans_le hr), not_le.mp hlt⟩
    · exact hvw.2

/-- **One pass cuts a window down to its largest free part** around a point that no range of the list contains. -/
theorem narrowAll_spec {rs : List (Range α)} (hw : w.Contains t) (hrs : ∀ r ∈ rs, r.lo ≤ r.hi ∧ ¬r.Contains t) :
    (narrowAll t w rs).Contains t ∧ (narrowAll t w rs).Within w ∧ (∀ r ∈ rs, ¬(narrowAll t w rs).Overlaps r) ∧
      ∀ v : Range α, v.Contains t → v.Within w → (∀ r ∈ rs, ¬v.Overlaps r) → v.Within (narrowAll t w rs) := by
  induction rs generalizing w with
  | nil => exact ⟨hw, Within.refl w, List.forall_mem_nil _, fun v _ hvw _ => hvw⟩
  | cons r rs ih =>
    obtain ⟨hr, hrs⟩ := List.forall_mem_cons.mp hrs
    obtain ⟨hcon, hwithin, hfree, hlargest⟩ := ih (narrow_contains hw) hrs
    refine ⟨hcon, hwithin.trans (narrow_within t w r), List.forall_mem_cons.mpr ⟨fun hov => ?_, hfree⟩, ?_⟩
    · exact not_overlaps_narrow hr.2 (hov.mono hwithin (Within.refl r))
    · intro v hv hvw hvfree
      obtain ⟨hvr, hvrs⟩ := List.forall_mem_cons.mp hvfree
      exact hlargest v hv (within_narrow hr.1 hv hvw hvr) hvrs

end Range

end Influxdb
