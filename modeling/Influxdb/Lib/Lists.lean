import Mathlib.Data.List.DropRight

/-!
# Lists — facts about lists

Counting, cutting at a position, stripping the end of a list, and searching two sorted lists that agree
where the search can stop.
-/

namespace Influxdb

open List

variable {α β : Type*} {l : List α}

theorem countP_lt_of_imp {p q : α → Bool} (h : ∀ a ∈ l, p a → q a)
    (hex : ∃ a ∈ l, q a = true ∧ p a = false) : l.countP p < l.countP q := by
  obtain ⟨a, ha, hq, hp⟩ := hex
  obtain ⟨l₁, l₂, rfl⟩ := append_of_mem ha
  have h1 : l₁.countP p ≤ l₁.countP q :=
    countP_mono_left (forall_mem_append.mp h).1
  have h2 : l₂.countP p ≤ l₂.countP q :=
    countP_mono_left fun x hx => h x (mem_append_right _ (mem_cons_of_mem _ hx))
  rw [countP_append, countP_append, countP_cons, countP_cons]
  simp only [hq, hp, if_true]
  simp
  omega

theorem rdropWhile_eq_filter {q : α → Bool} (h : l.Pairwise fun a b => q a = true → q b = true) :
    l.rdropWhile q = l.filter (fun a => !q a) := by
  induction l using reverseRecOn with
  | nil => rfl
  | append_singleton l x ih =>
    obtain ⟨h1, -, h3⟩ := pairwise_append.mp h
    rw [rdropWhile_concat, filter_append]
    split_ifs with hx
    · rw [ih h1]
      simp [hx]
    · rw [filter_eq_self.mpr]
      · simp [hx]
      · intro a ha
        have := mt (h3 a ha x (mem_singleton_self x)) hx
        simpa using this

theorem take_append_drop_length (l : List α) (n : ℕ) : l.take n ++ l.drop (l.take n).length = l := by
  rcases Nat.le_total n l.length with h | h
  · rw [length_take_of_le h, take_append_drop]
  · rw [take_of_length_le h, drop_length, append_nil]

theorem head?_eq_of_sorted {l l' : List ℕ} (hl : l.Pairwise (· ≥ ·)) (hl' : l'.Pairwise (· ≥ ·))
    (h : ∀ i, i ∈ l ↔ i ∈ l') : l.head? = l'.head? := by
  cases l with
  | nil => rw [eq_nil_iff_forall_not_mem.mpr fun i hi => not_mem_nil ((h i).mpr hi)]
  | cons a l =>
    cases l' with
    | nil => exact absurd ((h a).mp mem_cons_self) not_mem_nil
    | cons b l' =>
      have ha : ∀ i ∈ a :: l, i ≤ a := forall_mem_cons.mpr ⟨le_rfl, (pairwise_cons.mp hl).1⟩
      have hb : ∀ i ∈ b :: l', i ≤ b := forall_mem_cons.mpr ⟨le_rfl, (pairwise_cons.mp hl').1⟩
      exact congrArg some (le_antisymm (hb a ((h a).mp mem_cons_self)) (ha b ((h b).mpr mem_cons_self)))

theorem findSome?_eq_of_sorted {f : ℕ → Option β} {l l' : List ℕ} (hl : l.Pairwise (· ≥ ·))
    (hl' : l'.Pairwise (· ≥ ·)) (h : ∀ i, f i ≠ none → (i ∈ l ↔ i ∈ l')) : l.findSome? f = l'.findSome? f := by
  -- the hit is the value at the greatest element that has one
  have hfind (l : List ℕ) : l.findSome? f = (l.filter fun i => (f i).isSome).head?.bind f := by
    induction l with
    | nil => rfl
    | cons i l ih => cases hi : f i <;> simp [hi, ih]
  rw [hfind, hfind, head?_eq_of_sorted (hl.filter _) (hl'.filter _)]
  intro i
  rw [mem_filter, mem_filter]
  exact and_congr_left fun hi => h i (Option.isSome_iff_ne_none.mp hi)

theorem forall_mem_iff_of_forall₂ {R : α → β → Prop} {P : α → Prop} {Q : β → Prop} {l' : List β}
    (h : Forall₂ R l l') (hPQ : ∀ a b, R a b → (Q b ↔ P a)) : (∀ b ∈ l', Q b) ↔ ∀ a ∈ l, P a := by
  induction h with
  | nil => simp
  | cons hab _ ih => simp only [forall_mem_cons, hPQ _ _ hab, ih]

theorem map_eq_of_forall₂ {f : α → β} {l l' : List α} (h : Forall₂ (fun a b => f b = f a) l l') :
    l'.map f = l.map f := by
  induction h with
  | nil => rfl
  | cons hab _ ih => rw [map_cons, map_cons, hab, ih]

theorem foldlM_some_induction {P : β → Prop} {f : β → α → Option β}
    (hf : ∀ b a b', P b → f b a = some b' → P b') {b b' : β} (hb : P b) (h : l.foldlM f b = some b') : P b' := by
  induction l generalizing b with
  | nil => exact Option.some.inj h ▸ hb
  | cons a l ih =>
    rw [foldlM_cons] at h
    obtain ⟨c, hc, h⟩ := Option.bind_eq_some_iff.mp h
    exact ih (hf b a c hb hc) h

/-- A loop whose body keeps an invariant and does not fail. -/
theorem exists_foldlM {P : β → Prop} {f : β → α → Option β} (hf : ∀ b a, P b → ∃ b', f b a = some b' ∧ P b')
    (l : List α) {b : β} (hb : P b) : ∃ b', l.foldlM f b = some b' ∧ P b' := by
  induction l generalizing b with
  | nil => exact ⟨b, rfl, hb⟩
  | cons a l ih =>
    obtain ⟨b', heq, hb'⟩ := hf b a hb
    obtain ⟨b'', heq', hb''⟩ := ih hb'
    exact ⟨b'', by rw [foldlM_cons, heq]; exact heq', hb''⟩

theorem mem_of_mem_replace {l₁ ls l₂ : List α} {a b : α} (h : b ∈ l₁ ++ a :: l₂) : b = a ∨ b ∈ l₁ ++ (ls ++ l₂) := by
  rcases mem_append.mp h with h | h
  · exact .inr (mem_append_left _ h)
  · rcases mem_cons.mp h with rfl | h
    · exact .inl rfl
    · exact .inr (mem_append_right _ (mem_append_right _ h))

end Influxdb
