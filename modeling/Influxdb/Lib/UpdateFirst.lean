import Influxdb.Lib.Lists
import Mathlib.Data.List.Forall2

/-!
# UpdateFirst — replacing the first element of a list that something can be done with

A search through a list that stops at the first hit and changes the hit in place.  `updateFirst f l` asks `f` of one element
after the other and replaces the first one that `f` answers.
-/

namespace Influxdb

open List

variable {α : Type*} {f : α → Option α} {l l' : List α} {p : α → Bool} {a b : α} {g : α → List β}

/-- Replace the first element that `f` answers; `none` if there is none. -/
def updateFirst (f : α → Option α) : List α → Option (List α)
  | [] => none
  | a :: l =>
    match f a with
    | some b => some (b :: l)
    | none => (updateFirst f l).map (a :: ·)

/-- **What becomes of the elements**: each stays as it is or is replaced by the answer of `f`. -/
theorem forall₂_updateFirst {R : α → α → Prop} (hrefl : ∀ a, R a a) (hf : ∀ a b, f a = some b → R a b)
    (h : updateFirst f l = some l') : Forall₂ R l l' := by
  induction l generalizing l' with
  | nil => cases h
  | cons a l ih =>
    cases ha : f a with
    | some b =>
      simp only [updateFirst, ha] at h
      cases h
      exact .cons (hf a b ha) (List.forall₂_same.mpr fun c _ => hrefl c)
    | none =>
      simp only [updateFirst, ha] at h
      obtain ⟨m, hm, rfl⟩ := Option.map_eq_some_iff.mp h
      exact .cons (hrefl a) (ih hm)

variable {β : Type*}

theorem exists_left_of_forall₂ {R : α → β → Prop} {m : List β} (h : Forall₂ R l m) : ∀ b ∈ m, ∃ a ∈ l, R a b := by
  induction h with
  | nil => exact forall_mem_nil _
  | @cons a b _ _ hab _ ih =>
    exact forall_mem_cons.mpr ⟨⟨a, mem_cons_self, hab⟩, fun c hc => exists_mem_cons_of_exists (ih c hc)⟩

theorem pairwise_of_forall₂ {R : α → β → Prop} {S : α → α → Prop} {S' : β → β → Prop} {m : List β} (h : Forall₂ R l m)
    (hl : l.Pairwise S) (hS : ∀ a ∈ l, ∀ b ∈ l, ∀ a' b', R a a' → R b b' → S a b → S' a' b') : m.Pairwise S' := by
  induction h with
  | nil => exact .nil
  | @cons a a' l m ha hlm ih =>
    obtain ⟨h1, h2⟩ := pairwise_cons.mp hl
    refine pairwise_cons.mpr ⟨fun b' hb' => ?_, ih h2 fun b hb c hc => hS b (mem_cons_of_mem a hb) c (mem_cons_of_mem a hc)⟩
    obtain ⟨b, hb, hbb⟩ := exists_left_of_forall₂ hlm b' hb'
    exact hS a mem_cons_self b (mem_cons_of_mem a hb) a' b' ha hbb (h1 b hb)

theorem flatMap_updateFirst (hf : ∀ a b, f a = some b → g b = g a)
    (h : updateFirst f l = some l') : l'.flatMap g = l.flatMap g := by
  rw [flatMap_def, flatMap_def, map_eq_of_forall₂ (forall₂_updateFirst (fun _ => rfl) hf h)]

/-- A search that `f` does not change the outcome of finds the replaced element where it found the old one. -/
theorem find?_updateFirst (hf : ∀ a b, f a = some b → p b = p a) (h : updateFirst f l = some l') :
    l'.find? p = l.find? p ∨ ∃ a b, l.find? p = some a ∧ f a = some b ∧ l'.find? p = some b := by
  induction l generalizing l' with
  | nil => cases h
  | cons a l ih =>
    cases ha : f a with
    | some b =>
      simp only [updateFirst, ha] at h
      cases h
      cases hp : p a with
      | true => exact .inr ⟨a, b, find?_cons_of_pos hp, ha, find?_cons_of_pos ((hf a b ha).trans hp)⟩
      | false =>
        have hpb : p b = false := (hf a b ha).trans hp
        left
        rw [find?_cons_of_neg (by simp [hpb]), find?_cons_of_neg (by simp [hp])]
    | none =>
      simp only [updateFirst, ha] at h
      obtain ⟨m, hm, rfl⟩ := Option.map_eq_some_iff.mp h
      cases hp : p a with
      | true =>
        left
        rw [find?_cons_of_pos hp, find?_cons_of_pos hp]
      | false =>
        rw [find?_cons_of_neg (by simp [hp]), find?_cons_of_neg (by simp [hp])]
        exact ih hm

/-- Put `b` in the place of the first element with `p`. -/
def replaceFirst (p : α → Bool) (b : α) : List α → List α
  | [] => []
  | a :: l => if p a then b :: l else a :: replaceFirst p b l

theorem replaceFirst_split {a : α} (h : l.find? p = some a) (b : α) :
    ∃ l₁ l₂, l = l₁ ++ a :: l₂ ∧ replaceFirst p b l = l₁ ++ b :: l₂ := by
  induction l with
  | nil => cases h
  | cons c l ih =>
    rw [replaceFirst]
    by_cases hc : p c = true
    · rw [find?_cons_of_pos hc] at h
      cases h
      exact ⟨[], l, rfl, if_pos hc⟩
    · rw [find?_cons_of_neg hc] at h
      obtain ⟨l₁, l₂, hl, hr⟩ := ih h
      exact ⟨c :: l₁, l₂, by rw [hl, cons_append], by rw [if_neg hc, hr, cons_append]⟩

theorem flatMap_replaceFirst (h : l.find? p = some a)
    (hb : g b = g a) : (replaceFirst p b l).flatMap g = l.flatMap g := by
  obtain ⟨l₁, l₂, rfl, hr⟩ := replaceFirst_split h b
  rw [hr, flatMap_append, flatMap_append, flatMap_cons, flatMap_cons, hb]

theorem find?_replaceFirst (hb : p b = true) (h : l.find? p = some a) : (replaceFirst p b l).find? p = some b := by
  induction l with
  | nil => cases h
  | cons c l ih =>
    rw [replaceFirst]
    by_cases hc : p c = true
    · rw [if_pos hc, find?_cons_of_pos hb]
    · rw [find?_cons_of_neg hc] at h
      rw [if_neg hc, find?_cons_of_neg hc]
      exact ih h

end Influxdb
