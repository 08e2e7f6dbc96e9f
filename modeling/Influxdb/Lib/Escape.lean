import Influxdb.Lib.Bytes

/-!
# Escape — backslashes before special bytes

`esc` puts a backslash before every special byte, and `unesc` takes one away before every special byte that has one.  A
text is escaped if every special byte in it stands behind a backslash; such a text is `esc` of its `unesc`.  `runLen`
counts the bytes up to the first stop byte that does not stand behind a backslash, looking only one byte back.
-/

namespace Influxdb

open List

def backslash : Byte := 92

/-- Put a backslash before every special byte. -/
def esc (special : Byte → Bool) (x : List Byte) : List Byte :=
  x.flatMap fun c => if special c then [backslash, c] else [c]

/-- Take away the backslash right before a special byte. -/
def unesc (special : Byte → Bool) : List Byte → List Byte
  | [] => []
  | [c] => [c]
  | c :: d :: x => if c = backslash ∧ special d then d :: unesc special x else c :: unesc special (d :: x)

/-- Every special byte stands behind a backslash; `p` is the byte before the text. -/
def Escaped (special : Byte → Bool) : Byte → List Byte → Prop
  | _, [] => True
  | p, c :: x => (special c → p = backslash) ∧ Escaped special c x

/-- The number of bytes up to the first stop byte that is not behind a backslash. -/
def runLen (stop : Byte → Bool) : Byte → List Byte → ℕ
  | _, [] => 0
  | p, c :: x => if stop c ∧ p ≠ backslash then 0 else runLen stop c x + 1

/-- Does a backslash stand right before a special byte? -/
def hasEscape (special : Byte → Bool) : List Byte → Bool
  | [] => false
  | c :: x => (c == backslash && (x.head?.map special).getD false) || hasEscape special x

/-- Do two backslashes stand right before a special byte? -/
def hasDoubleEscape (special : Byte → Bool) : List Byte → Bool
  | [] => false
  | c :: x =>
    (c == backslash && x.head? == some backslash && (x.tail.head?.map special).getD false) || hasDoubleEscape special x

variable {S T : Byte → Bool} {p c d : Byte} {x y : List Byte}

instance decidableEscaped : ∀ (p : Byte) (x : List Byte), Decidable (Escaped S p x)
  | _, [] => inferInstanceAs (Decidable True)
  | p, c :: x =>
    haveI := decidableEscaped c x
    inferInstanceAs (Decidable ((S c → p = backslash) ∧ Escaped S c x))

theorem esc_cons_of_special (h : S c) (x : List Byte) : esc S (c :: x) = backslash :: c :: esc S x := by
  rw [esc, flatMap_cons, if_pos h]
  rfl

theorem esc_cons_of_not (h : ¬S c) (x : List Byte) : esc S (c :: x) = c :: esc S x := by
  rw [esc, flatMap_cons, if_neg h]
  rfl

theorem unesc_pair (h : S d) (x : List Byte) : unesc S (backslash :: d :: x) = d :: unesc S x := by
  rw [unesc, if_pos ⟨rfl, h⟩]

theorem unesc_cons (h : c = backslash → ∀ d ∈ x.head?, ¬S d) : unesc S (c :: x) = c :: unesc S x := by
  cases x with
  | nil => rfl
  | cons d x =>
    rw [unesc, if_neg]
    rintro ⟨rfl, hd⟩
    exact h rfl d rfl hd

theorem head_esc {P : Byte → Prop} (hb : P backslash) {x : List Byte} (hx : ∀ c ∈ x.head?, ¬S c → P c) :
    ∀ d ∈ (esc S x).head?, P d := by
  cases x with
  | nil =>
    intro d hd
    cases hd
  | cons c x =>
    intro d hd
    by_cases h : S c
    · rw [esc_cons_of_special h] at hd
      cases hd
      exact hb
    · rw [esc_cons_of_not h] at hd
      cases hd
      exact hx c rfl h

/-- **Escaping can be undone.** -/
theorem unesc_esc (hS : ¬S backslash) (x : List Byte) : unesc S (esc S x) = x := by
  induction x with
  | nil => rfl
  | cons c x ih =>
    by_cases h : S c
    · rw [esc_cons_of_special h, unesc_pair h, ih]
    · rw [esc_cons_of_not h, unesc_cons fun _ => head_esc hS fun _ _ => id, ih]

/-- **An escaped text** is what escaping makes of its meaning. -/
theorem esc_unesc (hS : ¬S backslash) (x : List Byte) :
    ∀ {p : Byte}, (∀ c ∈ x.head?, ¬S c) → Escaped S p x → esc S (unesc S x) = x := by
  fun_induction unesc S x with
  | case1 => exact fun _ _ => rfl
  | case2 c =>
    intro p hhead _
    exact esc_cons_of_not (hhead c rfl) []
  | case3 c d x hpair ih =>
    obtain ⟨rfl, hd⟩ := hpair
    intro p _ hx
    rw [esc_cons_of_special hd, ih ?_ hx.2.2]
    -- the next byte cannot be special, for `d` is no backslash
    intro e he
    cases x with
    | nil => cases he
    | cons e' x =>
      cases he
      intro hspecial
      exact hS (hx.2.2.1 hspecial ▸ hd)
  | case4 c d x hpair ih =>
    intro p hhead hx
    have hc : ¬S c := hhead c rfl
    rw [esc_cons_of_not hc, ih ?_ hx.2]
    intro e he
    cases he
    intro hspecial
    exact hpair ⟨hx.2.1 hspecial, hspecial⟩

theorem unesc_ne_nil (h : x ≠ []) : unesc S x ≠ [] := by
  match x with
  | [] => exact absurd rfl h
  | [c] => exact h
  | c :: d :: x =>
    rw [unesc]
    split_ifs <;> exact cons_ne_nil _ _

theorem unesc_of_not_mem (h : ∀ c ∈ x, ¬S c) : unesc S x = x := by
  induction x with
  | nil => rfl
  | cons c x ih =>
    rw [unesc_cons, ih (forall_mem_cons.mp h).2]
    intro _ d hd
    exact h d (mem_cons_of_mem _ (mem_of_mem_head? hd))

theorem unesc_append (hx : backslash ∉ x) (y : List Byte) : unesc S (x ++ y) = x ++ unesc S y := by
  induction x with
  | nil => rfl
  | cons c x ih =>
    rw [mem_cons, not_or] at hx
    rw [cons_append, unesc_cons fun hc => absurd hc.symm hx.1, ih hx.2, cons_append]

theorem unesc_of_no_backslash (h : backslash ∉ x) : unesc S x = x := by
  simpa [unesc] using unesc_append (S := S) h []

theorem esc_of_not_mem (h : ∀ c ∈ x, ¬S c) : esc S x = x := by
  induction x with
  | nil => rfl
  | cons c x ih =>
    rw [esc_cons_of_not (h c mem_cons_self), ih (forall_mem_cons.mp h).2]

theorem head_unesc (h : d ∈ (unesc S x).head?) : d ∈ x.head? ∨ S d := by
  match x with
  | [] => cases h
  | [c] => exact .inl h
  | c :: e :: x =>
    rw [unesc] at h
    split_ifs at h with hpair
    · cases h
      exact .inr hpair.2
    · exact .inl h

/-- **Two sets** of special bytes, one after the other. -/
theorem unesc_unesc (hS : ¬S backslash) (hT : ¬T backslash) (hST : ∀ c, S c → ¬T c) (x : List Byte) :
    unesc T (unesc S x) = unesc (fun c => S c || T c) x := by
  fun_induction unesc (fun c => S c || T c) x with
  | case1 | case2 c => rfl
  | case3 c d x hpair ih =>
    obtain ⟨rfl, hd⟩ := hpair
    by_cases hSd : S d
    · rw [unesc_pair hSd, unesc_cons fun heq => absurd (heq ▸ hSd) hS, ih]
    · have hTd : T d := by simpa [hSd] using hd
      have hstay : unesc S (d :: x) = d :: unesc S x := unesc_cons fun heq => absurd (heq ▸ hTd) hT
      rw [unesc_cons fun _ e he => by cases he; exact hSd, hstay, unesc_pair hTd, ih]
  | case4 c d x hpair ih =>
    have hd : c = backslash → ¬S d ∧ ¬T d := by
      intro hc
      have hnot : ¬(S d || T d) = true := fun h => hpair ⟨hc, h⟩
      simpa using hnot
    rw [unesc_cons fun hc e he => by cases he; exact (hd hc).1, unesc_cons, ih]
    intro hc e he
    rcases head_unesc he with he | he
    · cases he
      exact (hd hc).2
    · exact hST e he

/-! ## Backslashes that are left -/

/-- Taking backslashes away leaves a text alone exactly if none stands before a special byte. -/
theorem unesc_eq_self_iff : unesc S x = x ↔ hasEscape S x = false := by
  have hlen : ∀ x, (unesc S x).length ≤ x.length := by
    intro x
    fun_induction unesc S x with
    | case1 | case2 c => exact le_rfl
    | case3 c d x _ ih =>
      simp only [length_cons]
      omega
    | case4 c d x _ ih =>
      rw [length_cons, length_cons]
      omega
  fun_induction unesc S x with
  | case1 | case2 c => simp [hasEscape]
  | case3 c d x hpair _ =>
    have hne : d :: unesc S x ≠ c :: d :: x := by
      intro h
      have hshort := hlen x
      have hlong := congrArg length h
      simp only [length_cons] at hlong
      omega
    have hyes : hasEscape S (c :: d :: x) = true := by
      rw [hasEscape, hpair.1]
      simp [hpair.2]
    exact ⟨fun h => absurd h hne, fun h => absurd (hyes.symm.trans h) Bool.noConfusion⟩
  | case4 c d x hpair ih =>
    have hfirst : (c == backslash && S d) = false := by
      by_cases hc : c = backslash
      · simpa [hc] using hpair
      · rw [beq_eq_false_iff_ne.mpr hc, Bool.false_and]
    have hrest : hasEscape S (c :: d :: x) = hasEscape S (d :: x) := by
      conv_lhs => rw [hasEscape]
      rw [head?_cons, Option.map_some, Option.getD_some, hfirst, Bool.false_or]
    rw [hrest, cons.injEq, and_iff_right rfl]
    exact ih

theorem head?_unesc (hST : ∀ c, S c → ¬T c) (hT : ¬T backslash) (x : List Byte) :
    ((unesc S x).head?.map T).getD false = (x.head?.map T).getD false := by
  match x with
  | [] => rfl
  | [c] => rfl
  | c :: d :: x =>
    rw [unesc]
    split_ifs with h
    · have hd := hST d h.2
      simp [h.1, hT, hd]
    · rfl

theorem beq_backslash {c : Byte} (hS : ¬S backslash) (hc : S c) : (c == backslash) = false := by
  rw [beq_eq_false_iff_ne]
  rintro rfl
  exact hS hc

theorem hasEscape_unesc (hS : ¬S backslash) (hST : ∀ c, S c → ¬T c) (hT : ¬T backslash) (x : List Byte) :
    hasEscape T (unesc S x) = hasEscape T x := by
  fun_induction unesc S x with
  | case1 | case2 c => rfl
  | case3 c d x hpair ih =>
    have hd := beq_backslash hS hpair.2
    have hTd : T d = false := by simpa using hST d hpair.2
    rw [hasEscape, hasEscape, hasEscape, ih]
    simp [hd, hTd]
  | case4 c d x hpair ih =>
    rw [hasEscape, head?_unesc hST hT, ih]
    rfl

theorem hasEscape_unesc_self (hS : ¬S backslash) (x : List Byte) : hasEscape S (unesc S x) = hasDoubleEscape S x := by
  fun_induction unesc S x with
  | case1 => rfl
  | case2 c => simp [hasEscape, hasDoubleEscape]
  | case3 c d x hpair ih =>
    have hd := beq_backslash hS hpair.2
    rw [hasEscape, hasDoubleEscape, hasDoubleEscape, ih]
    simp [hd]
  | case4 c d x hpair ih =>
    rw [hasEscape, ih, hasDoubleEscape]
    congr 1
    by_cases hc : c = backslash
    · have hSd : ¬S d := fun h => hpair ⟨hc, h⟩
      cases x with
      | nil => simp [hc, unesc, hSd]
      | cons e x =>
        rw [unesc]
        by_cases hde : d = backslash ∧ S e
        · simp [hc, hde.1, hde.2]
        · rw [if_neg hde]
          by_cases hd : d = backslash
          · have hSe : ¬S e := fun h => hde ⟨hd, h⟩
            simp [hc, hd, hSe, hS]
          · simp [hc, hd, hSd]
    · rw [beq_eq_false_iff_ne.mpr hc, Bool.false_and, Bool.false_and, Bool.false_and]

/-- **Two sets** of special bytes, one after the other. -/
theorem esc_esc (hT : ¬T backslash) (hST : ∀ c, S c → ¬T c) (x : List Byte) :
    esc T (esc S x) = esc (fun c => S c || T c) x := by
  induction x with
  | nil => rfl
  | cons c x ih =>
    by_cases hSc : S c
    · rw [esc_cons_of_special hSc, esc_cons_of_not hT, esc_cons_of_not (hST c hSc),
        esc_cons_of_special (S := fun c => S c || T c) (by simp [hSc]), ih]
    · by_cases hTc : T c
      · rw [esc_cons_of_not hSc, esc_cons_of_special hTc, esc_cons_of_special (S := fun c => S c || T c) (by simp [hTc]), ih]
      · rw [esc_cons_of_not hSc, esc_cons_of_not hTc, esc_cons_of_not (S := fun c => S c || T c) (by simp [hSc, hTc]), ih]

/-! ## Escaped texts -/

@[simp] theorem escaped_nil (p : Byte) : Escaped S p [] := trivial

theorem escaped_append : Escaped S p (x ++ y) ↔ Escaped S p x ∧ Escaped S (x.getLastD p) y := by
  induction x generalizing p with
  | nil => simp
  | cons c x ih =>
    rw [cons_append, Escaped, Escaped, ih, and_assoc, getLastD_cons]

theorem Escaped.mono (h : Escaped T p x) (hST : ∀ c, S c → T c) : Escaped S p x := by
  induction x generalizing p with
  | nil => trivial
  | cons c x ih => exact ⟨fun hc => h.1 (hST c hc), ih h.2⟩

theorem escaped_esc (hS : ¬S backslash) (x : List Byte) (p : Byte) : Escaped S p (esc S x) := by
  induction x generalizing p with
  | nil => trivial
  | cons c x ih =>
    by_cases h : S c
    · rw [esc_cons_of_special h]
      exact ⟨fun hb => absurd hb hS, fun _ => rfl, ih c⟩
    · rw [esc_cons_of_not h]
      exact ⟨fun hc => absurd hc h, ih c⟩

theorem getLastD_esc (x : List Byte) (p : Byte) : (esc S x).getLastD p = x.getLastD p := by
  induction x generalizing p with
  | nil => rfl
  | cons c x ih =>
    by_cases h : S c
    · rw [esc_cons_of_special h, getLastD_cons, getLastD_cons, ih, getLastD_cons]
    · rw [esc_cons_of_not h, getLastD_cons, ih, getLastD_cons]

theorem getLastD_unesc (x : List Byte) (p : Byte) : (unesc S x).getLastD p = x.getLastD p := by
  fun_induction unesc S x generalizing p with
  | case1 | case2 c => rfl
  | case3 c d x _ ih => rw [getLastD_cons, ih, getLastD_cons, getLastD_cons]
  | case4 c d x _ ih =>
    rw [getLastD_cons, ih, getLastD_cons, getLastD_cons, getLastD_cons]

/-! ## Runs -/

variable (stop : Byte → Bool)

theorem runLen_le (p : Byte) (x : List Byte) : runLen stop p x ≤ x.length := by
  induction x generalizing p with
  | nil => exact le_rfl
  | cons c x ih =>
    rw [runLen, length_cons]
    split_ifs
    · omega
    · have := ih c
      omega

/-- **A run** ends at the end of the text or at a stop byte that is not behind a backslash, and has no such byte. -/
theorem runLen_spec (p : Byte) (x : List Byte) : ∃ y z, x = y ++ z ∧ y.length = runLen stop p x ∧ Escaped stop p y ∧
      ∀ c ∈ z.head?, stop c ∧ y.getLastD p ≠ backslash := by
  induction x generalizing p with
  | nil => exact ⟨[], [], rfl, rfl, trivial, by simp⟩
  | cons c x ih =>
    rw [runLen]
    split_ifs with h
    · refine ⟨[], c :: x, rfl, rfl, trivial, fun d hd => ?_⟩
      cases hd
      exact h
    · obtain ⟨y, z, hx, hlen, hesc, hstop⟩ := ih c
      refine ⟨c :: y, z, ?_, ?_, ⟨fun hc => ?_, hesc⟩, fun d hd => ?_⟩
      · rw [hx, cons_append]
      · rw [length_cons, hlen]
      · by_contra hp
        exact h ⟨hc, hp⟩
      · rw [getLastD_cons]
        exact hstop d hd

theorem runLen_append {stop : Byte → Bool} {z : List Byte} (h : Escaped stop p y)
    (hz : ∀ c ∈ z.head?, stop c ∧ y.getLastD p ≠ backslash) : runLen stop p (y ++ z) = y.length := by
  induction y generalizing p with
  | nil =>
    cases z with
    | nil => rfl
    | cons c z =>
      have hc : stop c ∧ p ≠ backslash := hz c rfl
      rw [nil_append, runLen, if_pos hc, length_nil]
  | cons c y ih =>
    rw [getLastD_cons] at hz
    rw [cons_append, runLen, if_neg fun hc => hc.2 (h.1 hc.1), ih h.2 hz, length_cons]

/-! ## Pairs -/

/-- A text read in pairs: a backslash takes the byte behind it along, and no other byte is a stop byte. -/
inductive Pairs (stop : Byte → Bool) : List Byte → Prop
  | nil : Pairs stop []
  | pair (c : Byte) {x : List Byte} : Pairs stop x → Pairs stop (backslash :: c :: x)
  | byte {c : Byte} {x : List Byte} : c ≠ backslash → ¬stop c → Pairs stop x → Pairs stop (c :: x)

theorem Pairs.append (hx : Pairs S x) (hy : Pairs S y) : Pairs S (x ++ y) := by
  induction hx with
  | nil => exact hy
  | pair c _ ih => exact .pair c ih
  | byte hc hs _ ih => exact .byte hc hs ih

theorem Pairs.mono (hx : Pairs T x) (hST : ∀ c, S c → T c) : Pairs S x := by
  induction hx with
  | nil => exact .nil
  | pair c _ ih => exact .pair c ih
  | byte hc hs _ ih => exact .byte hc (fun h => hs (hST _ h)) ih

theorem Pairs.escaped (hS : ¬S backslash) (hx : Pairs S x) (p : Byte) : Escaped S p x := by
  induction hx generalizing p with
  | nil => trivial
  | pair c _ ih => exact ⟨fun h => absurd h hS, fun _ => rfl, ih c⟩
  | byte _ hs _ ih => exact ⟨fun h => absurd h hs, ih _⟩

theorem pairs_of_getLast : ∀ {x : List Byte}, x.getLast? ≠ some backslash → Pairs (fun _ => false) x
  | [], _ => .nil
  | [c], h => .byte (fun hc => h (by rw [hc]; rfl)) (by simp) .nil
  | c :: d :: x, h => by
    have htail : (d :: x).getLast? ≠ some backslash := by
      rw [getLast?_cons_cons] at h
      exact h
    by_cases hc : c = backslash
    · subst hc
      refine .pair d (pairs_of_getLast ?_)
      cases x with
      | nil => simp
      | cons e x =>
        rw [getLast?_cons_cons] at htail
        exact htail
    · exact .byte hc (by simp) (pairs_of_getLast htail)

end Influxdb
