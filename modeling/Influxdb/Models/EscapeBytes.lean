import Influxdb.Models.PointKey

/-!
# EscapeBytes — the package escape

`Unescape` walks byte by byte; `AppendUnescaped` and `IsEscaped` jump from backslash to backslash.  What lies before the
next backslash is the same with and without its backslashes, so that the jumps and the walk agree.
-/

namespace Influxdb.Models

open List

/-- `escape.Codes`, in an order in which a loop over the map may meet them. -/
abbrev Codes := {codes : List Byte // codes.Perm [comma, quote, space, equals]}

/-- `escape.Bytes`. -/
def bytes (codes : Codes) (x : List Byte) : List Byte := codes.1.foldl (fun x b => esc (· == b) x) x

/-- What stands before the backslash that `bytes.IndexByte` finds. -/
def toBackslash (b : List Byte) : List Byte := b.takeWhile (· ≠ backslash)

/-- The text from the first backslash on. -/
def fromBackslash (b : List Byte) : List Byte := b.dropWhile (· ≠ backslash)

theorem fromBackslash_lt {b t : List Byte} {e : Byte} (h : fromBackslash b = e :: t) : t.length < b.length := by
  have hle := (dropWhile_suffix (l := b) (· ≠ backslash)).length_le
  rw [← fromBackslash, h] at hle
  exact hle

/-- The loop of `escape.IsEscaped`. -/
def isEscapedLoop (b : List Byte) : Bool :=
  match _h : fromBackslash b with
  | _ :: c :: t => isEscapeChar c || isEscapedLoop (c :: t)
  | _ => false
termination_by b.length
decreasing_by exact fromBackslash_lt _h

/-- The loop of `escape.AppendUnescaped`, with `src` cut at `pos` into `seen` and `rest`. -/
def appendUnescapedLoop (dst seen rest : List Byte) : List Byte :=
  match _h : fromBackslash rest with
  | _ :: c :: t =>
    let seen := seen ++ toBackslash rest
    -- behind an escape the window starts anew, without the backslash
    if isEscapeChar c then appendUnescapedLoop (dst ++ seen) [] (c :: t)
    else appendUnescapedLoop dst (seen ++ [backslash]) (c :: t)
  | _ => dst ++ (seen ++ rest)
termination_by rest.length
decreasing_by all_goals exact fromBackslash_lt _h

def appendUnescaped (dst src : List Byte) : List Byte := appendUnescapedLoop dst [] src

variable {b t : List Byte} {e c : Byte}

theorem toBackslash_append (b : List Byte) : toBackslash b ++ fromBackslash b = b := takeWhile_append_dropWhile

/-- What is passed on the way to a backslash stays. -/
theorem unesc_eq (b : List Byte) : unesc isEscapeChar b = toBackslash b ++ unesc isEscapeChar (fromBackslash b) := by
  conv_lhs => rw [← toBackslash_append b]
  exact unesc_append (fun h => by simpa using mem_takeWhile_imp h) _

/-- **A jump** ends at a backslash, which goes if an escape character follows. -/
theorem unesc_jump (h : fromBackslash b = e :: c :: t) : e = backslash ∧ unesc isEscapeChar b =
    toBackslash b ++ ((if isEscapeChar c then [] else [backslash]) ++ unesc isEscapeChar (c :: t)) := by
  have he := head?_dropWhile_not (· ≠ backslash) b
  rw [← fromBackslash, h] at he
  obtain rfl : e = backslash := by simpa using he
  refine ⟨rfl, ?_⟩
  rw [unesc_eq, h]
  split_ifs with hc
  · rw [unesc_pair hc, unesc_cons fun heq => absurd (heq ▸ hc) (by decide), nil_append]
  · rw [unesc_cons fun _ d hd => by cases hd; exact hc, singleton_append]

/-- A backslash at the end stays. -/
theorem unesc_last (h : ∀ e c t, fromBackslash b = e :: c :: t → False) : unesc isEscapeChar b = b := by
  conv_rhs => rw [← toBackslash_append b]
  rw [unesc_eq]
  match hb : fromBackslash b with
  | [] => rfl
  | [e] => rfl
  | e :: c :: t => exact (h e c t hb).elim

theorem isEscapedLoop_iff (b : List Byte) : isEscapedLoop b = true ↔ unesc isEscapeChar b ≠ b := by
  fun_induction isEscapedLoop b with
  | case1 b e c t h ih =>
    obtain ⟨rfl, hjump⟩ := unesc_jump h
    have hne : unesc isEscapeChar b ≠ b ↔
        (if isEscapeChar c then [] else [backslash]) ++ unesc isEscapeChar (c :: t) ≠ backslash :: c :: t := by
      rw [hjump, ← h]
      conv_lhs => rhs; rw [← toBackslash_append b]
      exact not_congr (append_right_inj _)
    rw [hne, Bool.or_eq_true, ih]
    split_ifs with hc
    · have hback : c ≠ backslash := by
        rintro rfl
        exact absurd hc (by decide)
      rw [unesc_cons fun heq => absurd heq hback]
      simp [hc, hback]
    · simp [hc]
  | case2 b hno => simp [unesc_last hno]

theorem appendUnescapedLoop_eq (dst seen rest : List Byte) :
    appendUnescapedLoop dst seen rest = dst ++ (seen ++ unesc isEscapeChar rest) := by
  fun_induction appendUnescapedLoop dst seen rest with
  | case1 dst seen rest e c t h seen' hc ih | case2 dst seen rest e c t h seen' hc ih =>
    rw [ih, (unesc_jump h).2]
    simp [seen', hc]
  | case3 dst seen rest hno => rw [unesc_last hno]

theorem foldl_esc {codes : List Byte} (hcodes : codes.Nodup) (hb : backslash ∉ codes) {S : Byte → Bool}
    (hS : ∀ c ∈ codes, ¬S c) (x : List Byte) :
    codes.foldl (fun x b => esc (· == b) x) (esc S x) = esc (fun c => S c || codes.contains c) x := by
  -- `S` collects the codes that are escaped already
  induction codes generalizing S with
  | nil => simp
  | cons b codes ih =>
    obtain ⟨hbnot, hcodes⟩ := nodup_cons.mp hcodes
    obtain ⟨hSb, hS⟩ := forall_mem_cons.mp hS
    rw [mem_cons, not_or] at hb
    rw [foldl_cons, esc_esc (by simpa using hb.1), ih hcodes hb.2]
    · simp only [contains_cons, Bool.or_assoc]
    · intro c hc
      have hne : c ≠ b := fun h => hbnot (h ▸ hc)
      simp [hS c hc, hne]
    · intro c hc heq
      exact hSb (beq_iff_eq.mp heq ▸ hc)

/-- **The package escape**: both unescapers agree, and undo `Bytes`. -/
theorem unescapers_agree (dst b x : List Byte) (codes : Codes) : appendUnescaped dst b = dst ++ unescape b ∧
    (isEscapedLoop b = true ↔ unescape b ≠ b) ∧ unescape (bytes codes x) = x := by
  refine ⟨?_, ?_, ?_⟩
  · rw [unescape_eq]
    exact appendUnescapedLoop_eq dst [] b
  · rw [unescape_eq]
    exact isEscapedLoop_iff b
  · obtain ⟨codes, hperm⟩ := codes
    have hchars : (fun c => false || codes.contains c) = isEscapeChar := by
      funext c
      rw [Bool.false_or, Bool.eq_iff_iff, contains_iff_mem, hperm.mem_iff]
      simp [isEscapeChar, or_assoc]
    have hbytes := foldl_esc (hperm.nodup_iff.mpr (by decide)) (hperm.mem_iff.not.mpr (by decide))
      (S := fun _ => false) (by simp) x
    rw [esc_of_not_mem (by simp), hchars] at hbytes
    rw [unescape_eq, bytes, hbytes, unesc_esc (by decide)]

end Influxdb.Models
