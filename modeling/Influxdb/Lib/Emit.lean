import Influxdb.Lib.Buffer

/-!
# Emit — writing one field after the other

An encoder writes at an index into a buffer of a fixed size and moves the index on.  `Emits` says that a step writes
some bytes wherever it starts, if there is room for them; steps that do so can be put one after the other, and what was
in the buffer does not matter.
-/

namespace Influxdb

open List

universe u

/-- A buffer and the index of the next write. -/
structure Out where
  buf : List Byte
  n : ℕ

namespace Out

/-- Write the bytes and move on; out of range is a panic. -/
def put (bs : List Byte) (o : Out) : Except String Out := do
  let b ← writeAt o.buf o.n bs
  .ok ⟨b, o.n + bs.length⟩

/-- `n += copy(buf[n:], bs)`: as many of the bytes as there is room for. -/
def copy (bs : List Byte) (o : Out) : Except String Out :=
  if o.n ≤ o.buf.length then
    let bs := bs.take (o.buf.length - o.n)
    .ok ⟨o.buf.take o.n ++ bs ++ o.buf.drop (o.n + bs.length), o.n + bs.length⟩
  else .error "slice bounds out of range"

end Out

/-- The step writes `bs` behind what has been written, if there is room for it. -/
def Emits (f : Out → Except String Out) (bs : List Byte) : Prop :=
  ∀ w old : List Byte, bs.length ≤ old.length →
    f ⟨w ++ old, w.length⟩ = .ok ⟨w ++ bs ++ old.drop bs.length, (w ++ bs).length⟩

namespace Emits

variable {f g : Out → Except String Out} {a b bs : List Byte}

theorem put (bs : List Byte) : Emits (Out.put bs) bs := by
  intro w old hroom
  rw [Out.put, writeAt_append rfl hroom, length_append]
  rfl

theorem copy (bs : List Byte) : Emits (Out.copy bs) bs := by
  intro w old hroom
  have htake : bs.take ((w ++ old).length - w.length) = bs := by
    rw [length_append, Nat.add_sub_cancel_left]
    exact take_of_length_le hroom
  rw [Out.copy, if_pos (by simp), htake, take_left]
  simp only [drop_length_add_append, length_append]

theorem nil : Emits .ok [] := by
  intro w old _
  simp

theorem andThen (hf : Emits f a) (hg : Emits g b) : Emits (fun o => f o >>= g) (a ++ b) := by
  intro w old hroom
  rw [length_append] at hroom
  show (f ⟨w ++ old, w.length⟩ >>= g) = _
  rw [hf w old (by omega)]
  show g ⟨w ++ a ++ old.drop a.length, (w ++ a).length⟩ = _
  rw [hg (w ++ a) (old.drop a.length) (by rw [length_drop]; omega), drop_drop, append_assoc w,
    ← length_append]

theorem forEach {α : Type u} {f : α → Out → Except String Out} {g : α → List Byte} :
    ∀ {l : List α}, (∀ x ∈ l, Emits (f x) (g x)) → Emits (fun o => l.foldlM (fun o x => f x o) o) (l.flatMap g)
  | [], _ => nil
  | x :: l, h => by
    have hrest : Emits (fun o => l.foldlM (fun o x => f x o) o) (l.flatMap g) :=
      forEach (forall_mem_cons.mp h).2
    rw [flatMap_cons]
    exact (h x mem_cons_self).andThen hrest

/-- **From the start** of a buffer that is long enough, the bytes come out. -/
theorem run (hf : Emits f bs) {buf : List Byte} (hroom : bs.length ≤ buf.length) :
    f ⟨buf, 0⟩ = .ok ⟨bs ++ buf.drop bs.length, bs.length⟩ :=
  hf [] buf hroom

end Emits

end Influxdb
