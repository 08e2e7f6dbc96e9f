import Influxdb.Lib.Bytes
import Mathlib.Algebra.Ring.Nat

/-!
# Snappy — compressed blocks

`encode` makes a block of some bytes, unless they are too many, and `decode` reads it; the length of a block and of what
is in it fit into 32 bits.  `Exact` is what a reader needs: a block gives back what went into it.
-/

namespace Influxdb

structure Snappy where
  encode : List Byte → Except String (List Byte)
  decodedLen : List Byte → Except String ℕ
  decode : List Byte → Except String (List Byte)

namespace Snappy

/-- Blocks are short and give back what they were made of. -/
structure Exact (s : Snappy) : Prop where
  decode : ∀ {b c}, s.encode b = .ok c → s.decode c = .ok b
  decodedLen : ∀ {b c}, s.encode b = .ok c → s.decodedLen c = .ok b.length
  short : ∀ {b c}, s.encode b = .ok c → c.length < 2 ^ 32

/-- Blocks that are not compressed. -/
def plain : Snappy where
  encode b := if b.length < 2 ^ 32 then .ok b else .error "snappy: decoded block is too large"
  decodedLen c := .ok c.length
  decode c := .ok c

theorem plain_encode {b c : List Byte} (h : plain.encode b = .ok c) : b.length < 2 ^ 32 ∧ c = b := by
  have h : (if b.length < 2 ^ 32 then Except.ok b else .error "snappy: decoded block is too large") = .ok c := h
  split at h
  · cases h
    exact ⟨‹_›, rfl⟩
  · nomatch h

theorem plain_exact : plain.Exact where
  decode h := by rw [(plain_encode h).2]; rfl
  decodedLen h := by rw [(plain_encode h).2]; rfl
  short h := (plain_encode h).2 ▸ (plain_encode h).1

end Snappy

end Influxdb
