import Mathlib.Data.List.Lex

/-!
# Bytes — bytes and machine words

Bytes and 64-bit words are bit vectors, ordered as unsigned numbers.  Byte strings are then ordered
lexicographically, as `bytes.Compare` orders them.
-/

namespace Influxdb

abbrev Byte := BitVec 8

abbrev Word := BitVec 64

/-- Bit vectors are ordered as unsigned numbers. -/
instance linearOrderBitVec {w : ℕ} : LinearOrder (BitVec w) where
  le_refl := BitVec.le_refl
  le_trans _ _ _ := BitVec.le_trans
  le_antisymm _ _ := BitVec.le_antisymm
  le_total := BitVec.le_total
  lt_iff_le_not_ge x y := by simp only [BitVec.lt_def, BitVec.le_def]; omega
  toDecidableLE := inferInstance

/-- The bytes as characters, in messages. -/
def text (b : List Byte) : String := String.ofList (b.map fun x => Char.ofNat x.toNat)

/-- Equality of bytes is their boolean equality. -/
instance lawfulBEqByte : LawfulBEq Byte := inferInstance

instance lawfulBEqBytes : LawfulBEq (List Byte) := inferInstance

instance lawfulBEqOptionByte : LawfulBEq (Option Byte) := inferInstance

end Influxdb
