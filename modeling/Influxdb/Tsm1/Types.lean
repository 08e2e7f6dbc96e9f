import Influxdb.Lib.Bytes
import Influxdb.Cursors.ArrayValues

/-!
# Types — keys, times, blocks and readers of `tsdb/engine/tsm1`

The data shared by the compactor, the cursors and the reader.  Times are integers; that they fit into
an `int64` is part of the well-formedness of a block.  A block's encoding is an abstract buffer, read
and written by a codec; `BlockCodec.Exact` is a codec that loses nothing.
-/

namespace Influxdb.Tsm1

open Cursors

def minInt64 : Int := -9223372036854775808

def maxInt64 : Int := 9223372036854775807

def defaultMaxPointsPerBlock : ℕ := 1000

/-- The composite series and field key of a TSM index, ordered by `bytes.Compare`. -/
abbrev Key := List Byte

/-- A tombstoned time range, both ends included. -/
structure TimeRange where
  min : Int
  max : Int
deriving DecidableEq, Repr

def TimeRange.Has (r : TimeRange) (t : Int) : Prop := r.min ≤ t ∧ t ≤ r.max

instance (r : TimeRange) (t : Int) : Decidable (r.Has t) := inferInstanceAs (Decidable (_ ∧ _))

/-- `excludeTombstones*Array`: apply each tombstone to the values of a block. -/
def excludeTombstones {V : Type*} (tombstones : List TimeRange) (v : ValueArray V) : ValueArray V :=
  tombstones.foldl (fun v ts => v.exclude ts.min ts.max) v

inductive BlockType
  | float64
  | integer
  | boolean
  | string
  | unsigned
  | unknown (b : Byte)
deriving DecidableEq, Repr

def BlockType.known : List BlockType := [float64, integer, boolean, string, unsigned]

/-- An index entry, with the block its offset and size point to. -/
structure IndexEntry (Buf : Type*) where
  minTime : Int
  maxTime : Int
  b : Buf
deriving DecidableEq, Repr

structure KeyIndex (Buf : Type*) where
  key : Key
  typ : BlockType
  entries : List (IndexEntry Buf)
deriving DecidableEq, Repr

/-- What a `TSMReader` shows of its file: the index in key order, and the tombstones of a key. -/
structure TSMReader (Buf : Type*) where
  index : List (KeyIndex Buf)
  tombstoneRange : Key → List TimeRange

/-- `Decode*ArrayBlock`, `Encode*ArrayBlock` and `BlockCount`. -/
structure BlockCodec (Buf V : Type*) where
  decode : BlockType → Buf → Except String (ValueArray V)
  encode : BlockType → ValueArray V → Except String Buf
  blockCount : Buf → Except String ℕ

/-- A codec whose encoder never fails and loses nothing. -/
structure BlockCodec.Exact {Buf V : Type*} (C : BlockCodec Buf V) : Prop where
  decode_encode : ∀ ty ∈ BlockType.known, ∀ a : ValueArray V, a ≠ [] →
    ∃ buf, C.encode ty a = .ok buf ∧ C.decode ty buf = .ok a
  blockCount_eq : ∀ ty buf a, C.decode ty buf = .ok a → C.blockCount buf = .ok a.length

/-- The codec that stores the values as they are. -/
def plainCodec (V : Type*) : BlockCodec (List (Int × V)) V where
  decode _ buf := .ok buf
  encode _ a := .ok a
  blockCount buf := .ok buf.length

theorem plainCodec_exact (V : Type*) : (plainCodec V).Exact where
  decode_encode _ _ a _ := ⟨a, rfl, rfl⟩
  blockCount_eq _ _ _ h := by cases h; rfl

end Influxdb.Tsm1
