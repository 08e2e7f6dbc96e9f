import Influxdb.Tsm1.Block

/-!
# BlockFrame — reading the frame of a block that may be damaged

The frame of a block is the length of its timestamps, and the count in them that sizes the slice of the values.  A
length of `2 ^ 63` or more becomes negative, and the counter looks behind the ninth byte without asking whether it is
there.
-/

namespace Influxdb.Tsm1

open List

/-- How many timestamps the bytes stand for. -/
def counted (tb : List Byte) : ℕ :=
  if tb = [] then 0
  else switchEncoding (tb.headD 0 >>> 4) ((tb.drop 1).length / 8)
    ((Simple8b.countBytes (tb.drop 9)).toOption.getD 0 + 1)
    (uvarint (tb.drop (9 + (uvarint (tb.drop 9)).2).toNat)).1.toNat 0

end Influxdb.Tsm1
