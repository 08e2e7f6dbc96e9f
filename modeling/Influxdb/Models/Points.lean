import Influxdb.Lib.Assoc
import Influxdb.Lib.Endian
import Influxdb.Models.ScanFields

/-!
# Points — points and the line protocol

A point keeps its key and its fields as text.  The name, the tags and the fields are read out of the text again each
time they are asked for, with scanners of their own.
-/

namespace Influxdb.Models

open Strconv

/-! ## Escaping -/

def measurementEscapeCodes : List Byte := [comma, space]

def tagEscapeCodes : List Byte := [comma, space, equals]

/-- Put a backslash before every code, one code after the other, as `bytes.Replace` does. -/
def escapeCodes (codes x : List Byte) : List Byte :=
  codes.foldl (fun x c => if c ∈ x then esc (· == c) x else x) x

/-- Take away the backslash before every code, one code after the other. -/
def unescapeCodes (codes x : List Byte) : List Byte :=
  if backslash ∉ x then x else codes.foldl (fun x c => if c ∈ x then unesc (· == c) x else x) x

variable (x : List Byte)

def escapeMeasurement : List Byte := escapeCodes measurementEscapeCodes x

def unescapeMeasurement : List Byte := unescapeCodes measurementEscapeCodes x

def escapeTag : List Byte := escapeCodes tagEscapeCodes x

def unescapeTag : List Byte := unescapeCodes tagEscapeCodes x

/-- `escape.escapeChars`, the bytes that the package escape knows. -/
def isEscapeChar (c : Byte) : Bool := c == comma || c == quote || c == space || c == equals

def unescape : List Byte := if x.length = 0 ∨ backslash ∉ x then x else unesc isEscapeChar x

def isEscaped : Bool := hasEscape isEscapeChar x

/-- The loop of `unescapeStringField`. -/
def unescapeStringField : List Byte → List Byte
  | [] => []
  | [c] => [c]
  | c :: d :: x =>
    if c = backslash ∧ d = backslash then backslash :: unescapeStringField x
    else if c = backslash ∧ d = quote then quote :: unescapeStringField x
    else c :: unescapeStringField (d :: x)

/-! ## Time -/

/-- An instant: nanoseconds since the zero time, January 1 of the year 1. -/
structure Time where
  nanos : Int
deriving DecidableEq

/-- Nanoseconds from the zero time to the Unix epoch. -/
def unixEpoch : Int := 62135596800 * 1000000000

def Time.ofUnixNano (n : Int) : Time := ⟨n + unixEpoch⟩

variable (t : Time)

/-- `Time.UnixNano`, which wraps around outside of an `int64`. -/
def Time.unixNano : Int := (BitVec.ofInt 64 (t.nanos - unixEpoch)).toInt

def Time.isZero : Bool := t.nanos == 0

def Time.truncate (d : Int) : Time := ⟨t.nanos - t.nanos % d⟩

variable (b : List Byte)

/-- Seconds from the zero time to the year 1885, from which the seconds next to a monotonic clock count. -/
def wallToInternal : Int := 688117 * 86400

/-- `Time.UnmarshalBinary`: a version, eight bytes of seconds, four of nanoseconds, and a zone.  The nanoseconds are
an `int32` that becomes the 64 bits `wall`: a negative one sets the bit for a monotonic clock, and the seconds are then
taken from the 33 bits of `wall` below it, all of them set but the last. -/
def Time.unmarshalBinary : Except Fault Time :=
  match b with
  | [] => .error (.error "Time.UnmarshalBinary: no data")
  | version :: rest =>
    if version ≠ 1 ∧ version ≠ 2 then .error (.error "Time.UnmarshalBinary: unsupported version")
    else if b.length ≠ 15 + (version == 2).toNat then .error (.error "Time.UnmarshalBinary: invalid length")
    else
      let ext := (BitVec.ofNat 64 (beGet (rest.take 8))).toInt
      let nsec : ℕ := beGet ((rest.drop 8).take 4)
      let sec := if nsec < 2 ^ 31 then ext else wallToInternal + (2 ^ 33 - 2 + nsec / 2 ^ 30 % 2 : ℕ)
      .ok ⟨sec * 1000000000 + (nsec % 2 ^ 30 : ℕ)⟩

def minNanoTime : Int := -2 ^ 63 + 2

def maxNanoTime : Int := 2 ^ 63 - 1 - 1

def errTimeOutOfRange : Fault := .error "time outside range"

def checkTime : Except Fault Unit :=
  if t.nanos < (Time.ofUnixNano minNanoTime).nanos ∨ (Time.ofUnixNano maxNanoTime).nanos < t.nanos then
    .error errTimeOutOfRange
  else .ok ()

def getPrecisionMultiplier (precision : String) : Int :=
  if precision = "us" then 1000
  else if precision = "ms" then 1000000
  else if precision = "s" then 1000000000
  else 1

/-- The product of two `int64` values, which wraps around. -/
def mulInt64 (a b : Int) : Int := (BitVec.ofInt 64 (a * b)).toInt

def safeSignedMult (a b : Int) : Option Int :=
  if a = 0 ∨ b = 0 ∨ a = 1 ∨ b = 1 then some (mulInt64 a b)
  else if a = minNanoTime ∨ b = maxNanoTime then none
  else
    let c := mulInt64 a b
    if c.tdiv b = a then some c else none

def safeCalcTime (timestamp : Int) (precision : String) : Except Fault Time :=
  match safeSignedMult timestamp (getPrecisionMultiplier precision) with
  | none => .error errTimeOutOfRange
  | some t => do
    checkTime (Time.ofUnixNano t)
    .ok (Time.ofUnixNano t)

/-! ## Points -/

structure Tag where
  key : List Byte
  value : List Byte
deriving DecidableEq

/-- A point: the text of measurement and tags, the text of the fields, and the time. -/
structure Point where
  key : List Byte
  fields : List Byte
  time : Time
deriving DecidableEq

def setPrecision (precision : String) : Time :=
  if precision = "u" ∨ precision = "us" then t.truncate 1000
  else if precision = "ms" then t.truncate 1000000
  else if precision = "s" then t.truncate 1000000000
  else if precision = "m" then t.truncate 60000000000
  else if precision = "h" then t.truncate 3600000000000
  else t

def maxKeyLength : ℕ := 65535

def keyTooLong (size : ℕ) : Fault := .error s!"max key length exceeded: {size} > {maxKeyLength}"

def seriesKeySize (key field : List Byte) : ℕ := key.length + 4 + field.length

/-- `walkFields`: the keys and values that the callback gets, and the error at the end. -/
def walkFields : ℕ → List Byte → Except Fault (List (List Byte × List Byte) × Option String)
  | 0, _ => .error .diverge
  | _ + 1, [] => .ok ([], none)
  | n + 1, c :: x =>
    let (i, key) := scanTo (c :: x) 0 equals
    if (c :: x).length < i + 2 then .ok ([], some ("invalid value: field-key=" ++ text key))
    else do
      let (j, value) := scanFieldValue ((c :: x).drop (i + 1)) 0
      let (calls, err) ← walkFields n (((c :: x).drop (i + 1)).drop (j + 1))
      .ok ((key, value) :: calls, err)

/-- The check of the series keys in `parsePoint`: the callback stops the walk at the first key that is too long. -/
def checkSeriesKeys (key fields : List Byte) : Except Fault Unit := do
  let (calls, err) ← walkFields (fields.length + 1) fields
  match calls.find? fun c => maxKeyLength < seriesKeySize key c.1, err with
  | some c, _ => .error (keyTooLong (seriesKeySize key c.1))
  | none, some msg => .error (.error msg)
  | none, none => .ok ()

/-- The time of a parsed point: the default time, or the timestamp `ts`, behind which only blanks may stand. -/
def parseTime (buf ts : List Byte) (pos : ℕ) (defaultTime : Time) (precision : String) : Except Fault Time :=
  if ts.length = 0 then .ok (setPrecision defaultTime precision)
  else
    match parseInt ts with
    | .error err => .error (.error (numError "ParseInt" ts err))
    | .ok n => do
      let time ← safeCalcTime n precision
      if ∀ c ∈ buf.drop pos, c = space then .ok time else .error (.error "point is invalid")

variable (buf : List Byte)

def parsePoint (defaultTime : Time) (precision : String) : Except Fault Point := do
  let (pos, key) ← scanKey buf 0
  if key.length = 0 then .error (.error "missing measurement")
  else if maxKeyLength < key.length then .error (keyTooLong key.length)
  else do
    let (pos, fields) ← scanFields buf pos
    if fields.length = 0 then .error (.error "missing fields")
    else do
      checkSeriesKeys key fields
      let (pos, ts) ← scanTime buf pos
      let time ← parseTime buf ts pos defaultTime precision
      .ok ⟨key, fields, time⟩

/-- The lines that failed, with their errors. -/
abbrev Failed := List (List Byte × String)

/-- `ParsePointsWithPrecision` on one block: nothing, a point, or a failed line. -/
def parseBlock (block : List Byte) (defaultTime : Time) (precision : String) : Except Fault (List Point × Failed) :=
  let start := skipWhitespace block 0
  if block.length ≤ start then .ok ([], [])
  else do
    let c ← index block start
    if c = hash then .ok ([], [])
    else do
      -- strip the newline if one is present
      let last ← index block (block.length - 1)
      let block := if last = newline then block.dropLast else block
      let line ← slice block start block.length
      match parsePoint line defaultTime precision with
      | .ok p => .ok ([p], [])
      | .error (.error msg) => .ok ([], [(line, msg)])
      | .error e => .error e

def parsePointsLoop (defaultTime : Time) (precision : String) : ℕ → List Byte → Except Fault (List Point × Failed)
  | 0, _ => .error .diverge
  | _ + 1, [] => .ok ([], [])
  | n + 1, c :: x => do
    let (pos, block) := scanLine (c :: x) 0
    let (points, failed) ← parseBlock block defaultTime precision
    let (points', failed') ← parsePointsLoop defaultTime precision n ((c :: x).drop (pos + 1))
    .ok (points ++ points', failed ++ failed')

/-- `ParsePointsWithPrecision`: the points, and the lines that failed; no failed line is no error. -/
def parsePointsWithPrecision (defaultTime : Time) (precision : String) : Except Fault (List Point × Failed) :=
  parsePointsLoop defaultTime precision (buf.length + 1) buf

/-! ## Keys -/

/-- `scanTagValue`; it starts behind an `=` sign. -/
def scanTagValue (i : ℕ) : ℕ × List Byte :=
  let e := findUnescaped (· == comma) buf i
  (e, (buf.drop i).take (e - i))

/-- The loop of `walkTags`: the tags that the callback gets. -/
def walkTagsLoop (buf : List Byte) (hasEscape : Bool) : ℕ → ℕ → Except Fault (List Tag)
  | 0, _ => .error .diverge
  | n + 1, i =>
    if buf.length ≤ i then .ok []
    else
      let (i, key) := scanTo buf i equals
      let (i, value) := scanTagValue buf (i + 1)
      if value.length = 0 then walkTagsLoop buf hasEscape n i
      else do
        let tags ← walkTagsLoop buf hasEscape n (i + 1)
        .ok ((if hasEscape then ⟨unescapeTag key, unescapeTag value⟩ else ⟨key, value⟩) :: tags)

def walkTags : Except Fault (List Tag) :=
  if buf.length = 0 then .ok []
  else
    let (pos, name) := scanTo buf 0 comma
    if name.length = 0 then .ok []
    else walkTagsLoop buf (decide (backslash ∈ buf)) (buf.length + 1) (pos + 1)

/-- `parseTags`: there is room for one tag for every comma. -/
def parseTags : Except Fault (List Tag) := do
  let tags ← walkTags buf
  if buf.count comma < tags.length then .error (.panic "index out of range") else .ok tags

variable (p : Point)

def Point.rawName : List Byte := (scanTo p.key 0 comma).2

def Point.name : List Byte := unescape p.rawName

def Point.tags : Except Fault (List Tag) := parseTags p.key

def parseKeyBytes : Except Fault (List Byte × List Tag) :=
  match scanMeasurement buf 0 with
  | (i, .ok .tagKey) => do
    let tags ← parseTags buf
    let name ← slice buf 0 (i - 1)
    .ok (unescapeMeasurement name, tags)
  | (i, _) => do
    let name ← slice buf 0 i
    .ok (unescapeMeasurement name, [])

def needsEscape (tags : List Tag) : Bool :=
  tags.any fun t => tagEscapeCodes.any fun c => decide (c ∈ t.key) || decide (c ∈ t.value)

/-- `Tags.AppendHashKey`, with nothing before it. -/
def hashKey (tags : List Tag) : List Byte :=
  let escaped := if needsEscape tags then tags.map fun t => ⟨escapeTag t.key, escapeTag t.value⟩ else tags
  escaped.flatMap fun t => if t.value.length = 0 then [] else comma :: t.key ++ equals :: t.value

def makeKey (name : List Byte) (tags : List Tag) : List Byte :=
  escapeMeasurement (unescapeMeasurement name) ++ hashKey tags

/-! ## Fields -/

inductive FieldType
  | integer
  | float
  | boolean
  | string
  | empty
  | unsigned
deriving DecidableEq

/-- The value of a field; a `float64` is its bits. -/
inductive FieldValue
  | integer (n : Int)
  | float (bits : Word)
  | boolean (b : Bool)
  | string (s : List Byte)
  | unsigned (n : ℕ)
deriving DecidableEq

structure FieldIterator where
  start : ℕ
  stop : ℕ
  key : List Byte
  valueBuf : List Byte
  fieldType : FieldType
deriving DecidableEq

/-- The type of a value, and its text without the mark of an integer. -/
def fieldTypeOf (value : List Byte) : FieldType × List Byte :=
  match value with
  | [] => (.empty, [])
  | c :: _ =>
    if c = quote then (.string, value)
    else if c ∈ ascii "0123456789-.nNiIu" then
      if value.getLast? = some 105 then (.integer, value.dropLast)
      else if value.getLast? = some 117 then (.unsigned, value.dropLast)
      else (.float, value)
    else (.boolean, value)

def next (fields : List Byte) (start : ℕ) : Option FieldIterator :=
  if fields.length ≤ start then none
  else
    let (e, key) := scanTo fields start equals
    let key := if isEscaped key then unesc isEscapeChar key else key
    let (e, value) := scanFieldValue fields (e + 1)
    let (fieldType, valueBuf) := fieldTypeOf value
    some ⟨start, e + 1, key, valueBuf, fieldType⟩

/-- A walk with `FieldIterator` and `Next`. -/
def iterate (fields : List Byte) : ℕ → ℕ → Except Fault (List FieldIterator)
  | 0, _ => .error .diverge
  | n + 1, start =>
    match next fields start with
    | none => .ok []
    | some it => do
      let its ← iterate fields n it.stop
      .ok (it :: its)

def Point.fieldIterator : Except Fault (List FieldIterator) := iterate p.fields (p.fields.length + 1) 0

def FieldIterator.stringValue (it : FieldIterator) : Except Fault (List Byte) := do
  let body ← slice it.valueBuf 1 (it.valueBuf.length - 1)
  .ok (unescapeStringField body)

def ofParse {α β : Type} (f : α → β) (r : Except String α) : Except Fault β :=
  match r with
  | .error msg => .error (.error msg)
  | .ok a => .ok (f a)

/-- The accessor of the field's type: `IntegerValue`, `FloatValue`, `BooleanValue`, `StringValue`, `UnsignedValue`;
there is none for an empty field. -/
def FieldIterator.value (it : FieldIterator) : Except Fault (Option FieldValue) :=
  match it.fieldType with
  | .integer => ofParse (fun n => some (.integer n)) (parseInt it.valueBuf)
  | .float => ofParse (fun v => some (.float v)) (parseFloat it.valueBuf)
  | .boolean => ofParse (fun b => some (.boolean b)) (parseBool it.valueBuf)
  | .unsigned => ofParse (fun n => some (.unsigned n)) (parseUint it.valueBuf)
  | .string => do
    let s ← it.stringValue
    .ok (some (.string s))
  | .empty => .ok none

/-- `Fields`, a map from names to values. -/
abbrev Fields := List (List Byte × FieldValue)

/-- The loop of `unmarshalBinary`. -/
def unmarshalFields : List FieldIterator → Fields → Except Fault Fields
  | [], fields => .ok fields
  | it :: its, fields =>
    if it.key.length = 0 then unmarshalFields its fields
    else do
      match ← it.value with
      | none => unmarshalFields its fields
      | some v => unmarshalFields its (Assoc.put it.key v fields)

def Point.readFields : Except Fault Fields := do
  let its ← p.fieldIterator
  unmarshalFields its []

/-! ## Text and bytes -/

/-- Four bytes of a length and as many bytes, and what follows. -/
def unmarshalPart : Except Fault (List Byte × List Byte) :=
  if b.length < 4 then .error (.error "short buffer")
  else
    let n := beGet (b.take 4)
    let b := b.drop 4
    if b.length < n then .error (.error "short buffer") else .ok (b.take n, b.drop n)

def unmarshalPoint : Except Fault Point := do
  let (key, b) ← unmarshalPart b
  let (fields, b) ← unmarshalPart b
  let time ← Time.unmarshalBinary b
  .ok ⟨key, fields, time⟩

/-- The check of the fields in `NewPointFromBytes`, which does not read strings: is there a field? -/
def checkFields : List FieldIterator → Bool → Except Fault Bool
  | [], hasField => .ok hasField
  | it :: its, hasField =>
    if it.key.length = 0 then checkFields its hasField
    else if it.fieldType = .string then checkFields its true
    else do
      let _ ← it.value
      checkFields its true

def newPointFromBytes : Except Fault Point := do
  let p ← unmarshalPoint b
  let its ← p.fieldIterator
  let hasField ← checkFields its false
  if ¬hasField then .error (.error "point without fields is unsupported") else .ok p

end Influxdb.Models
