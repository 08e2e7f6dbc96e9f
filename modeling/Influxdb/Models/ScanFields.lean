import Influxdb.Models.Scan

/-!
# ScanFields — the scanners of the field section, the timestamp and the line

`scanFields` checks the field section of a line and finds its end; it steps over pairs of a backslash and any byte, and
counts `=` signs and commas outside of quotes.  `scanFieldValue` finds the end of one value later, when the fields are
read.  `scanLine` cuts the input into lines before all of this.
-/

namespace Influxdb.Models

open Strconv

def errInvalidNumber : Fault := .error "invalid number"

def isNumeric (c : Byte) : Bool := isDigit c || c == 46

/-! ## Numbers and booleans -/

/-- What `scanNumber` has seen. -/
structure NumberScan where
  isInt : Bool := false
  isUnsigned : Bool := false
  decimal : Bool := false
  scientific : Bool := false

/-- The loop of `scanNumber` on the bytes `x`, the `i`th of the number and those behind it; `p` is the byte before. -/
def scanNumberLoop : Byte → List Byte → ℕ → NumberScan → Except Fault (ℕ × NumberScan)
  | _, [], i, st => .ok (i, st)
  | p, c :: x, i, st =>
    if c = comma ∨ c = space then .ok (i, st)
    -- `i` and `u` end an integer
    else if c = 105 ∧ 0 < i ∧ ¬(st.isInt || st.isUnsigned) then scanNumberLoop c x (i + 1) { st with isInt := true }
    else if c = 117 ∧ 0 < i ∧ ¬(st.isInt || st.isUnsigned) then
      scanNumberLoop c x (i + 1) { st with isUnsigned := true }
    else if c = 46 ∧ st.decimal then .error errInvalidNumber
    else
      let st := if c = 46 then { st with decimal := true } else st
      -- `e` and `E`, and a sign behind them
      if 0 < i ∧ (c = 101 ∨ c = 69) then scanNumberLoop c x (i + 1) { st with scientific := true }
      else if (c = 43 ∨ c = 45) ∧ (p = 101 ∨ p = 69) then scanNumberLoop c x (i + 1) st
      else if 2 ≤ x.length ∧ (c = 78 ∨ c = 110) then .error errInvalidNumber
      else if ¬isNumeric c then .error errInvalidNumber
      else scanNumberLoop c x (i + 1) st

/-- The text of a `strconv.NumError`. -/
def numError (func : String) (num : List Byte) (err : String) : String :=
  "strconv." ++ func ++ ": parsing \"" ++ text num ++ "\": " ++ err

def unableToParse (kind func : String) (num : List Byte) (err : String) : String :=
  "unable to parse " ++ kind ++ " " ++ text num ++ ": " ++ numError func num err

/-- The parse that checks the bounds of a number. -/
def checkParse {α : Type} (r : Except String α) (msg : String → String) (n : ℕ) : Except Fault ℕ :=
  match r with
  | .error err => .error (.error (msg err))
  | .ok _ => .ok n

def checkNumber (text : List Byte) (st : NumberScan) : Except Fault ℕ :=
  let n := text.length
  let numericDigits := n - st.isInt.toNat - st.decimal.toNat - (text.head? == some 45).toNat
  if (st.isInt || st.isUnsigned) && (st.decimal || st.scientific) then .error errInvalidNumber
  else if numericDigits = 0 then .error errInvalidNumber
  else if st.isInt then
    if text.getLast? ≠ some 105 then .error errInvalidNumber
    else if 19 ≤ n - 1 ∨ 20 ≤ n - 1 then
      checkParse (parseInt text.dropLast) (unableToParse "integer" "ParseInt" text.dropLast) n
    else .ok n
  else if st.isUnsigned then
    if text.getLast? ≠ some 117 then .error errInvalidNumber
    else if text.head? = some 45 then .error errInvalidNumber
    else if 20 ≤ n - 1 then
      checkParse (parseUint text.dropLast) (unableToParse "unsigned" "ParseUint" text.dropLast) n
    else .ok n
  else if st.scientific ∨ 25 ≤ n ∨ 27 ≤ n then checkParse (parseFloat text) (fun _ => "invalid float") n
  else .ok n

/-- `scanNumber` from the bytes `x` on: the length of the number; `p` is the byte before. -/
def scanNumber (p : Byte) (x : List Byte) : Except Fault ℕ :=
  match x with
  | [] => .error (.panic "index out of range")
  | c :: rest =>
    -- is it negative? there must be more characters then
    if c = 45 ∧ rest = [] then .error errInvalidNumber
    else
      (if c = 45 then scanNumberLoop c rest 1 {} else scanNumberLoop p x 0 {}) >>= fun q =>
        checkNumber (x.take q.1) q.2

/-- The texts that `scanBoolean` takes for a first letter. -/
def booleanTexts (c : Byte) : List (List Byte) :=
  if c = 116 then [ascii "true"]
  else if c = 102 then [ascii "false"]
  else if c = 84 then [ascii "TRUE", ascii "True"]
  else [ascii "FALSE", ascii "False"]

/-- `scanBoolean` from the bytes `x` on: the length of the boolean. -/
def scanBoolean (x : List Byte) : Except Fault ℕ :=
  match x with
  | [] => .error (.panic "slice bounds out of range")
  | c :: rest =>
    if ¬(c = 116 ∨ c = 102 ∨ c = 84 ∨ c = 70) then .error (.error "invalid boolean")
    else
      let n := 1 + (rest.takeWhile fun d => !commaOrSpace d).length
      if n = 1 then .ok n
      else if (c = 116 ∨ c = 84) ∧ n ≠ 4 then .error (.error "invalid boolean")
      else if (c = 102 ∨ c = 70) ∧ n ≠ 5 then .error (.error "invalid boolean")
      else if x.take n ∈ booleanTexts c then .ok n
      else .error (.error "invalid boolean")

/-! ## The field section -/

/-- The state of `scanFields`: the bytes before the position, the last one first, those from the position on, the
positions of the `=` signs that were counted (the source keeps their number), the commas, and the quotes. -/
structure FieldScan where
  back : List Byte
  rest : List Byte
  equals : List ℕ
  commas : ℕ
  quoted : Bool
deriving DecidableEq

variable (st : FieldScan)

/-- Step over bytes. -/
def FieldScan.advance (n : ℕ) : FieldScan :=
  { st with back := (st.rest.take n).reverse ++ st.back, rest := st.rest.drop n }

/-- There is a byte before an `=` sign that belongs to the key; the check reads two bytes back. -/
def checkFieldKey (back : List Byte) : Except Fault Unit :=
  match back with
  | [] => .error (.panic "index out of range")
  | c :: back =>
    if c = space ∨ c = comma then
      match back with
      | [] => .error (.panic "index out of range")
      | d :: _ => if d ≠ backslash then .error (.error "missing field key") else .ok ()
    else .ok ()

/-- `scanFields` behind an `=` sign: the length of a number or boolean; a string is left to the rounds that follow. -/
def scanFieldsValue (rest : List Byte) : Except Fault ℕ :=
  match rest with
  | [] => .error (.error "missing field value")
  | d :: _ =>
    if d = comma ∨ d = space then .error (.error "missing field value")
    else if isNumeric d ∨ d = 45 ∨ d = 78 ∨ d = 110 then scanNumber equals rest
    else if d ≠ quote then scanBoolean rest
    else .ok 0

/-- `scanFields` at an `=` sign with the bytes `rest` behind it. -/
def scanFieldsEquals (rest : List Byte) : Except Fault FieldScan := do
  checkFieldKey st.back
  let n ← scanFieldsValue rest
  .ok ({ st with equals := st.equals ++ [st.back.length] }.advance (1 + n))

/-- One round of the loop of `scanFields`; `none` ends it. -/
def scanFieldsStep : Except Fault (Option FieldScan) :=
  match st.rest with
  | [] => .ok none
  | c :: rest =>
    if c = backslash ∧ rest ≠ [] then .ok (some (st.advance 2))
    else if c = quote ∧ st.commas < st.equals.length then
      .ok (some ({ st with quoted := !st.quoted }.advance 1))
    else if c = equals ∧ ¬st.quoted then do
      let st ← scanFieldsEquals st rest
      .ok (some st)
    else if c = comma ∧ ¬st.quoted then .ok (some ({ st with commas := st.commas + 1 }.advance 1))
    else if c = space ∧ ¬st.quoted then .ok none
    else .ok (some (st.advance 1))

def scanFieldsLoop : ℕ → FieldScan → Except Fault FieldScan
  | 0, _ => .error .diverge
  | n + 1, st => do
    match ← scanFieldsStep st with
    | none => .ok st
    | some st => scanFieldsLoop n st

variable (buf : List Byte)

/-- The loop of `scanFields` from a position on. -/
def scanFieldsFrom (start : ℕ) : Except Fault FieldScan :=
  scanFieldsLoop (buf.length + 1) ⟨(buf.take start).reverse, buf.drop start, [], 0, false⟩

variable (i : ℕ)

def scanFields : Except Fault (ℕ × List Byte) := do
  let start := skipWhitespace buf i
  let st ← scanFieldsFrom buf start
  if st.quoted then .error (.error "unbalanced quotes")
  else if st.equals.length = 0 ∨ st.commas ≠ st.equals.length - 1 then .error (.error "invalid field format")
  else
    let fields ← slice buf start st.back.length
    .ok (st.back.length, fields)

/-! ## The timestamp -/

/-- The loop of `scanTime` on the bytes `x`, the `i`th of the timestamp and those behind it. -/
def scanTimeLoop : List Byte → ℕ → Except Fault ℕ
  | [], i => .ok i
  | c :: x, i =>
    if c = newline ∨ c = space then .ok i
    else if i = 0 ∧ c = 45 then scanTimeLoop x (i + 1)
    else if ¬isDigit c then .error (.error "bad timestamp")
    else scanTimeLoop x (i + 1)

def scanTime : Except Fault (ℕ × List Byte) := do
  let start := skipWhitespace buf i
  let n ← scanTimeLoop (buf.drop start) 0
  let ts ← slice buf start (start + n)
  .ok (start + n, ts)

/-! ## Values and lines -/

/-- The loop of `scanFieldValue`: the length of the value; `skip` says that the next byte stands behind a backslash. -/
def fieldValueLen : Bool → Bool → List Byte → ℕ
  | _, _, [] => 0
  | true, quoted, _ :: x => fieldValueLen false quoted x + 1
  | false, quoted, c :: x =>
    if c = backslash ∧ (x.head? = some quote ∨ x.head? = some backslash) then fieldValueLen true quoted x + 1
    else if c = quote then fieldValueLen false (!quoted) x + 1
    else if c = comma ∧ ¬quoted then 0
    else fieldValueLen false quoted x + 1

/-- `scanFieldValue`; the slice may start one byte behind the buffer, where its capacity still reaches. -/
def scanFieldValue : ℕ × List Byte :=
  let n := fieldValueLen false false (buf.drop i)
  (i + n, (buf.drop i).take n)

/-- The state of `scanLine`; `skip` says that the next byte stands behind a backslash. -/
structure LineScan where
  skip : Bool := false
  quoted : Bool := false
  fields : Bool := false
  equals : ℕ := 0
  commas : ℕ := 0
deriving DecidableEq

/-- What `scanLine` does at a byte with `n` bytes behind it; `none` ends the line. -/
def scanLineStep (st : LineScan) (c : Byte) (n : ℕ) : Option LineScan :=
  if st.skip then some { st with skip := false }
  else if c = backslash ∧ 2 ≤ n then some { st with skip := true }
  else
    let st := if c = space then { st with fields := true } else st
    if st.fields ∧ ¬st.quoted ∧ c = equals then some { st with equals := st.equals + 1 }
    else if st.fields ∧ ¬st.quoted ∧ c = comma then some { st with commas := st.commas + 1 }
    else if st.fields ∧ c = quote ∧ st.commas < st.equals then some { st with quoted := !st.quoted }
    else if c = newline ∧ ¬st.quoted then none
    else some st

/-- The loop of `scanLine`: the length of the line. -/
def lineLen : LineScan → List Byte → ℕ
  | _, [] => 0
  | st, c :: x =>
    match scanLineStep st c x.length with
    | none => 0
    | some st => lineLen st x + 1

def scanLine : ℕ × List Byte :=
  let n := lineLen {} (buf.drop i)
  (i + n, (buf.drop i).take n)

end Influxdb.Models
