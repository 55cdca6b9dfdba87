import Tinydb.Lib.Program
import Tinydb.Types.Value

/-! Values on disk (`types/codec.py`) and what may go into a column (`types/coerce.py`).

A value is a tag byte and a payload. Columns take few conversions: an integer may
go into a FLOAT or DECIMAL column and a whole float into an INT column, and SQL
NULL is a tag of its own in every column.
-/

namespace Tinydb.Types

open Lib Types.Runtime

variable {X : Type} [Runtime X]

def codecError (msg : String) : Exc := ⟨.typeError, msg⟩

def mismatch (msg : String) : Exc := ⟨.typeMismatchError, msg⟩

/-- Signed little-endian numbers of `n` bytes, as the formats `<i` and `<q` write them. -/
def packSigned (n : ℕ) (i : ℤ) : Except Exc Bytes :=
  if -(2 ^ (8 * n - 1) : ℤ) ≤ i ∧ i < 2 ^ (8 * n - 1) then .ok (packLE n (i % 2 ^ (8 * n)).toNat)
  else .error .packRange

def unpackSigned (n : ℕ) (bs : Bytes) : ℤ :=
  let u : ℤ := unpackLE bs
  if u < 2 ^ (8 * n - 1) then u else u - 2 ^ (8 * n)

/-- `struct.unpack_from`: the bytes must be there. -/
def unpackFrom (buf : Bytes) (offset size : ℕ) : Except Exc Bytes :=
  if offset + size ≤ buf.length then .ok (slice buf offset size) else .error .unpackSize

def lengthPrefixed (payload : Bytes) : Except Exc Bytes :=
  if payload.length < 2 ^ 32 then .ok (packLE 4 payload.length ++ payload) else .error .packRange

def utf8 (s : String) : Bytes := s.toUTF8.toList

def ofUtf8 (bs : Bytes) : Except Exc String :=
  match String.fromUTF8? ⟨bs.toArray⟩ with
  | some s => .ok s
  | none => .error ⟨.unicodeError, "invalid utf-8"⟩

def requires (tag : TypeTag) (python : String) (value : Value X) : Exc :=
  codecError ("TypeTag." ++ tag.name ++ " requires " ++ python ++ ", got " ++ value.typeName)

/-- `_check_int_range`. -/
def checkIntRange : Value X → Except Exc ℤ
  | .int i =>
    if -(2 ^ 63) ≤ i ∧ i ≤ 2 ^ 63 - 1 then .ok i
    else .error ⟨.overflowError, "int " ++ toString i ++ " does not fit in signed 64-bit"⟩
  | value => .error (requires .int "int" value)

def valueSize (value : Value X) (tag : TypeTag) : Except Exc ℕ :=
  match tag, value with
  | .null, .none => .ok 1
  | .null, value => .error (requires .null "None" value)
  | .json, .none => .ok (1 + 4 + "null".length)
  | tag, .none => .error (codecError ("TypeTag." ++ tag.name ++ " cannot encode None"))
  | .int, value => do
    let _ ← checkIntRange value
    return 1 + 8
  | .float, _ => .ok (1 + 8)
  | .bool, .bool _ => .ok (1 + 1)
  | .bool, value => .error (requires .bool "bool" value)
  | .date, .foreign x =>
    -- `datetime` is a subclass of `date`
    if kind x = .date ∨ kind x = .datetime then .ok (1 + 4)
    else .error (requires .date "datetime.date" value)
  | .date, value => .error (requires .date "datetime.date" value)
  | .time, .foreign x =>
    if kind x = .time then .ok (1 + 8) else .error (requires .time "datetime.time" value)
  | .time, value => .error (requires .time "datetime.time" value)
  | .datetime, .foreign x =>
    if kind x = .datetime then .ok (1 + 8) else .error (requires .datetime "datetime.datetime" value)
  | .datetime, value => .error (requires .datetime "datetime.datetime" value)
  | .text, .str s => .ok (1 + 4 + (utf8 s).length)
  | .text, value => .error (requires .text "str" value)
  | .decimal, .foreign x =>
    if kind x = .decimal then .ok (1 + 4 + (utf8 (decimalText x)).length)
    else .error (requires .decimal "Decimal" value)
  | .decimal, value => .error (requires .decimal "Decimal" value)
  | .blob, .bytes bs => .ok (1 + 4 + bs.length)
  | .blob, value => .error (requires .blob "bytes" value)
  | .json, value => do return 1 + 4 + (utf8 (← jsonDumps value)).length

def encodePayload (value : Value X) (tag : TypeTag) : Except Exc Bytes :=
  match tag, value with
  | .null, .none => .ok []
  | .null, value => .error (requires .null "None" value)
  | .json, .none => lengthPrefixed (utf8 "null")
  | tag, .none => .error (codecError ("TypeTag." ++ tag.name ++ " cannot encode None"))
  | .int, value => do packSigned 8 (← checkIntRange value)
  | .float, value => packDouble value
  | .bool, .bool b => .ok [if b then 1 else 0]
  | .bool, value => .error (requires .bool "bool" value)
  | .date, .foreign x =>
    match kind x with
    | .date => packSigned 4 (days x)
    -- a datetime passes for a date until a date is subtracted from it
    | .datetime => .error ⟨.typeError, "unsupported operand type(s) for -: 'datetime' and 'date'"⟩
    | _ => .error (requires .date "datetime.date" value)
  | .date, value => .error (requires .date "datetime.date" value)
  | .time, .foreign x =>
    if kind x = .time then .ok (packLE 8 (micros x))
    else .error (requires .time "datetime.time" value)
  | .time, value => .error (requires .time "datetime.time" value)
  | .datetime, .foreign x =>
    if kind x = .datetime then packSigned 8 (epochMicros x)
    else .error (requires .datetime "datetime.datetime" value)
  | .datetime, value => .error (requires .datetime "datetime.datetime" value)
  | .text, .str s => lengthPrefixed (utf8 s)
  | .text, value => .error (requires .text "str" value)
  | .decimal, .foreign x =>
    if kind x = .decimal then lengthPrefixed (utf8 (decimalText x))
    else .error (requires .decimal "Decimal" value)
  | .decimal, value => .error (requires .decimal "Decimal" value)
  | .blob, .bytes bs => lengthPrefixed bs
  | .blob, value => .error (requires .blob "bytes" value)
  | .json, value => do lengthPrefixed (utf8 (← jsonDumps value))

def encodeValue (value : Value X) (tag : TypeTag) : Except Exc Bytes := do
  return tag.byte :: (← encodePayload value tag)

/-- The bytes behind a length, and where they end. A short buffer gives fewer bytes. -/
def decodePrefixed (buf : Bytes) (offset : ℕ) : Except Exc (Bytes × ℕ) := do
  let length := unpackLE (← unpackFrom buf offset 4)
  return (slice buf (offset + 4) length, offset + 4 + length)

/-- The value at `offset`, and the position behind it. -/
def decodeValue (buf : Bytes) (offset : ℕ) : Except Exc (Value X × ℕ) :=
  match buf[offset]? with
  | none => .error ⟨.valueError, "buffer underrun: no tag byte to read"⟩
  | some b =>
    let offset := offset + 1
    match TypeTag.ofByte b with
    | none => .error ⟨.valueError, "unknown TypeTag byte: " ++ hexText 2 b.toNat⟩
    | some .null => .ok (.none, offset)
    | some .int => do return (.int (unpackSigned 8 (← unpackFrom buf offset 8)), offset + 8)
    | some .float => do return (.foreign (unpackDouble (← unpackFrom buf offset 8)), offset + 8)
    | some .bool =>
      match buf[offset]? with
      | none => .error ⟨.indexError, "index out of range"⟩
      | some raw => .ok (.bool (raw ≠ 0), offset + 1)
    | some .date => do
      return (.foreign (← ofDays (unpackSigned 4 (← unpackFrom buf offset 4))), offset + 4)
    | some .time => do
      return (.foreign (← ofMicros (unpackLE (← unpackFrom buf offset 8))), offset + 8)
    | some .datetime => do
      return (.foreign (← ofEpochMicros (unpackSigned 8 (← unpackFrom buf offset 8))), offset + 8)
    | some .text => do
      let (payload, next) ← decodePrefixed buf offset
      return (.str (← ofUtf8 payload), next)
    | some .decimal => do
      let (payload, next) ← decodePrefixed buf offset
      return (.foreign (← ofDecimalText (← ofUtf8 payload)), next)
    | some .blob => do
      let (payload, next) ← decodePrefixed buf offset
      return (.bytes payload, next)
    | some .json => do
      let (payload, next) ← decodePrefixed buf offset
      return (← jsonLoads (← ofUtf8 payload), next)

def cannotAccept (column : String) (value : Value X) : Exc :=
  mismatch (column ++ " column cannot accept " ++ value.typeName)

/-- The bytes of `value` in a column of type `target`. -/
def coerceValue (value : Value X) (target : TypeTag) : Except Exc Bytes :=
  match target, value with
  | .null, .none => encodeValue value .null
  | .null, value => .error (mismatch ("NULL column requires None, got " ++ value.typeName))
  | .json, .none => encodeValue value .json
  | target, .none => .error (mismatch
      ("TypeTag." ++ target.name ++ " cannot accept None (use a NULL-typed column for SQL NULL)"))
  | .int, .bool _ => .error (mismatch "INT column does not accept bool")
  | .int, .int i => encodeValue (X := X) (.int i) .int
  | .int, .foreign x =>
    if kind x = .float then
      match integral x with
      | some i => encodeValue (X := X) (.int i) .int
      | none => .error (mismatch ("INT column cannot accept fractional float " ++ repr value))
    else .error (cannotAccept "INT" value)
  | .int, value => .error (cannotAccept "INT" value)
  | .float, .bool _ => .error (mismatch "FLOAT column does not accept bool")
  | .float, .int i => do encodeValue (.foreign (← ofInt i : X)) .float
  | .float, .foreign x =>
    if kind x = .float then encodeValue (.foreign x) .float else .error (cannotAccept "FLOAT" value)
  | .float, value => .error (cannotAccept "FLOAT" value)
  | .text, .str s => encodeValue (X := X) (.str s) .text
  | .text, value => .error (cannotAccept "TEXT" value)
  | .bool, .bool b => encodeValue (X := X) (.bool b) .bool
  | .bool, value => .error (mismatch ("BOOL column only accepts True / False, got " ++ value.typeName))
  | .date, .foreign x =>
    if kind x = .date then encodeValue (.foreign x) .date else .error (cannotAccept "DATE" value)
  | .date, value => .error (cannotAccept "DATE" value)
  | .time, .foreign x =>
    if kind x = .time then encodeValue (.foreign x) .time else .error (cannotAccept "TIME" value)
  | .time, value => .error (cannotAccept "TIME" value)
  | .datetime, .foreign x =>
    if kind x = .datetime then encodeValue (.foreign x) .datetime
    else .error (cannotAccept "DATETIME" value)
  | .datetime, value => .error (cannotAccept "DATETIME" value)
  | .decimal, .bool _ => .error (mismatch "DECIMAL column does not accept bool")
  | .decimal, .int i => encodeValue (.foreign (decimalOfInt i : X)) .decimal
  | .decimal, .foreign x =>
    if kind x = .decimal then encodeValue (.foreign x) .decimal
    else .error (mismatch ("DECIMAL column cannot accept " ++ value.typeName ++
      " (wrap in Decimal() explicitly to avoid float coercion)"))
  | .decimal, value => .error (mismatch ("DECIMAL column cannot accept " ++ value.typeName ++
      " (wrap in Decimal() explicitly to avoid float coercion)"))
  | .blob, .bytes bs => encodeValue (X := X) (.bytes bs) .blob
  | .blob, value => .error (cannotAccept "BLOB" value)
  | .json, value =>
    if value.jsonOk then
      match jsonDumps value with
      | .error e => .error (mismatch ("value is not JSON-serialisable: " ++ e.msg))
      | .ok _ => encodeValue value .json
    else .error (cannotAccept "JSON" value)

def unwrap : Value X → Value X
  | .typed _ value => value
  | value => value

def encodeColumn (value : Value X) (tag : TypeTag) : Except Exc Bytes :=
  match unwrap value with
  | .none => encodeValue (X := X) .none .null
  | value => coerceValue value tag

def encodeColumns : Row X → List TypeTag → Except Exc Bytes
  | value :: values, tag :: tags => do
    let column ← encodeColumn value tag
    return column ++ (← encodeColumns values tags)
  | _, _ => .ok []

def encodeRowCoerced (values : Row X) (tags : List TypeTag) : Except Exc Bytes :=
  if values.length = tags.length then encodeColumns values tags
  else .error ⟨.valueError, "encode_row_coerced: " ++ toString values.length ++ " values vs " ++
    toString tags.length ++ " tags"⟩

/-- As many values as there are tags, from `offset` on. -/
def decodeColumns (buf : Bytes) : (offset : ℕ) → List TypeTag → Except Exc (Row X × ℕ)
  | offset, [] => .ok ([], offset)
  | offset, _ :: tags => do
    let (value, next) ← decodeValue buf offset
    let (values, stop) ← decodeColumns buf next tags
    return (value :: values, stop)

/-- The tags only say how many values to read; each value carries its own. -/
def decodeRow (blob : Bytes) (tags : List TypeTag) : Except Exc (Row X) := do
  let (values, offset) ← decodeColumns blob 0 tags
  if offset = blob.length then return values
  else throw ⟨.valueError, "decode_row: " ++ toString ((blob.length : ℤ) - offset) ++
    " trailing bytes (expected exactly " ++ toString blob.length ++ " consumed)"⟩

end Tinydb.Types
