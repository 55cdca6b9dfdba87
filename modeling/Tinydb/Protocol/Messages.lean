import Tinydb.Sql.Tokens
import Tinydb.Types.Codec

/-! Messages of the wire protocol (`protocol/frame.py`, `protocol/messages.py`).

Every message is the payload of a frame. Numbers are big-endian; a float is eight
bytes that the runtime packs.
-/

namespace Tinydb.Protocol

open Lib Tinydb.Types Sql

def MAX_PARAMS : ℕ := 1024
def MAX_CLIENT_ID : ℕ := 64
def MAX_SQL_LEN : ℕ := 1 <<< 20
def MAX_ERR_MSG_LEN : ℕ := 1 <<< 16

/-- A frame without its length, which is that of the payload. -/
structure Frame where
  type : UInt8
  flags : UInt8
  payload : Bytes

inductive MessageType where
  | hello | ok | err | query | exec | resultHeader | resultRow | resultDone | resultError | ping | pong | quit
  deriving DecidableEq

namespace MessageType

def code : MessageType → UInt8
  | hello => 0x01
  | ok => 0x02
  | err => 0x03
  | query => 0x10
  | exec => 0x11
  | resultHeader => 0x20
  | resultRow => 0x21
  | resultDone => 0x22
  | resultError => 0x23
  | ping => 0x30
  | pong => 0x31
  | quit => 0xFE

def all : List MessageType :=
  [hello, ok, err, query, exec, resultHeader, resultRow, resultDone, resultError, ping, pong, quit]

def ofCode (code : UInt8) : Option MessageType := all.find? fun type => type.code = code

theorem ofCode_code (type : MessageType) : ofCode type.code = some type := by cases type <;> rfl

end MessageType

inductive ParamType where
  | null | int64 | float64 | string | bool
  deriving DecidableEq

namespace ParamType

def code : ParamType → UInt8
  | null => 0x00
  | int64 => 0x01
  | float64 => 0x02
  | string => 0x03
  | bool => 0x04

def all : List ParamType := [null, int64, float64, string, bool]

def ofCode (code : UInt8) : Option ParamType := all.find? fun type => type.code = code

theorem ofCode_code (type : ParamType) : ofCode type.code = some type := by cases type <;> rfl

end ParamType

/-- A typed parameter. -/
inductive Param (X : Type) where
  | null
  | int64 (value : ℤ)
  | float64 (value : X)
  | string (value : String)
  | bool (value : Bool)
  deriving DecidableEq

/-- `struct.pack(">d", _)` and back. -/
class Wire (X : Type) where
  double : X → { bs : Bytes // bs.length = 8 }
  ofDouble : Bytes → X

inductive Message (X : Type) where
  | hello (client : String)
  | ok (version : String)
  | err (code msg : String)
  | query (sql : String)
  | exec (sql : String) (params : List (Param X))
  | resultHeader (columns : List (String × UInt8))
  | resultRow (values : List (Value X))
  | resultDone (rowcount lastInsertId : ℤ) (statusFlags : UInt8)
  | resultError (code msg : String)
  | ping (ts : ℤ)
  | pong (ts : ℤ)
  | quit
  deriving DecidableEq

def Message.type {X : Type} : Message X → MessageType
  | hello _ => .hello
  | ok _ => .ok
  | err _ _ => .err
  | query _ => .query
  | exec _ _ => .exec
  | resultHeader _ => .resultHeader
  | resultRow _ => .resultRow
  | resultDone _ _ _ => .resultDone
  | resultError _ _ => .resultError
  | ping _ => .ping
  | pong _ => .pong
  | quit => .quit

/-- `struct.pack` of the formats `>H`, `>I` and `>Q`. -/
def packUnsigned (width : ℕ) (n : ℤ) : Except Exc Bytes :=
  if 0 ≤ n ∧ n < 256 ^ width then .ok (packBE width n.toNat) else .error .packRange

/-- `struct.pack(">q", _)`. -/
def packInt64 (i : ℤ) : Except Exc Bytes := do return (← packSigned 8 i).reverse

/-- `bytearray.append`. -/
def packByte (n : ℕ) : Except Exc Bytes :=
  if n < 256 then .ok [UInt8.ofNat n] else .error ⟨.valueError, "byte must be in range(0, 256)"⟩

/-- `_.encode("ascii")`. -/
def ascii (text : String) : Except Exc Bytes :=
  if text.toList.all isAscii then .ok (utf8 text) else .error ⟨.unicodeError, "ordinal not in range(128)"⟩

variable {X : Type} [Runtime X] [Lexicon X] [Wire X]

def packTyped (type : ParamType) (data : Bytes) : Except Exc Bytes := do
  return type.code :: (← packUnsigned 4 data.length) ++ data

def packParam : Param X → Except Exc Bytes
  | .null => packTyped .null []
  | .int64 i => do packTyped .int64 (← packInt64 i)
  | .float64 x => packTyped .float64 (Wire.double x).val
  | .string s => packTyped .string (utf8 s)
  | .bool b => packTyped .bool [if b then 1 else 0]

/-- A value of a result row as a parameter: objects of other classes are sent as their text. -/
def toParam : Value X → Param X
  | .none => .null
  | .bool b => .bool b
  | .int i => .int64 i
  | .str s => .string s
  | .foreign x => if Runtime.kind x = .float then .float64 x else .string (Lexicon.str (.foreign x : Value X))
  | value => .string (Lexicon.str value)

def packColumn (column : String × UInt8) : Except Exc Bytes := do
  return (← packByte (utf8 column.1).length) ++ utf8 column.1 ++ [column.2]

def packError (code msg : String) : Except Exc Bytes := do
  return (← ascii code) ++ (← packUnsigned 2 (utf8 msg).length) ++ utf8 msg

def Frame.of (type : MessageType) (payload : Bytes) : Frame := ⟨type.code, 0, payload⟩

/-- The constructor of the message with its checks, then `to_frame`. -/
def toFrame : Message X → Except Exc Frame
  | .hello client =>
    if MAX_CLIENT_ID < (utf8 client).length then
      .error ⟨.valueError, "HELLO client id too long: " ++ toString (utf8 client).length ++ " > " ++
        toString MAX_CLIENT_ID ++ " bytes"⟩
    else .ok (.of .hello (utf8 client))
  | .ok version => .ok (.of .ok (utf8 version))
  | .err code msg => do return .of .err (← packError code msg)
  | .query sql => .ok (.of .query (utf8 sql))
  | .exec sql params =>
    if MAX_PARAMS < params.length then
      .error ⟨.valueError, "too many params: " ++ toString params.length ++ " > " ++ toString MAX_PARAMS⟩
    else do
      return .of .exec ((← packUnsigned 4 (utf8 sql).length) ++ utf8 sql ++ (← packUnsigned 2 params.length) ++
        (← params.mapM packParam).flatten)
  | .resultHeader columns => do
    return .of .resultHeader ((← packUnsigned 2 columns.length) ++ (← columns.mapM packColumn).flatten)
  | .resultRow values => do
    return .of .resultRow ((← packUnsigned 2 values.length) ++ (← values.mapM (packParam ∘ toParam)).flatten)
  | .resultDone rowcount lastInsertId statusFlags => do
    return .of .resultDone ((← packInt64 rowcount) ++ (← packInt64 lastInsertId) ++ [statusFlags])
  | .resultError code msg => do return .of .resultError (← packError code msg)
  | .ping ts => do return .of .ping (← packUnsigned 8 ts)
  | .pong ts => do return .of .pong (← packUnsigned 8 ts)
  | .quit => .ok (.of .quit [])

/-- `_require`. -/
def require (payload : Bytes) (need : ℕ) (what : String) : Except Exc Unit :=
  if payload.length < need then
    .error ⟨.frameTruncatedError, what ++ ": need " ++ toString need ++ " bytes, have " ++ toString payload.length⟩
  else .ok ()

/-- `payload[offset]`. -/
def byteAt (payload : Bytes) (offset : ℕ) : Except Exc UInt8 :=
  match payload[offset]? with
  | some byte => .ok byte
  | none => .error ⟨.indexError, "index out of range"⟩

/-- `struct.unpack` of a format with `width` bytes. -/
def unpackExact {α : Type} (width : ℕ) (read : Bytes → α) (bs : Bytes) : Except Exc α :=
  if bs.length = width then .ok (read bs) else .error .unpackSize

/-- The formats `>H`, `>I` and `>Q`. -/
def unpackUnsigned (width : ℕ) : Bytes → Except Exc ℕ := unpackExact width unpackBE

/-- The format `>q`. -/
def unpackInt64 : Bytes → Except Exc ℤ := unpackExact 8 fun bs => unpackSigned 8 bs.reverse

/-- What may differ between the typed values of two messages. -/
structure TypedFormat where
  /-- The value in the texts of truncated payloads, and of data with the wrong length. -/
  what : String
  noun : String
  /-- Whether NULL must have no data. -/
  nullChecked : Bool

def execParam : TypedFormat := ⟨"EXEC param", "param", false⟩

def rowValue : TypedFormat := ⟨"RESULT_ROW value", "value", true⟩

variable {X : Type} [Wire X]

def wrongLength (type noun : String) (need length : ℕ) : Exc :=
  ⟨.valueError, type ++ " " ++ noun ++ " must be " ++ toString need ++ " byte" ++ (if need = 1 then "" else "s") ++
    ", got " ++ toString length⟩

def unpackData (format : TypedFormat) (type : ParamType) (data : Bytes) : Except Exc (Param X) :=
  match type with
  | .null =>
    if format.nullChecked ∧ data.length ≠ 0 then .error (wrongLength "NULL" "param" 0 data.length) else .ok .null
  | .int64 =>
    if data.length ≠ 8 then .error (wrongLength "INT64" format.noun 8 data.length)
    else do return .int64 (← unpackInt64 data)
  | .float64 =>
    if data.length ≠ 8 then .error (wrongLength "FLOAT64" format.noun 8 data.length)
    else do return .float64 (← unpackExact 8 Wire.ofDouble data)
  | .string => do return .string (← ofUtf8 data)
  | .bool =>
    if data.length ≠ 1 then .error (wrongLength "BOOL" format.noun 1 data.length)
    else do return .bool ((← byteAt data 0) ≠ 0)

/-- The typed values at `offset`, as many as were announced. -/
def unpackTyped (format : TypedFormat) (payload : Bytes) : ℕ → ℕ → Except Exc (List (Param X))
  | 0, _ => .ok []
  | count + 1, offset => do
    require payload (offset + 5) (format.what ++ " header")
    let code ← byteAt payload offset
    match ParamType.ofCode code with
    | none => .error ⟨.valueError, toString code.toNat ++ " is not a valid ParamType"⟩
    | some type =>
      let length ← unpackUnsigned 4 (slice payload (offset + 1) 4)
      require payload (offset + 5 + length) (format.what ++ " body")
      let param ← unpackData format type (slice payload (offset + 5) length)
      return param :: (← unpackTyped format payload count (offset + 5 + length))

/-- The columns at `offset`, as many as were announced. -/
def unpackColumns (payload : Bytes) : ℕ → ℕ → Except Exc (List (String × UInt8))
  | 0, _ => .ok []
  | count + 1, offset => do
    require payload (offset + 2) "RESULT_HEADER column header"
    let length := (← byteAt payload offset).toNat
    require payload (offset + 1 + length + 1) "RESULT_HEADER column body"
    let name ← ofUtf8 (slice payload (offset + 1) length)
    let typeCode ← byteAt payload (offset + 1 + length)
    return (name, typeCode) :: (← unpackColumns payload count (offset + 1 + length + 1))

/-- `_.decode("ascii")`. -/
def ofAscii (bs : Bytes) : Except Exc String :=
  if bs.all (· < 128) then ofUtf8 bs else .error ⟨.unicodeError, "ordinal not in range(128)"⟩

def unpackError (what : String) (payload : Bytes) : Except Exc (String × String) := do
  require payload 7 (what ++ " header")
  let code ← ofAscii (slice payload 0 5)
  let length ← unpackUnsigned 2 (slice payload 5 2)
  if MAX_ERR_MSG_LEN < length then
    .error ⟨.valueError, what ++ " msg too long: " ++ toString length ++ " > " ++ toString MAX_ERR_MSG_LEN⟩
  else
    require payload (7 + length) (what ++ " msg")
    return (code, ← ofUtf8 (slice payload 7 length))

def unpackTimestamp (what : String) (payload : Bytes) : Except Exc ℤ := do
  require payload 8 what
  return (← unpackUnsigned 8 payload)

/-- `Param.value`. -/
def Param.toValue : Param X → Value X
  | .null => .none
  | .int64 i => .int i
  | .float64 x => .foreign x
  | .string s => .str s
  | .bool b => .bool b

def unpackExec (payload : Bytes) : Except Exc (Message X) := do
  require payload 4 "EXEC sql_len prefix"
  let length ← unpackUnsigned 4 (slice payload 0 4)
  if MAX_SQL_LEN < length then
    .error ⟨.valueError, "EXEC sql_len too large: " ++ toString length ++ " > " ++ toString MAX_SQL_LEN⟩
  else
    require payload (4 + length + 2) "EXEC sql+param_count"
    let sql ← ofUtf8 (slice payload 4 length)
    let count ← unpackUnsigned 2 (slice payload (4 + length) 2)
    if MAX_PARAMS < count then
      .error ⟨.valueError, "EXEC param_count too large: " ++ toString count ++ " > " ++ toString MAX_PARAMS⟩
    else return .exec sql (← unpackTyped execParam payload count (4 + length + 2))

/-- `from_frame` of the class for a type. -/
def fromFrame (type : MessageType) (payload : Bytes) : Except Exc (Message X) :=
  match type with
  | .hello =>
    if MAX_CLIENT_ID < payload.length then
      .error ⟨.valueError, "HELLO client id too long: " ++ toString payload.length ++ " > " ++
        toString MAX_CLIENT_ID ++ " bytes"⟩
    else do return .hello (← ofUtf8 payload)
  | .ok => do return .ok (← ofUtf8 payload)
  | .err => do
    let (code, msg) ← unpackError "ERR" payload
    return .err code msg
  | .query =>
    if MAX_SQL_LEN < payload.length then
      .error ⟨.valueError, "QUERY sql too long: " ++ toString payload.length ++ " > " ++ toString MAX_SQL_LEN⟩
    else do return .query (← ofUtf8 payload)
  | .exec => unpackExec payload
  | .resultHeader => do
    require payload 2 "RESULT_HEADER col_count"
    let count ← unpackUnsigned 2 (slice payload 0 2)
    return .resultHeader (← unpackColumns payload count 2)
  | .resultRow => do
    require payload 2 "RESULT_ROW col_count"
    let count ← unpackUnsigned 2 (slice payload 0 2)
    return .resultRow ((← unpackTyped rowValue payload count 2).map Param.toValue)
  | .resultDone => do
    require payload 17 "RESULT_DONE"
    return .resultDone (← unpackInt64 (slice payload 0 8)) (← unpackInt64 (slice payload 8 8)) (← byteAt payload 16)
  | .resultError => do
    let (code, msg) ← unpackError "RESULT_ERROR" payload
    return .resultError code msg
  | .ping => do return .ping (← unpackTimestamp "PING" payload)
  | .pong => do return .pong (← unpackTimestamp "PONG" payload)
  | .quit => .ok .quit

theorem fromFrame_type {type : MessageType} {payload : Bytes} {message : Message X}
    (decoded : fromFrame type payload = .ok message) : message.type = type := by
  cases type with
  | hello | query =>
    rw [fromFrame] at decoded
    split_ifs at decoded
    obtain ⟨text, -, ⟨⟩⟩ := bind_ok_iff.mp decoded
    rfl
  | ok | ping | pong =>
    obtain ⟨text, -, ⟨⟩⟩ := bind_ok_iff.mp decoded
    rfl
  | err | resultError =>
    obtain ⟨⟨code, msg⟩, -, ⟨⟩⟩ := bind_ok_iff.mp decoded
    rfl
  | exec =>
    obtain ⟨-, -, prefixed⟩ := bind_ok_iff.mp decoded
    obtain ⟨length, -, sized⟩ := bind_ok_iff.mp prefixed
    rw [ite_eq_iff] at sized
    obtain ⟨-, refused⟩ | ⟨-, sized⟩ := sized
    · cases refused
    obtain ⟨-, -, decoded⟩ := bind_ok_iff.mp sized
    obtain ⟨sql, -, counted⟩ := bind_ok_iff.mp decoded
    obtain ⟨count, -, counted⟩ := bind_ok_iff.mp counted
    split_ifs at counted
    obtain ⟨params, -, ⟨⟩⟩ := bind_ok_iff.mp counted
    rfl
  | resultHeader | resultRow =>
    obtain ⟨-, -, counted⟩ := bind_ok_iff.mp decoded
    obtain ⟨count, -, inner⟩ := bind_ok_iff.mp counted
    obtain ⟨items, -, ⟨⟩⟩ := bind_ok_iff.mp inner
    rfl
  | resultDone =>
    obtain ⟨-, -, first⟩ := bind_ok_iff.mp decoded
    obtain ⟨rowcount, -, second⟩ := bind_ok_iff.mp first
    obtain ⟨lastInsertId, -, third⟩ := bind_ok_iff.mp second
    obtain ⟨statusFlags, -, ⟨⟩⟩ := bind_ok_iff.mp third
    rfl
  | quit =>
    cases decoded
    rfl

def decodeMessage (frame : Frame) : Except Exc (Message X) :=
  match MessageType.ofCode frame.type with
  | none => .error ⟨.valueError, "unknown message type: 0x" ++
      String.ofList (((hexText 2 frame.type.toNat).toList.drop 2).map Char.toUpper)⟩
  | some type => fromFrame type frame.payload

end Tinydb.Protocol
