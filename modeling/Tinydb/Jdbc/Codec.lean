import Tinydb.Protocol.RoundTrip

/-! The codec of the JDBC driver (`org/tinydb/jdbc/protocol/Codec.java`) against the one of the server.

Java has signed bytes and integers of fixed width: lengths are put together by shifting bytes
into an `int`, numbers by shifting them into a `long`. A string is taken as its characters,
so there are no lone surrogates; a `double` is its 64 bits.
-/

namespace Tinydb.Jdbc

open Lib Tinydb.Types Sql Protocol List

inductive JavaExc where
  | illegalArgument (msg : String)
  | runtime (msg : String)
  | indexOutOfBounds
  | negativeArraySize
  deriving DecidableEq

/-- The result of an operation on `int`. -/
def int (i : ℤ) : ℤ := i.bmod (2 ^ 32)

/-- Bytes shifted to their places and or-ed, as in `((b[0] & 0xFF) << 8) | (b[1] & 0xFF)`. -/
def shifted : Bytes → ℕ
  | [] => 0
  | byte :: rest => (byte.toNat <<< (8 * rest.length)) ||| shifted rest

/-- The bytes `(byte) (n >>> shift)`. -/
def shiftedOut (shifts : List ℕ) (n : ℕ) : Bytes := shifts.map fun shift => UInt8.ofNat (n >>> shift)

/-- An object of a parameter or a row. -/
inductive JavaValue where
  | null
  | long (value : BitVec 64)
  | double (bits : BitVec 64)
  | string (text : String)
  | boolean (value : Bool)
  deriving DecidableEq

structure Column where
  name : String
  type : BitVec 8
  deriving DecidableEq

def JavaValue.wireType : JavaValue → UInt8
  | null => 0x00
  | long _ => 0x01
  | double _ => 0x02
  | string _ => 0x03
  | boolean _ => 0x04

/-- `Param.encodeValue`. -/
def JavaValue.encodeValue : JavaValue → Bytes
  | null => []
  | long value => shiftedOut [56, 48, 40, 32, 24, 16, 8, 0] value.toNat
  | double bits => shiftedOut [56, 48, 40, 32, 24, 16, 8, 0] bits.toNat
  | string text => utf8 text
  | boolean value => [if value then 1 else 0]

/-- `DataOutputStream.writeInt` and `writeShort`. -/
def writeInt (n : ℕ) : Bytes := shiftedOut [24, 16, 8, 0] n

def writeShort (n : ℕ) : Bytes := shiftedOut [8, 0] n

def encodeParam (param : JavaValue) : Bytes :=
    param.wireType :: (writeInt param.encodeValue.length ++ param.encodeValue)

def encodeExec (sql : String) (params : List JavaValue) : Except JavaExc Frame :=
  if 0xFFFF < params.length then .error (.runtime "encodeExec failed")
  else .ok ⟨0x11, 0, writeInt (utf8 sql).length ++
    (utf8 sql ++ (writeShort params.length ++ params.flatMap encodeParam))⟩

-- What `new String(_, UTF_8)` makes of malformed input.
variable (lossy : Bytes → String) {n : ℕ}

def newString (bs : Bytes) : String :=
  match ofUtf8 bs with
  | .ok text => text
  | .error _ => lossy bs

def byteAt (payload : Bytes) (off : ℤ) : Except JavaExc UInt8 :=
  match (if 0 ≤ off then payload[off.toNat]? else none) with
  | some byte => .ok byte
  | none => .error .indexOutOfBounds

/-- A range of an array, with the checks of `System.arraycopy` and of the constructor of `String`. -/
def range (payload : Bytes) (off len : ℤ) : Except JavaExc Bytes :=
  if 0 ≤ off ∧ 0 ≤ len ∧ off + len ≤ payload.length then .ok (slice payload off.toNat len.toNat)
  else .error .indexOutOfBounds

def hex (byte : UInt8) : String := String.ofList (((hexText 2 byte.toNat).toList.drop 2).map Char.toUpper)

def decodeColumns (payload : Bytes) : (left i : ℕ) → (off : ℤ) → Except JavaExc (List Column)
  | 0, _, _ => .ok []
  | left + 1, i, off => do
    if payload.length < int (off + 2) then throw (.illegalArgument ("RESULT_HEADER truncated at column " ++ toString i))
    let nameLen := (← byteAt payload off).toNat
    let off := int (off + 1)
    if payload.length < int (off + nameLen + 1) then
      throw (.illegalArgument ("RESULT_HEADER name overruns payload at column " ++ toString i))
    let name := newString lossy (← range payload off nameLen)
    let off := int (off + nameLen)
    let type ← byteAt payload off
    return ⟨name, type.toBitVec⟩ :: (← decodeColumns payload left (i + 1) (int (off + 1)))

def decodeResultHeader (frame : Frame) : Except JavaExc (List Column) := do
  if frame.payload.length < 2 then
    throw (.illegalArgument ("RESULT_HEADER payload too short: " ++ toString frame.payload.length))
  decodeColumns lossy frame.payload (shifted [← byteAt frame.payload 0, ← byteAt frame.payload 1]) 0 2

def decodeValue (type : UInt8) (data : Bytes) : Except JavaExc JavaValue :=
  match ParamType.ofCode type with
  | some .null => .ok .null
  | some .int64 =>
    if data.length < 8 then .error (.illegalArgument ("INT64 data too short: " ++ toString data.length))
    else .ok (.long (BitVec.ofNat 64 (shifted (data.take 8))))
  | some .float64 =>
    if data.length < 8 then .error (.illegalArgument ("FLOAT64 data too short: " ++ toString data.length))
    else .ok (.double (BitVec.ofNat 64 (shifted (data.take 8))))
  | some .string => .ok (.string (newString lossy data))
  | some .bool =>
    if data.length < 1 then .error (.illegalArgument ("BOOL data too short: " ++ toString data.length))
    else do return .boolean ((← byteAt data 0) ≠ 0)
  | none => .error (.illegalArgument ("unknown wire type: 0x" ++ hex type))

/-- One round of `decodeValues` up to `new byte[len]`: the type, where the data starts, and `len`. -/
def valueHead (payload : Bytes) (i : ℕ) (off : ℤ) : Except JavaExc (UInt8 × ℤ × ℤ) := do
  if payload.length < int (off + 5) then throw (.illegalArgument ("RESULT_ROW truncated at value " ++ toString i))
  let type ← byteAt payload off
  let off := int (off + 1)
  let len := int (shifted [← byteAt payload off, ← byteAt payload (int (off + 1)), ← byteAt payload (int (off + 2)),
    ← byteAt payload (int (off + 3))])
  let off := int (off + 4)
  if payload.length < int (off + len) then
    throw (.illegalArgument ("RESULT_ROW value data overruns payload at value " ++ toString i))
  return (type, off, len)

def decodeValues (payload : Bytes) : (left i : ℕ) → (off : ℤ) → Except JavaExc (List JavaValue)
  | 0, _, _ => .ok []
  | left + 1, i, off => do
    let (type, off, len) ← valueHead payload i off
    if len < 0 then throw .negativeArraySize
    let value ← decodeValue lossy type (← range payload off len)
    return value :: (← decodeValues payload left (i + 1) (int (off + len)))

def decodeResultRow (frame : Frame) : Except JavaExc (List JavaValue) := do
  if frame.payload.length < 2 then
    throw (.illegalArgument ("RESULT_ROW payload too short: " ++ toString frame.payload.length))
  decodeValues lossy frame.payload (shifted [← byteAt frame.payload 0, ← byteAt frame.payload 1]) 0 2

theorem shifted_eq (bs : Bytes) : shifted bs = unpackBE bs := by
  induction bs with
  | nil => rfl
  | cons byte rest ih =>
    have low : unpackBE rest < 2 ^ (8 * rest.length) := by
      have bound := unpackBE_lt rest
      rwa [Nat.pow_mul]
    rw [shifted, ih, unpackBE_cons, ← Nat.shiftLeft_add_eq_or_of_lt low, Nat.shiftLeft_eq, Nat.pow_mul]

theorem writeInt_eq (n : ℕ) : writeInt n = packBE 4 n := by
  simp [writeInt, shiftedOut, packBE, packLE, Nat.shiftRight_eq_div_pow, Nat.div_div_eq_div_mul]

theorem writeShort_eq (n : ℕ) : writeShort n = packBE 2 n := by
  simp [writeShort, shiftedOut, packBE, packLE, Nat.shiftRight_eq_div_pow]

theorem shiftedOut_long (n : ℕ) : shiftedOut [56, 48, 40, 32, 24, 16, 8, 0] n = packBE 8 n := by
  simp [shiftedOut, packBE, packLE, Nat.shiftRight_eq_div_pow, Nat.div_div_eq_div_mul]

theorem int_eq (small : n < 2 ^ 31) : int n = n := by
  rw [int, Int.bmod_eq_of_le] <;> omega

theorem int_add {k : ℕ} (small : n + k < 2 ^ 31) : int ((n : ℤ) + (k : ℤ)) = ((n + k : ℕ) : ℤ) := by
  rw [← Int.natCast_add, int_eq small]

variable {X : Type} [Wire X] {len off left : ℕ} {payload : Bytes} {byte code : UInt8}

theorem byteAt_eq (found : payload[off]? = some byte) : byteAt payload off = .ok byte := by
  rw [byteAt, if_pos (Int.natCast_nonneg off), Int.toNat_natCast, found]

theorem byteAt_behind (pre : Bytes) {later : Bytes} (k : ℕ) (found : later[k]? = some byte) :
    byteAt (pre ++ later) (pre.length + k : ℕ) = .ok byte := by
  refine byteAt_eq ?_
  rwa [getElem?_append_right (Nat.le_add_right ..), Nat.add_sub_cancel_left]

theorem range_eq (inside : off + len ≤ payload.length) : range payload off len = .ok (slice payload off len) := by
  rw [range, if_pos ⟨Int.natCast_nonneg off, Int.natCast_nonneg len, by exact_mod_cast inside⟩,
    Int.toNat_natCast, Int.toNat_natCast]

theorem newString_utf8 (lossy : Bytes → String) (text : String) : newString lossy (utf8 text) = text := by
  rw [newString, ofUtf8_utf8]

def toJava : Param X → JavaValue
  | .null => .null
  | .int64 i => .long (BitVec.ofInt 64 i)
  | .float64 x => .double (BitVec.ofNat 64 (unpackBE (Wire.double x).val))
  | .string s => .string s
  | .bool b => .boolean b

theorem unpackBE_int64Bytes (i : ℤ) : unpackBE (int64Bytes i) = (i % 2 ^ 64).toNat := by
  have bound : (i % 2 ^ 64).toNat < 256 ^ 8 := by omega
  rw [int64Bytes, ← packBE, unpackBE_packBE bound]

theorem ofNat_int64Bytes (i : ℤ) : BitVec.ofNat 64 (unpackBE (int64Bytes i)) = BitVec.ofInt 64 i := by
  rw [unpackBE_int64Bytes]
  apply BitVec.eq_of_toNat_eq
  rw [BitVec.toNat_ofNat, BitVec.toNat_ofInt]
  have : (i % 2 ^ 64).toNat < 2 ^ 64 := by omega
  rw [Nat.mod_eq_of_lt this]
  rfl

theorem decodeValue_data (lossy : Bytes → String) (param : Param X) :
    decodeValue lossy param.type.code param.data = .ok (toJava param) := by
  rw [decodeValue, ParamType.ofCode_code]
  cases param with
  | null => rfl
  | int64 i =>
    simp only [Param.type, Param.data, length_int64Bytes, lt_irrefl, if_false]
    rw [take_of_length_le (length_int64Bytes i).le, shifted_eq, ofNat_int64Bytes]
    rfl
  | float64 x =>
    simp only [Param.type, Param.data, (Wire.double x).property, lt_irrefl, if_false]
    rw [take_of_length_le (Wire.double x).property.le, shifted_eq]
    rfl
  | string s =>
    simp only [Param.type, Param.data, newString_utf8]
    rfl
  | bool b => cases b <;> rfl

theorem four_bytes (fits : n < 256 ^ 4) : ∃ a b c d, packBE 4 n = [a, b, c, d] ∧ shifted [a, b, c, d] = n := by
  obtain ⟨a, b, c, d, four⟩ : ∃ a b c d, packBE 4 n = [a, b, c, d] := ⟨_, _, _, _, rfl⟩
  exact ⟨a, b, c, d, four, by rw [shifted_eq, ← four, unpackBE_packBE fits]⟩

theorem valueHead_eq (i : ℕ) {a b c d : UInt8} {rest : Bytes} (array : payload.length < 2 ^ 31)
    (layout : payload.drop off = code :: a :: b :: c :: d :: rest) : valueHead payload i off =
      if payload.length < int ((off + 5 : ℕ) + int (shifted [a, b, c, d])) then
        .error (.illegalArgument ("RESULT_ROW value data overruns payload at value " ++ toString i))
      else .ok (code, (off + 5 : ℕ), int (shifted [a, b, c, d])) := by
  have size := congrArg List.length layout
  rw [length_drop, length_cons, length_cons, length_cons, length_cons, length_cons] at size
  have bytes : ∀ k byte, (code :: a :: b :: c :: d :: rest)[k]? = some byte → byteAt payload (off + k : ℕ) = .ok byte :=
    fun k byte found => byteAt_eq (by rw [← getElem?_drop, layout, found])
  have type : byteAt payload off = .ok code := bytes 0 code rfl
  have header : ¬ (payload.length : ℤ) < (off + 5 : ℕ) := by omega
  have inside : ∀ k ≤ 4, off + 1 + k < 2 ^ 31 := by omega
  have at5 : int ((off : ℤ) + 5) = (off + 5 : ℕ) := int_add (k := 5) (inside 4 le_rfl)
  have at1 : int ((off : ℤ) + 1) = (off + 1 : ℕ) := int_add (k := 1) (inside 0 (by decide))
  have at2 : int (((off + 1 : ℕ) : ℤ) + 1) = (off + 2 : ℕ) := int_add (k := 1) (inside 1 (by decide))
  have at3 : int (((off + 1 : ℕ) : ℤ) + 2) = (off + 3 : ℕ) := int_add (k := 2) (inside 2 (by decide))
  have at4 : int (((off + 1 : ℕ) : ℤ) + 3) = (off + 4 : ℕ) := int_add (k := 3) (inside 3 (by decide))
  have data : int (((off + 1 : ℕ) : ℤ) + 4) = (off + 5 : ℕ) := int_add (k := 4) (inside 4 le_rfl)
  rw [valueHead]
  simp only [at5, if_neg header, type, at1, bytes 1 a rfl, at2, bytes 2 b rfl, at3, bytes 3 c rfl, at4, bytes 4 d rfl,
    data, ok_bind]
  split_ifs <;> rfl

theorem decodeValues_packed (lossy : Bytes → String) (params : List (Param X)) (i : ℕ) (pre : Bytes)
    (array : (pre ++ params.flatMap Param.packed).length < 2 ^ 31) :
    decodeValues lossy (pre ++ params.flatMap Param.packed) params.length i pre.length = .ok (params.map toJava) := by
  induction params generalizing pre i with
  | nil => rfl
  | cons param params ih =>
    rw [flatMap_cons] at array ⊢
    have others := ih (i + 1) (pre ++ param.packed)
    generalize params.flatMap Param.packed = rest at others array ⊢
    rw [append_assoc] at others
    replace others := others array
    rw [length_append, length_packed, ← Nat.add_assoc] at others
    have size := @packed_size _ _ param pre rest
    obtain ⟨a, b, c, d, four, length⟩ := @four_bytes param.data.length (by omega)
    have layout : (pre ++ (param.packed ++ rest)).drop pre.length = param.type.code :: a :: b ::
      c :: d :: (param.data ++ rest) := by
      rw [drop_left, Param.packed, four]
      simp
    have small : int (param.data.length : ℤ) = param.data.length := int_eq (by omega)
    have next : int ((pre.length + 5 : ℕ) + (param.data.length : ℤ)) = (pre.length + 5 + param.data.length : ℕ) :=
      int_add (by omega)
    have body : ¬ ((pre ++ (param.packed ++ rest)).length : ℤ) < (pre.length + 5 + param.data.length : ℕ) := by omega
    have positive : ¬ (param.data.length : ℤ) < 0 := by omega
    rw [length_cons, decodeValues, valueHead_eq i array layout, length, small, next, if_neg body]
    simp only [ok_bind, if_neg positive, range_eq size, packed_data, decodeValue_data, next, others]
    rfl

/-- The count of two bytes at the front of a payload. -/
theorem counted_eq {α : Type} (fits : n ≤ 65535) {rest : Bytes} (short : JavaExc) (body : ℕ → Except JavaExc α) :
    (do if (packBE 2 n ++ rest).length < 2 then throw short
        body (shifted [← byteAt (packBE 2 n ++ rest) 0, ← byteAt (packBE 2 n ++ rest) 1])) = body n := by
  obtain ⟨a, b, two⟩ : ∃ a b, packBE 2 n = [a, b] := ⟨_, _, rfl⟩
  have count : shifted [a, b] = n := by rw [shifted_eq, ← two, unpackBE_packBE (Nat.lt_succ_of_le fits)]
  have first : byteAt (packBE 2 n ++ rest) 0 = .ok a := by
    rw [two]
    exact byteAt_behind [] 0 rfl
  have second : byteAt (packBE 2 n ++ rest) 1 = .ok b := by
    rw [two]
    exact byteAt_behind [] 1 rfl
  have long : ¬ (packBE 2 n ++ rest).length < 2 := by
    rw [length_append, packBE_length]
    exact Nat.not_lt.mpr (Nat.le_add_right _ _)
  rw [if_neg long, first, ok_bind, second, ok_bind, count]

theorem decodeColumns_step (lossy : Bytes → String) (i : ℕ) {length : UInt8} {name : String}
    {rest : List Column} (array : payload.length < 2 ^ 31) (size : off + 1 + len + 1 ≤ payload.length)
    (first : byteAt payload off = .ok length) (count : length.toNat = len)
    (text : slice payload (off + 1) len = utf8 name)
    (type : byteAt payload (off + 1 + len : ℕ) = .ok code)
    (others : decodeColumns lossy payload left (i + 1) (off + 1 + len + 1 : ℕ) = .ok rest) :
    decodeColumns lossy payload (left + 1) i off = .ok (⟨name, code.toBitVec⟩ :: rest) := by
  have header : ¬ (payload.length : ℤ) < (off + 2 : ℕ) := by omega
  have body : ¬ (payload.length : ℤ) < (off + 1 + len + 1 : ℕ) := by omega
  have small : off + 1 + len + 1 < 2 ^ 31 := by omega
  have inside : off + 1 + len ≤ payload.length := by omega
  have at2 : int ((off : ℤ) + 2) = (off + 2 : ℕ) := int_add (k := 2) (by omega)
  have at1 : int ((off : ℤ) + 1) = (off + 1 : ℕ) := int_add (k := 1) (by omega)
  have name_end : int (((off + 1 : ℕ) : ℤ) + (len : ℤ)) = (off + 1 + len : ℕ) := int_add (by omega)
  have next : int (((off + 1 + len : ℕ) : ℤ) + 1) = (off + 1 + len + 1 : ℕ) := int_add (k := 1) small
  have column_end : int (((off + 1 : ℕ) : ℤ) + (len : ℤ) + 1) = (off + 1 + len + 1 : ℕ) := by
    rw [← Int.natCast_add]
    exact next
  rw [decodeColumns]
  simp only [at2, if_neg header, first, count, at1, column_end, if_neg body, range_eq inside,
    text, newString_utf8, name_end, type, next, others, ok_bind]
  rfl

theorem decodeColumns_packed (lossy : Bytes → String) (columns : List (String × UInt8))
    (short : ∀ column ∈ columns, (utf8 column.1).length ≤ 255) (i : ℕ) (pre : Bytes)
    (array : (pre ++ columns.flatMap packedColumn).length < 2 ^ 31) :
    decodeColumns lossy (pre ++ columns.flatMap packedColumn) columns.length i pre.length =
      .ok (columns.map fun column => ⟨column.1, column.2.toBitVec⟩) := by
  induction columns generalizing pre i with
  | nil => rfl
  | cons column columns ih =>
    obtain ⟨here, later⟩ := forall_mem_cons.mp short
    rw [flatMap_cons] at array ⊢
    have others := ih later (i + 1) (pre ++ packedColumn column)
    generalize columns.flatMap packedColumn = rest at others array ⊢
    obtain ⟨name, code⟩ := column
    rw [append_assoc] at others
    replace others := others array
    rw [column_next] at others
    have length : byteAt (pre ++ (packedColumn (name, code) ++ rest)) pre.length =
      .ok (UInt8.ofNat (utf8 name).length) :=
      byteAt_behind pre 0 rfl
    exact decodeColumns_step lossy i array (column_size pre rest name code) length (nameLength_toNat here)
      (column_name ..) (byteAt_eq (column_type ..)) others

variable [Runtime X]

/-- A Java object and a Python object stand for the same value; floats have the same bits. -/
def Same : JavaValue → Value X → Prop
  | .null, .none => True
  | .long value, .int i => value.toInt = i
  | .double bits, .foreign x => Runtime.kind x = .float ∧ packBE 8 bits.toNat = (Wire.double x).val
  | .string text, .str s => text = s
  | .boolean value, .bool b => value = b
  | _, _ => False

/-- Floats are their eight bytes. -/
structure FloatBits (X : Type) [Runtime X] [Wire X] : Prop where
  floats : ExactFloats X
  bits : ∀ bs : Bytes, bs.length = 8 → Runtime.kind (Wire.ofDouble bs : X) = .float ∧
  (Wire.double (Wire.ofDouble bs : X)).val = bs

theorem same_toJava {param : Param X} (sendable : Sendable param.toValue) : Same (toJava param) param.toValue := by
  cases param with
  | null => trivial
  | int64 i =>
    obtain ⟨low, high⟩ : Int64 i := sendable
    show (BitVec.ofInt 64 i).toInt = i
    rw [BitVec.toInt_ofInt, Int.bmod_eq_of_le] <;> omega
  | float64 x =>
    refine ⟨sendable, ?_⟩
    have bound : unpackBE (Wire.double x).val < 2 ^ 64 :=
      lt_of_lt_of_eq (unpackBE_lt _) (by rw [(Wire.double x).property]; decide)
    rw [BitVec.toNat_ofNat, Nat.mod_eq_of_lt bound, packBE_unpackBE (Wire.double x).property]
  | string | bool => rfl

section Requests

variable (law : FloatBits X)

def toPython : JavaValue → Param X
  | .null => .null
  | .long value => .int64 value.toInt
  | .double bits => .float64 (Wire.ofDouble (packBE 8 bits.toNat))
  | .string text => .string text
  | .boolean value => .bool value

theorem int64_toInt (value : BitVec 64) : Int64 value.toInt := ⟨value.le_toInt, value.toInt_lt⟩

theorem int64Bytes_toInt (value : BitVec 64) : int64Bytes value.toInt = packBE 8 value.toNat := by
  have pattern : (value.toInt % 2 ^ 64).toNat = value.toNat := by
    have same : value.toInt % (2 ^ 64 : ℕ) = value.toNat % (2 ^ 64 : ℕ) :=
      by rw [BitVec.toInt_eq_toNat_bmod, Int.bmod_emod]
    have low := value.isLt
    omega
  rw [int64Bytes, pattern, packBE]

include law

theorem double_bits (bits : BitVec 64) :
    (Wire.double (Wire.ofDouble (packBE 8 bits.toNat) : X)).val = packBE 8 bits.toNat :=
  (law.bits _ (packBE_length ..)).2

theorem encodeValue_eq (value : JavaValue) : value.encodeValue = (toPython value : Param X).data := by
  cases value with
  | long value => rw [JavaValue.encodeValue, shiftedOut_long, toPython, Param.data, int64Bytes_toInt]
  | double bits => rw [JavaValue.encodeValue, shiftedOut_long, toPython, Param.data, double_bits law]
  | null | string | boolean => rfl

theorem encodeParam_eq (value : JavaValue) : encodeParam value = (toPython value : Param X).packed := by
  have type : value.wireType = (toPython value : Param X).type.code := by cases value <;> rfl
  rw [encodeParam, type, encodeValue_eq law, writeInt_eq, Param.packed]

theorem toPython_holds (value : JavaValue) : (toPython value : Param X).Holds := by
  cases value with
  | long value => exact int64_toInt value
  | double bits =>
    show Wire.ofDouble (Wire.double _).val = _
    rw [double_bits law]
  | null | string | boolean => trivial

theorem same_toPython (value : JavaValue) : Same value (toPython value : Param X).toValue := by
  cases value with
  | double bits => exact ⟨(law.bits _ (packBE_length ..)).1, (double_bits law bits).symm⟩
  | long | string | boolean => rfl
  | null => trivial

end Requests

variable [Lexicon X] {sql : String} {params : List JavaValue}

theorem encodeExec_eq (law : FloatBits X) (few : params.length ≤ 0xFFFF) :
    encodeExec sql params =
      .ok (.of .exec (Message.exec sql (params.map (toPython : JavaValue → Param X))).payload) := by
  have packed : (params.map (toPython : JavaValue → Param X)).flatMap Param.packed = params.flatMap encodeParam := by
    rw [flatMap_map]
    exact flatMap_congr fun value _ => (encodeParam_eq law value).symm
  rw [encodeExec, if_neg (Nat.not_lt.mpr few), Message.payload, packed, length_map, writeInt_eq, writeShort_eq]
  rfl

theorem exec_agrees (law : FloatBits X) (short : (utf8 sql).length ≤ MAX_SQL_LEN)
    (few : params.length ≤ MAX_PARAMS) {frame : Frame} (encoded : encodeExec sql params = .ok frame)
    (array : frame.payload.length < 2 ^ 31) : ∃ decoded : List (Param X), decodeMessage frame =
    .ok (.exec sql decoded) ∧
      Forall₂ (fun value param => Same value param.toValue) params decoded := by
  rw [encodeExec_eq law (few.trans (by decide))] at encoded
  cases encoded
  rw [Frame.of, Message.payload, length_append, length_append, length_append] at array
  have holds : ∀ param ∈ params.map (toPython : JavaValue → Param X), param.Holds ∧ param.data.length < 256 ^ 4 := by
    intro param member
    refine ⟨?_, data_length_lt member (by omega)⟩
    obtain ⟨value, -, rfl⟩ := mem_map.mp member
    exact toPython_holds law value
  refine ⟨params.map toPython, ?_, ?_⟩
  · rw [decodeMessage, Frame.of, MessageType.ofCode_code]
    exact unpackExec_payload short (by rwa [length_map]) holds
  · rw [forall₂_map_right_iff]
    exact forall₂_same.mpr fun value _ => same_toPython law value

theorem row_agrees (law : FloatBits X) (lossy : Bytes → String) {values : List (Value X)}
    (sendable : ∀ value ∈ values, Sendable value)
    (few : values.length ≤ 65535) (array : (Message.resultRow values).payload.length < 2 ^ 31) :
    ∃ frame decoded, toFrame (.resultRow values) = .ok frame ∧ decodeResultRow lossy frame = .ok decoded ∧
      Forall₂ Same decoded values := by
  have sent : toFrame (.resultRow values) = .ok (.of .resultRow (Message.resultRow values).payload) :=
    toFrame_eq law.floats sendable few (by omega)
  refine ⟨_, (values.map toParam).map toJava, sent, ?_, ?_⟩
  · have back := decodeValues_packed lossy (values.map toParam) 0 (packBE 2 values.length) array
    rw [length_map, packBE_length] at back
    rw [decodeResultRow]
    exact (counted_eq few _ fun left => decodeValues lossy _ left 0 2).trans back
  · rw [map_map, forall₂_map_left_iff]
    refine forall₂_same.mpr fun value member => ?_
    have same := toValue_toParam (sendable value member)
    have agrees : Same (toJava (toParam value)) (toParam value).toValue :=
      same_toJava (by rw [same]; exact sendable value member)
    rwa [same] at agrees

theorem header_agrees (law : FloatBits X) (lossy : Bytes → String) {columns : List (String × UInt8)}
    (short : ∀ column ∈ columns, (utf8 column.1).length ≤ 255) (few : columns.length ≤ 65535)
    (array : (Message.resultHeader columns : Message X).payload.length < 2 ^ 31) :
    ∃ frame, toFrame (.resultHeader columns : Message X) = .ok frame ∧
      decodeResultHeader lossy frame = .ok (columns.map fun column => ⟨column.1, column.2.toBitVec⟩) := by
  have sent : toFrame (.resultHeader columns : Message X) =
    .ok (.of .resultHeader (Message.resultHeader columns : Message X).payload) :=
    toFrame_eq law.floats short few (by omega)
  refine ⟨_, sent, ?_⟩
  have back := decodeColumns_packed lossy columns short 0 (packBE 2 columns.length) array
  rw [packBE_length] at back
  rw [decodeResultHeader]
  exact (counted_eq few _ fun left => decodeColumns lossy _ left 0 2).trans back

/-- Requests of the driver are read by the server as they were meant, and rows and columns of the server by the driver,
as far as the server takes the SQL text, the counts have two bytes and the payload is an array that Java can have.
The type code of a column is the byte with the same bits. -/
theorem codecs_agree (law : FloatBits X) (lossy : Bytes → String) :
    (∀ (sql : String) (params : List JavaValue), (utf8 sql).length ≤ MAX_SQL_LEN → params.length ≤ 1024 →
      ∃ frame, encodeExec sql params = .ok frame ∧ (frame.payload.length < 2 ^ 31 →
        ∃ decoded : List (Param X), decodeMessage frame = .ok (.exec sql decoded) ∧
          Forall₂ (fun value param => Same value param.toValue) params decoded)) ∧
    (∀ values : List (Value X), (∀ value ∈ values, Sendable value) → values.length ≤ 65535 →
      (Message.resultRow values).payload.length < 2 ^ 31 →
      ∃ frame decoded, toFrame (.resultRow values) = .ok frame ∧ decodeResultRow lossy frame = .ok decoded ∧
        Forall₂ Same decoded values) ∧
    (∀ columns : List (String × UInt8), (∀ column ∈ columns, (utf8 column.1).length ≤ 255) → columns.length ≤ 65535 →
      (Message.resultHeader columns : Message X).payload.length < 2 ^ 31 →
      ∃ frame decoded, toFrame (.resultHeader columns : Message X) = .ok frame ∧
      decodeResultHeader lossy frame = .ok decoded ∧
        decoded.map (fun column => (column.name, column.type.toNat)) = columns.map fun column =>
        (column.1, column.2.toNat)) := by
  refine ⟨fun sql params short few => ?_, fun values sendable few array => row_agrees law lossy sendable few array,
    fun columns short few array => ?_⟩
  · exact ⟨_, encodeExec_eq law (few.trans (by decide)),
      exec_agrees law short few (encodeExec_eq law (few.trans (by decide)))⟩
  · obtain ⟨frame, sent, decoded⟩ := header_agrees law lossy short few array
    refine ⟨frame, _, sent, decoded, ?_⟩
    rw [map_map]
    rfl

theorem floatBits_bits : FloatBits UInt64 where
  floats := exactFloats_bits
  bits bs size := by
    refine ⟨rfl, ?_⟩
    have bound : unpackBE bs < 2 ^ 64 := lt_of_lt_of_eq (unpackBE_lt bs) (by rw [size]; decide)
    show packBE 8 (UInt64.ofNat (unpackBE bs)).toNat = bs
    rw [UInt64.toNat_ofNat', Nat.mod_eq_of_lt bound, packBE_unpackBE size]

theorem codecs_agree_row :
    ∃ frame decoded, toFrame (.resultRow [.none, .int (-1), .str "é"] : Message UInt64) = .ok frame ∧
    decodeResultRow (fun _ => "") frame = .ok decoded ∧ Forall₂ Same decoded
    ([.none, .int (-1), .str "é"] : List (Value UInt64)) := by
  refine (codecs_agree floatBits_bits fun _ => "").2.1 _ (fun value member => ?_) (by decide) (by decide +kernel)
  simp only [mem_cons, not_mem_nil, or_false] at member
  obtain rfl | rfl | rfl := member
  · trivial
  · exact (by decide : Int64 (-1))
  · trivial

theorem unpackExec_long (long : MAX_SQL_LEN < n) (fits : n < 256 ^ 4) (rest : Bytes) (message : Message UInt64) :
    unpackExec (packBE 4 n ++ rest) ≠ .ok message := by
  have length : slice (packBE 4 n ++ rest) 0 4 = packBE 4 n := slice_front (packBE_length ..)
  rw [unpackExec, require_ok (by simp), ok_bind, length, unpackUnsigned_packBE fits, ok_bind, if_pos long]
  intro same
  cases same

/-- The driver sends SQL texts that the server refuses to read. -/
theorem long_sql_not_read : ¬ ∀ (X : Type) (_ : Runtime X) (_ : Wire X), FloatBits X →
    ∀ (sql : String) (params : List JavaValue),
    params.length ≤ 1024 → ∃ frame, encodeExec sql params = .ok frame ∧
      ∃ decoded : List (Param X), decodeMessage frame = .ok (.exec sql decoded) := by
  intro always
  obtain ⟨n, long, fits⟩ : ∃ n, MAX_SQL_LEN < n ∧ n < 256 ^ 4 := ⟨MAX_SQL_LEN + 1, by decide⟩
  have size : (utf8 (String.ofList (replicate n 'a'))).length = n := by
    rw [utf8_ascii, length_map, String.toList_ofList, length_replicate]
    rw [String.toList_ofList, all_replicate]
    simp [isAscii]
  obtain ⟨frame, encoded, decoded, read⟩ :=
    always UInt64 _ _ floatBits_bits (String.ofList (replicate n 'a')) [] (by decide)
  cases encoded
  rw [size, writeInt_eq] at read
  exact unpackExec_long long fits _ _ read

end Tinydb.Jdbc
