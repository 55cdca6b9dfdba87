import Tinydb.Protocol.Codec
import Tinydb.Protocol.Decoding
import Tinydb.Types.RoundTrip

/-! Messages go over the wire unchanged.

Every part of a payload is read back in front of whatever follows it, so lists of typed values
and of columns come back element by element. The counts of columns and values have two
bytes and a timestamp has no sign; within those limits nothing is lost.
-/

namespace Tinydb.Protocol

open Lib Tinydb.Types Sql List Runtime

variable {width n : ℕ} {i : ℤ} {s : String}

theorem packUnsigned_eq (fits : n < 256 ^ width) : packUnsigned width n = .ok (packBE width n) := by
  have bound : (n : ℤ) < 256 ^ width := by exact_mod_cast fits
  rw [packUnsigned, if_pos ⟨Int.natCast_nonneg n, bound⟩, Int.toNat_natCast]

theorem unpackUnsigned_packBE (fits : n < 256 ^ width) : unpackUnsigned width (packBE width n) = .ok n := by
  rw [unpackUnsigned, unpackExact, if_pos (packBE_length ..), unpackBE_packBE fits]

def Int64 (i : ℤ) : Prop := -2 ^ 63 ≤ i ∧ i < 2 ^ 63

instance (i : ℤ) : Decidable (Int64 i) := inferInstanceAs (Decidable (_ ∧ _))

/-- The bytes of `>q`. -/
def int64Bytes (i : ℤ) : Bytes := (packLE 8 (i % 2 ^ 64).toNat).reverse

theorem length_int64Bytes (i : ℤ) : (int64Bytes i).length = 8 := by rw [int64Bytes, length_reverse, packLE_length]

theorem packSigned_int64 (fits : Int64 i) : packSigned 8 i = .ok (packLE 8 (i % 2 ^ 64).toNat) := if_pos fits

theorem packInt64_eq (fits : Int64 i) : packInt64 i = .ok (int64Bytes i) := by
  rw [packInt64, packSigned_int64 fits]
  rfl

theorem unpackInt64_int64Bytes (fits : Int64 i) : unpackInt64 (int64Bytes i) = .ok i := by
  rw [unpackInt64, unpackExact, if_pos (length_int64Bytes i), int64Bytes, reverse_reverse]
  exact congrArg _ (unpackSigned_of_packSigned (by decide) (packSigned_int64 fits))

theorem utf8_eq_flatMap (s : String) : utf8 s = s.toList.flatMap String.utf8EncodeChar := by
  have bytes : s.toByteArray = s.toList.utf8Encode := by
    rw [← String.toByteArray_ofList, String.ofList_toList]
  rw [utf8, ByteArray.toList, byteArray_toList_loop, String.toUTF8_eq_toByteArray, bytes]
  simp [List.utf8Encode]

theorem utf8_ascii (ascii : s.toList.all isAscii = true) : utf8 s = s.toList.map fun c => UInt8.ofNat c.toNat := by
  rw [utf8_eq_flatMap, map_eq_flatMap]
  refine flatMap_congr fun c member => ?_
  have small : c.toNat < 128 := of_decide_eq_true (all_eq_true.mp ascii c member)
  rw [String.utf8EncodeChar]
  exact if_pos (Nat.le_of_lt_succ small)

theorem ofAscii_utf8 (ascii : s.toList.all isAscii = true) : ofAscii (utf8 s) = .ok s := by
  have small : (utf8 s).all (· < 128) = true := by
    rw [utf8_ascii ascii, all_map, all_eq_true]
    intro c member
    have bound : c.toNat < 128 := of_decide_eq_true (all_eq_true.mp ascii c member)
    simp only [Function.comp, decide_eq_true_eq, UInt8.lt_iff_toNat_lt, UInt8.toNat_ofNat']
    exact lt_of_le_of_lt (Nat.mod_le ..) bound
  rw [ofAscii, if_pos small, ofUtf8_utf8]

theorem byteAt_part (pre : Bytes) (byte : UInt8) (post : Bytes) :
    byteAt (pre ++ byte :: post) pre.length = .ok byte := by
  simp [byteAt]

theorem require_ok {payload : Bytes} {need : ℕ} (enough : need ≤ payload.length) (what : String) :
    require payload need what = .ok () :=
  if_neg (Nat.not_lt.mpr enough)

variable {X : Type} [Wire X] {param : Param X} (pre rest : Bytes) {params : List (Param X)}

def Param.type : Param X → ParamType
  | .null => .null
  | .int64 _ => .int64
  | .float64 _ => .float64
  | .string _ => .string
  | .bool _ => .bool

def Param.data : Param X → Bytes
  | .null => []
  | .int64 i => int64Bytes i
  | .float64 x => (Wire.double x).val
  | .string s => utf8 s
  | .bool b => [if b then 1 else 0]

def Param.packed (param : Param X) : Bytes := param.type.code :: (packBE 4 param.data.length ++ param.data)

/-- Integers have 64 bits, and the eight bytes of a float say which float it is. -/
def Param.Holds : Param X → Prop
  | .int64 i => Int64 i
  | .float64 x => Wire.ofDouble (Wire.double x).val = x
  | _ => True

theorem packParam_eq (holds : param.Holds) (short : param.data.length < 256 ^ 4) :
    packParam param = .ok param.packed := by
  have typed : packTyped param.type param.data = .ok param.packed := by
    rw [packTyped, packUnsigned_eq short]
    rfl
  cases param with
  | int64 i =>
    rw [packParam, packInt64_eq holds, ok_bind]
    exact typed
  | null | float64 | string | bool =>
    rw [packParam]
    exact typed

theorem unpackData_data (format : TypedFormat) (holds : param.Holds) :
    unpackData format param.type param.data = .ok param := by
  unfold unpackData
  cases param with
  | null => simp [Param.type, Param.data]
  | int64 i =>
    simp only [Param.type, Param.data, length_int64Bytes, ne_eq, not_true_eq_false, if_false,
      unpackInt64_int64Bytes holds]
    rfl
  | float64 x =>
    have exact_bits : Wire.ofDouble (Wire.double x).val = x := holds
    simp only [Param.type, Param.data, (Wire.double x).property, ne_eq, not_true_eq_false,
      if_false, unpackExact, if_true, exact_bits]
    rfl
  | string s =>
    simp only [Param.type, Param.data, ofUtf8_utf8]
    rfl
  | bool b => cases b <;> rfl

theorem length_packed (param : Param X) : param.packed.length = 5 + param.data.length := by
  simp [Param.packed]
  omega

theorem packed_data : slice (pre ++ (param.packed ++ rest)) (pre.length + 5) param.data.length = param.data := by
  have shape : pre ++ (param.packed ++ rest) =
      (pre ++ param.type.code :: packBE 4 param.data.length) ++ (param.data ++ rest) := by simp [Param.packed]
  rw [shape]
  exact slice_part (by simp) rfl

theorem packed_size : pre.length + 5 + param.data.length ≤ (pre ++ (param.packed ++ rest)).length := by
  simp only [length_append, length_packed]
  omega

theorem unpackTyped_packed (format : TypedFormat) (params : List (Param X))
    (holds : ∀ param ∈ params, param.Holds ∧ param.data.length < 256 ^ 4) (pre : Bytes) :
    unpackTyped format (pre ++ params.flatMap Param.packed) params.length pre.length = .ok params := by
  induction params generalizing pre with
  | nil => rfl
  | cons param params ih =>
    obtain ⟨⟨here, short⟩, later⟩ := forall_mem_cons.mp holds
    have others := ih later (pre ++ param.packed)
    rw [flatMap_cons]
    generalize params.flatMap Param.packed = rest at others ⊢
    have code : byteAt (pre ++ (param.packed ++ rest)) pre.length = .ok param.type.code := byteAt_part pre _ _
    have length : slice (pre ++ (param.packed ++ rest)) (pre.length + 1) 4 = packBE 4 param.data.length := by
      have shape : pre ++ (param.packed ++ rest) =
          (pre ++ [param.type.code]) ++ (packBE 4 param.data.length ++ (param.data ++ rest)) := by simp [Param.packed]
      rw [shape]
      exact slice_part (by simp) (packBE_length ..)
    have size := @packed_size _ _ param pre rest
    rw [length_append, length_packed, ← Nat.add_assoc, append_assoc] at others
    rw [length_cons, unpackTyped, require_ok (by omega), code]
    simp only [ok_bind, ParamType.ofCode_code]
    rw [length, unpackUnsigned_packBE short, ok_bind, require_ok size, ok_bind, packed_data,
      unpackData_data format here, ok_bind, others]
    rfl

theorem mapM_packParam (holds : ∀ param ∈ params, param.Holds ∧ param.data.length < 256 ^ 4) :
    params.mapM packParam = .ok (params.map Param.packed) :=
  mapM_eq_ok fun param member => packParam_eq (holds param member).1 (holds param member).2

theorem data_length_lt (member : param ∈ params)
    (size : (params.flatMap Param.packed).length < 256 ^ 4) : param.data.length < 256 ^ 4 := by
  obtain ⟨early, late, rfl⟩ := append_of_mem member
  rw [flatMap_append, flatMap_cons, length_append, length_append, length_packed] at size
  omega

def Sendable [Runtime X] : Value X → Prop
  | .none | .bool _ | .str _ => True
  | .int i => Int64 i
  | .foreign x => kind x = .float
  | _ => False

variable [Runtime X] (name : String) (code : UInt8)

def ExactFloats (X : Type) [Runtime X] [Wire X] : Prop :=
  ∀ x : X, kind x = .float → Wire.ofDouble (Wire.double x).val = x

theorem holds_of_sendable (exact_floats : ExactFloats X) (sendable : Sendable param.toValue) : param.Holds := by
  cases param with
  | null | string | bool => trivial
  | int64 i => exact sendable
  | float64 x => exact exact_floats x sendable

theorem sendable_params (exact_floats : ExactFloats X)
    (sendable : ∀ param ∈ params, Sendable param.toValue)
    (size : (params.flatMap Param.packed).length < 256 ^ 4) :
    ∀ param ∈ params, param.Holds ∧ param.data.length < 256 ^ 4 :=
  fun param member => ⟨holds_of_sendable exact_floats (sendable param member), data_length_lt member size⟩

def packedColumn (column : String × UInt8) : Bytes :=
    UInt8.ofNat (utf8 column.1).length :: (utf8 column.1 ++ [column.2])

theorem packColumn_eq {column : String × UInt8} (short : (utf8 column.1).length ≤ 255) :
    packColumn column = .ok (packedColumn column) := by
  rw [packColumn, packByte, if_pos (Nat.lt_succ_of_le short)]
  simp [packedColumn]

theorem column_name :
    slice (pre ++ (packedColumn (name, code) ++ rest)) (pre.length + 1) (utf8 name).length = utf8 name := by
  have shape : pre ++ (packedColumn (name, code) ++ rest) =
      (pre ++ [UInt8.ofNat (utf8 name).length]) ++ (utf8 name ++ (code :: rest)) := by simp [packedColumn]
  rw [shape]
  exact slice_part (by simp) rfl

theorem column_type :
    (pre ++ (packedColumn (name, code) ++ rest))[pre.length + 1 + (utf8 name).length]? = some code := by
  rw [Nat.add_assoc, getElem?_append_right (Nat.le_add_right ..), Nat.add_sub_cancel_left]
  simp [packedColumn, Nat.add_comm 1]

theorem column_next : (pre ++ packedColumn (name, code)).length = pre.length + 1 + (utf8 name).length + 1 := by
  simp [packedColumn]
  omega

theorem column_size :
    pre.length + 1 + (utf8 name).length + 1 ≤ (pre ++ (packedColumn (name, code) ++ rest)).length := by
  rw [← append_assoc, length_append, column_next]
  exact Nat.le_add_right ..

theorem nameLength_toNat {name : String} (short : (utf8 name).length ≤ 255) :
    (UInt8.ofNat (utf8 name).length).toNat = (utf8 name).length := by
  rw [UInt8.toNat_ofNat']
  omega

theorem unpackColumns_packed (columns : List (String × UInt8))
    (short : ∀ column ∈ columns, (utf8 column.1).length ≤ 255)
    (pre : Bytes) : unpackColumns (pre ++ columns.flatMap packedColumn) columns.length pre.length = .ok columns := by
  induction columns generalizing pre with
  | nil => rfl
  | cons column columns ih =>
    obtain ⟨here, later⟩ := forall_mem_cons.mp short
    have others := ih later (pre ++ packedColumn column)
    rw [flatMap_cons]
    generalize columns.flatMap packedColumn = rest at others ⊢
    obtain ⟨name, typeCode⟩ := column
    have length : byteAt (pre ++ (packedColumn (name, typeCode) ++ rest)) pre.length =
      .ok (UInt8.ofNat (utf8 name).length) :=
      byteAt_part pre _ _
    have code : byteAt (pre ++ (packedColumn (name, typeCode) ++ rest)) (pre.length + 1 + (utf8 name).length) =
      .ok typeCode := by
      rw [byteAt, column_type]
    have size := column_size pre rest name typeCode
    rw [append_assoc, column_next] at others
    rw [length_cons, unpackColumns, require_ok (by omega), ok_bind, length, ok_bind]
    simp only [nameLength_toNat here]
    rw [require_ok size, ok_bind, column_name, ofUtf8_utf8, ok_bind, code, ok_bind, others]
    rfl

theorem mapM_packColumn {columns : List (String × UInt8)} (short : ∀ column ∈ columns, (utf8 column.1).length ≤ 255) :
    columns.mapM packColumn = .ok (columns.map packedColumn) :=
  mapM_eq_ok fun column member => packColumn_eq (short column member)

variable [Lexicon X] {message : Message X} {code msg : String} {ts : ℤ}

omit [Wire X] in
theorem toValue_toParam {value : Value X} (sendable : Sendable value) : (toParam value).toValue = value := by
  cases value with
  | none | bool | int | str => rfl
  | foreign x =>
    have float : kind x = .float := sendable
    rw [toParam, if_pos float, Param.toValue]
  | bytes | typed => exact sendable.elim

omit [Wire X] in
theorem sendable_row {values : List (Value X)} (sendable : ∀ value ∈ values, Sendable value) :
    ∀ param ∈ values.map toParam, Sendable param.toValue := by
  intro param member
  obtain ⟨value, present, rfl⟩ := mem_map.mp member
  rw [toValue_toParam (sendable value present)]
  exact sendable value present

def errorPayload (code msg : String) : Bytes := utf8 code ++ (packBE 2 (utf8 msg).length ++ utf8 msg)

def Message.payload : Message X → Bytes
  | .hello text | .ok text | .query text => utf8 text
  | .err code msg | .resultError code msg => errorPayload code msg
  | .exec sql params =>
    packBE 4 (utf8 sql).length ++ (utf8 sql ++ (packBE 2 params.length ++ params.flatMap Param.packed))
  | .resultHeader columns => packBE 2 columns.length ++ columns.flatMap packedColumn
  | .resultRow values => packBE 2 values.length ++ (values.map toParam).flatMap Param.packed
  | .resultDone rowcount lastInsertId statusFlags => int64Bytes rowcount ++ (int64Bytes lastInsertId ++ [statusFlags])
  | .ping ts | .pong ts => packBE 8 ts.toNat
  | .quit => []

def Message.Documented : Message X → Prop
  | .hello client => (utf8 client).length ≤ MAX_CLIENT_ID
  | .ok _ | .quit => True
  | .err code msg | .resultError code msg => code.length = 5 ∧ code.toList.all isAscii = true ∧
      (utf8 msg).length ≤ 65535
  | .query sql => (utf8 sql).length ≤ MAX_SQL_LEN
  | .exec sql params => (utf8 sql).length ≤ MAX_SQL_LEN ∧ params.length ≤ MAX_PARAMS ∧
      ∀ param ∈ params, param.toValue |> Sendable
  | .resultHeader columns => ∀ column ∈ columns, (utf8 column.1).length ≤ 255
  | .resultRow values => ∀ value ∈ values, Sendable value
  | .resultDone rowcount lastInsertId _ => Int64 rowcount ∧ Int64 lastInsertId
  | .ping ts | .pong ts => -2 ^ 63 ≤ ts ∧ ts < 2 ^ 64

/-- What the two bytes of a count and the eight bytes of an unsigned number have room for. -/
def Message.Counted : Message X → Prop
  | .resultHeader columns => columns.length ≤ 65535
  | .resultRow values => values.length ≤ 65535
  | .ping ts | .pong ts => 0 ≤ ts
  | _ => True

def roundTrip (message : Message X) : Except Exc (Message X) := do
  decodeMessage (← Frame.fromBytes (← (← toFrame message).toBytes))

theorem packError_eq (ascii_code : code.toList.all isAscii = true) (short : (utf8 msg).length ≤ 65535) :
    packError code msg = .ok (errorPayload code msg) := by
  rw [packError, ascii, if_pos ascii_code, ok_bind, packUnsigned_eq (Nat.lt_succ_of_le short), ok_bind, errorPayload]
  rw [append_assoc]
  rfl

theorem packTimestamp_eq (positive : 0 ≤ ts) (bound : ts < 2 ^ 64) : packUnsigned 8 ts = .ok (packBE 8 ts.toNat) :=
  if_pos ⟨positive, bound⟩

theorem toFrame_eq (exact_floats : ExactFloats X) (documented : message.Documented) (counted : message.Counted)
    (size : message.payload.length < 256 ^ 4) : toFrame message = .ok (.of message.type message.payload) := by
  cases message with
  | hello client => exact if_neg (Nat.not_lt.mpr documented)
  | ok | query | quit => rfl
  | err code msg | resultError code msg =>
    obtain ⟨-, ascii_code, short⟩ := documented
    rw [toFrame, packError_eq ascii_code short]
    rfl
  | exec sql params =>
    obtain ⟨short, few, sendable⟩ := documented
    rw [Message.payload, length_append, length_append, length_append] at size
    have packed := mapM_packParam (sendable_params exact_floats sendable (by omega))
    have sql_fits : (utf8 sql).length < 256 ^ 4 := lt_of_le_of_lt short (by decide)
    have count_fits : params.length < 256 ^ 2 := lt_of_le_of_lt few (by decide)
    rw [toFrame, if_neg (Nat.not_lt.mpr few), packUnsigned_eq sql_fits, ok_bind, packUnsigned_eq count_fits, ok_bind,
      packed, ok_bind, Message.payload, flatMap_def]
    simp only [append_assoc]
    rfl
  | resultHeader columns =>
    rw [toFrame, packUnsigned_eq (Nat.lt_succ_of_le counted), ok_bind, mapM_packColumn documented, ok_bind,
      Message.payload, flatMap_def]
    rfl
  | resultRow values =>
    rw [Message.payload, length_append] at size
    have packed := mapM_packParam (sendable_params exact_floats (sendable_row documented) (by omega))
    rw [mapM_map] at packed
    rw [toFrame, packUnsigned_eq (Nat.lt_succ_of_le counted), ok_bind, packed, ok_bind, Message.payload, flatMap_def]
    rfl
  | resultDone rowcount lastInsertId statusFlags =>
    rw [toFrame, packInt64_eq documented.1, ok_bind, packInt64_eq documented.2, ok_bind, append_assoc]
    rfl
  | ping ts | pong ts =>
    rw [toFrame, packTimestamp_eq counted documented.2]
    rfl

theorem unpackError_payload (five : code.length = 5) (ascii_code : code.toList.all isAscii = true)
    (short : (utf8 msg).length ≤ 65535) (what : String) :
    unpackError what (errorPayload code msg) = .ok (code, msg) := by
  have code_size : (utf8 code).length = 5 := by rw [utf8_ascii ascii_code, length_map, String.length_toList, five]
  have size : (errorPayload code msg).length = 7 + (utf8 msg).length := by
    rw [errorPayload, length_append, length_append, code_size, packBE_length]
    omega
  have front : slice (errorPayload code msg) 0 5 = utf8 code := slice_front code_size
  have length : slice (errorPayload code msg) 5 2 = packBE 2 (utf8 msg).length :=
    slice_part code_size (packBE_length ..)
  have text : slice (errorPayload code msg) 7 (utf8 msg).length = utf8 msg := by
    rw [errorPayload, ← append_assoc, slice_skip _ 7 (by rw [length_append, code_size, packBE_length]) (le_refl _)]
    exact slice_all rfl
  have bound : ¬ MAX_ERR_MSG_LEN < (utf8 msg).length := Nat.not_lt.mpr (le_trans short (by decide))
  rw [unpackError, require_ok (by omega), ok_bind, front, ofAscii_utf8 ascii_code, ok_bind, length,
    unpackUnsigned_packBE (Nat.lt_succ_of_le short), ok_bind, if_neg bound, require_ok (by omega),
    ok_bind, text, ofUtf8_utf8]
  rfl

theorem unpackTimestamp_payload (positive : 0 ≤ ts) (bound : ts < 2 ^ 64) (what : String) :
    unpackTimestamp what (packBE 8 ts.toNat) = .ok ts := by
  have fits : ts.toNat < 256 ^ 8 := by omega
  rw [unpackTimestamp, require_ok (packBE_length ..).ge, ok_bind, unpackUnsigned_packBE fits,
    ok_bind, Int.toNat_of_nonneg positive]
  rfl

theorem unpackExec_payload {sql : String} (short : (utf8 sql).length ≤ MAX_SQL_LEN)
    (few : params.length ≤ MAX_PARAMS) (holds : ∀ param ∈ params, param.Holds ∧ param.data.length < 256 ^ 4) :
    unpackExec (Message.exec sql params).payload = .ok (.exec sql params) := by
  have sql_fits : (utf8 sql).length < 256 ^ 4 := lt_of_le_of_lt short (by decide)
  have count_fits : params.length < 256 ^ 2 := lt_of_le_of_lt few (by decide)
  have back := unpackTyped_packed execParam params holds
    (packBE 4 (utf8 sql).length ++ (utf8 sql ++ packBE 2 params.length))
  have offset : (packBE 4 (utf8 sql).length ++ (utf8 sql ++ packBE 2 params.length)).length =
    4 + (utf8 sql).length + 2 := by
    simp
    omega
  rw [offset, append_assoc, append_assoc] at back
  rw [Message.payload]
  generalize params.flatMap Param.packed = packed at back ⊢
  have length : slice (packBE 4 (utf8 sql).length ++ (utf8 sql ++ (packBE 2 params.length ++ packed))) 0 4 =
    packBE 4 (utf8 sql).length :=
    slice_front (packBE_length ..)
  have text : slice (packBE 4 (utf8 sql).length ++ (utf8 sql ++ (packBE 2 params.length ++ packed)))
    4 (utf8 sql).length = utf8 sql :=
    slice_part (packBE_length ..) rfl
  have count : slice (packBE 4 (utf8 sql).length ++ (utf8 sql ++ (packBE 2 params.length ++ packed)))
    (4 + (utf8 sql).length) 2 =
      packBE 2 params.length := by
    rw [← append_assoc]
    exact slice_part (by simp) (packBE_length ..)
  have size : 4 + (utf8 sql).length + 2 ≤
    (packBE 4 (utf8 sql).length ++ (utf8 sql ++ (packBE 2 params.length ++ packed))).length := by
    simp
    omega
  rw [unpackExec, require_ok (by omega), ok_bind, length, unpackUnsigned_packBE sql_fits, ok_bind,
    if_neg (Nat.not_lt.mpr short), require_ok size, ok_bind, text, ofUtf8_utf8, ok_bind, count,
    unpackUnsigned_packBE count_fits, ok_bind, if_neg (Nat.not_lt.mpr few), back]
  rfl

theorem fromFrame_payload (exact_floats : ExactFloats X) (documented : message.Documented) (counted : message.Counted)
    (size : message.payload.length < 256 ^ 4) : fromFrame message.type message.payload = .ok message := by
  cases message with
  | hello text | query text =>
    rw [Message.type, Message.payload, fromFrame, if_neg (Nat.not_lt.mpr documented), ofUtf8_utf8]
    rfl
  | ok version =>
    rw [Message.type, Message.payload, fromFrame, ofUtf8_utf8]
    rfl
  | err code msg | resultError code msg =>
    obtain ⟨five, ascii_code, short⟩ := documented
    rw [Message.type, Message.payload, fromFrame, unpackError_payload five ascii_code short]
    rfl
  | exec sql params =>
    obtain ⟨short, few, sendable⟩ := documented
    have params_size : (params.flatMap Param.packed).length < 256 ^ 4 := by
      rw [Message.payload, length_append, length_append, length_append] at size
      omega
    rw [Message.type, fromFrame, unpackExec_payload short few (sendable_params exact_floats sendable params_size)]
  | resultHeader columns =>
    have count_fits : columns.length < 256 ^ 2 := Nat.lt_succ_of_le counted
    have count : slice (packBE 2 columns.length ++ columns.flatMap packedColumn) 0 2 = packBE 2 columns.length :=
      slice_front (packBE_length ..)
    have back := unpackColumns_packed columns documented (packBE 2 columns.length)
    rw [packBE_length] at back
    rw [Message.type, Message.payload, fromFrame, require_ok (by simp), ok_bind, count,
      unpackUnsigned_packBE count_fits, ok_bind, back]
    rfl
  | resultRow values =>
    have count_fits : values.length < 256 ^ 2 := Nat.lt_succ_of_le counted
    rw [Message.payload, length_append] at size
    have back := unpackTyped_packed rowValue _ (sendable_params exact_floats (sendable_row documented) (by omega))
      (packBE 2 values.length)
    rw [packBE_length, length_map] at back
    have count : slice (packBE 2 values.length ++ (values.map toParam).flatMap Param.packed) 0 2 =
      packBE 2 values.length :=
      slice_front (packBE_length ..)
    have same : (values.map toParam).map Param.toValue = values := by
      rw [map_map]
      exact (map_congr_left fun value member => toValue_toParam (documented value member)).trans (map_id _)
    rw [Message.type, Message.payload, fromFrame, require_ok (by simp), ok_bind, count,
      unpackUnsigned_packBE count_fits, ok_bind, back, ok_bind, same]
    rfl
  | resultDone rowcount lastInsertId statusFlags =>
    have size : (int64Bytes rowcount ++ (int64Bytes lastInsertId ++ [statusFlags])).length = 17 :=
      by simp [length_int64Bytes]
    have first : slice (int64Bytes rowcount ++ (int64Bytes lastInsertId ++ [statusFlags])) 0 8 = int64Bytes rowcount :=
      slice_front (length_int64Bytes _)
    have second : slice (int64Bytes rowcount ++ (int64Bytes lastInsertId ++ [statusFlags])) 8 8 =
      int64Bytes lastInsertId :=
      slice_part (length_int64Bytes _) (length_int64Bytes _)
    have last : byteAt (int64Bytes rowcount ++ (int64Bytes lastInsertId ++ [statusFlags])) 16 = .ok statusFlags := by
      have flags := byteAt_part (int64Bytes rowcount ++ int64Bytes lastInsertId) statusFlags []
      rwa [length_append, length_int64Bytes, length_int64Bytes, append_assoc] at flags
    rw [Message.type, Message.payload, fromFrame, require_ok size.ge, ok_bind, first,
      unpackInt64_int64Bytes documented.1, ok_bind, second, unpackInt64_int64Bytes documented.2, ok_bind, last]
    rfl
  | ping ts | pong ts =>
    rw [Message.type, Message.payload, fromFrame, unpackTimestamp_payload counted documented.2]
    rfl
  | quit => rfl

/-- Within the documented limits, and those of the counts and timestamps, a message comes back as it was sent. -/
theorem messages_round_trip (exact_floats : ExactFloats X) (message : Message X) (documented : message.Documented)
    (counted : message.Counted) (size : message.payload.length ≤ MAX_FRAME_LEN) : roundTrip message = .ok message := by
  have fits : Fits (Frame.of message.type message.payload) := size
  have small : message.payload.length < 256 ^ 4 := lt_of_le_of_lt size (by decide)
  rw [roundTrip, toFrame_eq exact_floats documented counted small, ok_bind, toBytes_eq fits,
    ok_bind, fromBytes_wire fits, ok_bind, decodeMessage, Frame.of, MessageType.ofCode_code]
  exact fromFrame_payload exact_floats documented counted small

instance bitsRuntime : Runtime UInt64 := bare UInt64

instance bitsLexicon : Lexicon UInt64 := Lexicon.ascii UInt64

instance bitsWire : Wire UInt64 := ⟨fun x => ⟨packBE 8 x.toNat, packBE_length ..⟩, fun bs => UInt64.ofNat (unpackBE bs)⟩

theorem exactFloats_bits : ExactFloats UInt64 := by
  intro x _
  show UInt64.ofNat (unpackBE (packBE 8 x.toNat)) = x
  rw [unpackBE_packBE (lt_of_lt_of_eq x.toNat_lt (by decide)), UInt64.ofNat_toNat]

def mixedRequest : Message UInt64 :=
  .exec "SELECT ?" [.null, .int64 (-1), .float64 0x7FF8000000000001, .string "é", .bool true]

theorem messages_round_trip_mixed : roundTrip mixedRequest = .ok mixedRequest := by
  refine messages_round_trip exactFloats_bits mixedRequest ⟨by decide +kernel, by decide, ?_⟩
    trivial (by decide +kernel)
  intro param member
  simp only [mem_cons, not_mem_nil, or_false] at member
  obtain rfl | rfl | rfl | rfl | rfl := member
  · trivial
  · exact (by decide : Int64 (-1))
  · rfl
  · trivial
  · trivial

theorem length_payload_nulls (n : ℕ) :
    (Message.resultRow (replicate n (.none : Value UInt64))).payload.length = 2 + n * 5 := by
  rw [Message.payload, map_replicate, length_append, packBE_length, length_flatMap, map_replicate,
    sum_replicate, length_packed]
  rfl

/-- A row of 65536 NULLs has no encoding. -/
theorem long_row_not_sent : ¬ ∀ (X : Type) (_ : Runtime X) (_ : Lexicon X) (_ : Wire X), ExactFloats X →
    ∀ message : Message X,
    message.Documented → message.payload.length ≤ MAX_FRAME_LEN → roundTrip message = .ok message := by
  intro always
  obtain ⟨n, many, fits⟩ : ∃ n, 65536 ≤ n ∧ 2 + n * 5 ≤ MAX_FRAME_LEN := ⟨65536, by decide⟩
  have sent : toFrame (.resultRow (replicate n (.none : Value UInt64))) = .error .packRange := by
    have large : ¬ (0 ≤ (n : ℤ) ∧ (n : ℤ) < 256 ^ 2) := by omega
    rw [toFrame, length_replicate, packUnsigned, if_neg large]
    rfl
  have back := always UInt64 bitsRuntime bitsLexicon bitsWire exactFloats_bits (.resultRow (replicate n .none))
    (fun value member => by rw [eq_of_mem_replicate member]; trivial) ((length_payload_nulls n).trans_le fits)
  rw [roundTrip, sent] at back
  cases back

end Tinydb.Protocol
