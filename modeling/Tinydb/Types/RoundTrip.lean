import Mathlib.Data.String.Basic
import Mathlib.Tactic.NormNum
import Mathlib.Tactic.Positivity
import Tinydb.Types.Codec

/-! What the codec writes, it reads back.

A value says by its tag and its length where it ends, so it is read back at any
offset of any buffer that holds it, and a row is its values one behind the other.
Dates and times are modelled here: a date is the number of its day, a time its four
fields.
-/

namespace Tinydb.Types

open Lib List Types.Runtime

/-- `datetime.date`, by its proleptic Gregorian ordinal: from 0001-01-01 to 9999-12-31. -/
structure Date where
  ordinal : ℤ
  from_min : 1 ≤ ordinal
  to_max : ordinal ≤ 3652059
  deriving DecidableEq

def EPOCH_DATE : ℤ := 719163

/-- A naive `datetime.time`. -/
structure Time where
  hour : ℕ
  minute : ℕ
  second : ℕ
  microsecond : ℕ
  hour_lt : hour < 24
  minute_lt : minute < 60
  second_lt : second < 60
  microsecond_lt : microsecond < 1000000
  deriving DecidableEq

/-- An object of the runtime: a date, a naive time, or one of the classes that are left open. -/
inductive Object (Y : Type) where
  | date (d : Date)
  | time (t : Time)
  | other (y : Y)
  deriving DecidableEq

namespace Date

/-- `(value - _EPOCH_DATE).days`. -/
def days (d : Date) : ℤ := d.ordinal - EPOCH_DATE

/-- `_EPOCH_DATE + timedelta(days)`. -/
def ofDays (days : ℤ) : Except Exc Date :=
  if range : 1 ≤ EPOCH_DATE + days ∧ EPOCH_DATE + days ≤ 3652059 then .ok ⟨EPOCH_DATE + days, range.1, range.2⟩
  else .error ⟨.overflowError, "date value out of range"⟩

theorem ofDays_days (d : Date) : ofDays d.days = .ok d := by
  obtain ⟨ordinal, low, high⟩ := d
  have same : EPOCH_DATE + (ordinal - EPOCH_DATE) = ordinal := by omega
  simp only [ofDays, days, same, low, high, and_self, dif_pos]

end Date

namespace Time

def micros (t : Time) : ℕ := (t.hour * 3600 + t.minute * 60 + t.second) * 1000000 + t.microsecond

def ofMicros (micros : ℕ) : Except Exc Time :=
  let seconds := micros / 1000000
  let minutes := seconds / 60
  if hour_lt : minutes / 60 < 24 then
    .ok ⟨minutes / 60, minutes % 60, seconds % 60, micros % 1000000, hour_lt, Nat.mod_lt _ (by decide),
      Nat.mod_lt _ (by decide), Nat.mod_lt _ (by decide)⟩
  else .error ⟨.valueError, "hour must be in 0..23"⟩

theorem ofMicros_micros (t : Time) : ofMicros t.micros = .ok t := by
  obtain ⟨hour, minute, second, microsecond, hour_lt, minute_lt, second_lt, microsecond_lt⟩ := t
  have seconds : ((hour * 3600 + minute * 60 + second) * 1000000 + microsecond) / 1000000 =
      hour * 3600 + minute * 60 + second := by
    rw [Nat.add_comm, Nat.add_mul_div_right _ _ (by decide), Nat.div_eq_of_lt microsecond_lt, Nat.zero_add]
  have microLeft : ((hour * 3600 + minute * 60 + second) * 1000000 + microsecond) % 1000000 = microsecond := by
    rw [Nat.add_comm, Nat.add_mul_mod_self_right, Nat.mod_eq_of_lt microsecond_lt]
  have byMinutes : hour * 3600 + minute * 60 + second = second + (hour * 60 + minute) * 60 := by ring
  have minutes : (hour * 3600 + minute * 60 + second) / 60 = hour * 60 + minute := by
    rw [byMinutes, Nat.add_mul_div_right _ _ (by decide), Nat.div_eq_of_lt second_lt, Nat.zero_add]
  have secondLeft : (hour * 3600 + minute * 60 + second) % 60 = second := by
    rw [byMinutes, Nat.add_mul_mod_self_right, Nat.mod_eq_of_lt second_lt]
  have hours : (hour * 60 + minute) / 60 = hour := by omega
  have minuteLeft : (hour * 60 + minute) % 60 = minute := by omega
  simp only [ofMicros, micros, seconds, minutes, hours, minuteLeft, secondLeft, microLeft, hour_lt, dif_pos]

theorem micros_lt (t : Time) : t.micros < 256 ^ 8 := by
  have hour := t.hour_lt
  have minute := t.minute_lt
  have second := t.second_lt
  have microsecond := t.microsecond_lt
  rw [micros]
  omega

end Time

/-- What the runtime does with everything else. -/
class Others (Y : Type) where
  runtime : Runtime (Object Y)

instance {Y : Type} [Others Y] : Runtime (Object Y) :=
  { Others.runtime (Y := Y) with
    kind := fun
      | .date _ => .date
      | .time _ => .time
      | .other y => Others.runtime.kind (.other y)
    days := fun
      | .date d => d.days
      | x => Others.runtime.days x
    ofDays := fun days => Object.date <$> Date.ofDays days
    micros := fun
      | .time t => t.micros
      | x => Others.runtime.micros x
    ofMicros := fun micros => Object.time <$> Time.ofMicros micros }

variable {Y : Type} {n : ℕ} {i : ℤ} {bs payload : Bytes}

theorem Object.ofDays_eq [Others Y] (days : ℤ) :
    (ofDays days : Except Exc (Object Y)) = Object.date <$> Date.ofDays days := rfl

theorem Object.ofMicros_eq [Others Y] (micros : ℕ) :
    (ofMicros micros : Except Exc (Object Y)) = Object.time <$> Time.ofMicros micros := rfl

theorem unpackSigned_of_packSigned (positive : 0 < n) (packed : packSigned n i = .ok bs) : unpackSigned n bs = i := by
  rw [packSigned] at packed
  split at packed
  case isFalse => cases packed
  case isTrue range =>
    cases packed
    have whole : (2 : ℤ) ^ (8 * n) = 2 * 2 ^ (8 * n - 1) := by
      rw [← pow_succ']
      congr 1
      omega
    have nonneg : 0 ≤ i % 2 ^ (8 * n) := Int.emod_nonneg _ (by positivity)
    have fits : (i % 2 ^ (8 * n)).toNat < 256 ^ n := by
      have less : i % 2 ^ (8 * n) < 2 ^ (8 * n) := Int.emod_lt_of_pos _ (by positivity)
      have same : (256 : ℤ) ^ n = 2 ^ (8 * n) := by
        rw [pow_mul]
        norm_num
      have cast : ((i % 2 ^ (8 * n)).toNat : ℤ) < ((256 ^ n : ℕ) : ℤ) := by
        rw [Int.toNat_of_nonneg nonneg, Nat.cast_pow, Nat.cast_ofNat, same]
        exact less
      exact_mod_cast cast
    rw [unpackSigned, unpackLE_packLE fits, Int.toNat_of_nonneg nonneg]
    by_cases negative : i < 0
    · have wrapped : i % 2 ^ (8 * n) = i + 2 ^ (8 * n) := by
        rw [← Int.add_emod_right, Int.emod_eq_of_lt (by omega) (by omega)]
      rw [wrapped, if_neg (by omega)]
      omega
    · have kept : i % 2 ^ (8 * n) = i := Int.emod_eq_of_lt (by omega) (by omega)
      rw [kept, if_pos range.2]

theorem packSigned_length (packed : packSigned n i = .ok bs) : bs.length = n := by
  rw [packSigned] at packed
  split at packed
  · rw [← Except.ok.inj packed, packLE_length]
  · cases packed

theorem byteArray_toList_loop (bs : ByteArray) (i : ℕ) (done : List UInt8) :
    ByteArray.toList.loop bs i done = done.reverse ++ bs.data.toList.drop i := by
  fun_induction ByteArray.toList.loop bs i done with
  | case1 i done inside ih =>
    have inside' : i < bs.data.toList.length := by simpa using inside
    have same : bs.get! i = bs.data.toList[i] := by simp [ByteArray.get!, inside]
    rw [ih, drop_eq_getElem_cons inside', same]
    simp
  | case2 i done outside =>
    have past : bs.data.toList.length ≤ i := by simpa using outside
    rw [drop_of_length_le past, append_nil]

theorem ofUtf8_utf8 (s : String) : ofUtf8 (utf8 s) = .ok s := by
  have array : (⟨(utf8 s).toArray⟩ : ByteArray) = s.toUTF8 := by
    rw [utf8, ByteArray.toList, byteArray_toList_loop]
    simp
  rw [ofUtf8, array, String.fromUTF8?, String.toUTF8_eq_toByteArray, dif_pos s.isValidUTF8]
  rfl

theorem unpackFrom_part (before part after : Bytes) :
    unpackFrom (before ++ (part ++ after)) before.length part.length = .ok part := by
  have inside : before.length + part.length ≤ (before ++ (part ++ after)).length := by
    rw [length_append, length_append]
    omega
  rw [unpackFrom, if_pos inside, slice_part rfl rfl]

theorem decodePrefixed_part (short : payload.length < 2 ^ 32) (before after : Bytes) :
    decodePrefixed (before ++ (packLE 4 payload.length ++ payload ++ after)) before.length =
      .ok (payload, before.length + 4 + payload.length) := by
  have front := unpackFrom_part before (packLE 4 payload.length) (payload ++ after)
  rw [packLE_length, ← append_assoc (packLE 4 payload.length)] at front
  have behind : slice (before ++ (packLE 4 payload.length ++ payload ++ after)) (before.length + 4) payload.length =
      payload := by
    rw [append_assoc, ← append_assoc before]
    exact slice_part (by rw [length_append, packLE_length]) rfl
  have length : unpackLE (packLE 4 payload.length) = payload.length := unpackLE_packLE (by simpa using short)
  rw [decodePrefixed, front]
  show Except.ok (slice _ (before.length + 4) (unpackLE _), before.length + 4 + unpackLE _) = _
  rw [length, behind]

variable {X : Type} [Runtime X] {x : X} {row : Row X} {tags : List TypeTag}

/-- The bytes of a value are read back wherever they stand, and where they end is known. -/
def Delimited (value : Value X) (bs : Bytes) : Prop :=
  ∀ before after, decodeValue (before ++ (bs ++ after)) before.length = .ok (value, before.length + bs.length)

/-- A value of a column, as the codec stores it. -/
structure StoredAs (value : Value X) (tag : TypeTag) (bs : Bytes) : Prop where
  encoded : encodeValue value tag = .ok bs
  sized : valueSize value tag = .ok bs.length
  delimited : Delimited value bs

theorem tagged_part (before after payload : Bytes) (b : UInt8) :
    before ++ (b :: payload ++ after) = (before ++ [b]) ++ (payload ++ after) := by
  simp

theorem tag_at (before rest : Bytes) (b : UInt8) : ((before ++ [b]) ++ rest)[before.length]? = some b := by
  simp

theorem storedAs_null : StoredAs (.none : Value X) .null [TypeTag.null.byte] where
  encoded := rfl
  sized := rfl
  delimited := fun before after => by
    rw [tagged_part before after [], decodeValue, tag_at]
    rfl

theorem storedAs_int (range : -(2 ^ 63) ≤ i ∧ i ≤ 2 ^ 63 - 1) : ∃ bs, StoredAs (.int i : Value X) .int bs := by
  have checked : checkIntRange (.int i : Value X) = .ok i := if_pos range
  obtain ⟨bs, packed⟩ : ∃ bs, packSigned 8 i = .ok bs := ⟨_, if_pos ⟨range.1, by omega⟩⟩
  have size := packSigned_length packed
  refine ⟨TypeTag.int.byte :: bs, ?_, ?_, fun before after => ?_⟩
  · have payload : encodePayload (.int i : Value X) .int = checkIntRange (.int i : Value X) >>= packSigned 8 := rfl
    rw [encodeValue, payload, checked]
    show packSigned 8 i >>= _ = _
    rw [packed]
    rfl
  · have sized : valueSize (.int i : Value X) .int = checkIntRange (.int i : Value X) >>= fun _ => .ok 9 := rfl
    rw [sized, checked, length_cons, size]
    rfl
  · have read := unpackFrom_part (before ++ [TypeTag.int.byte]) bs after
    rw [size, length_append, length_singleton] at read
    rw [tagged_part, decodeValue, tag_at]
    simp only [TypeTag.ofByte_byte, read]
    show Except.ok (Value.int (unpackSigned 8 bs), before.length + 1 + 8) = _
    rw [unpackSigned_of_packSigned (by decide) packed, length_cons, size]

theorem storedAs_bool (b : Bool) : ∃ bs, StoredAs (.bool b : Value X) .bool bs := by
  refine ⟨[TypeTag.bool.byte, if b then 1 else 0], rfl, rfl, fun before after => ?_⟩
  have read : ((before ++ [TypeTag.bool.byte]) ++ ([if b then 1 else 0] ++ after))[before.length + 1]? =
      some (if b then (1 : UInt8) else 0) := by
    have split := tag_at (before ++ [TypeTag.bool.byte]) after (if b then 1 else 0)
    rw [length_append, length_singleton] at split
    rw [← split, append_assoc (before ++ [TypeTag.bool.byte])]
  rw [tagged_part before after [if b then 1 else 0], decodeValue, tag_at]
  simp only [TypeTag.ofByte_byte, read]
  cases b <;> rfl

theorem delimited_date (size : bs.length = 4)
    (back : ofDays (unpackSigned 4 bs) = .ok x) : Delimited (.foreign x) (TypeTag.date.byte :: bs) := by
  intro before after
  have read := unpackFrom_part (before ++ [TypeTag.date.byte]) bs after
  rw [size, length_append, length_singleton] at read
  rw [tagged_part, decodeValue, tag_at]
  simp only [TypeTag.ofByte_byte, read, length_cons, size]
  show ofDays (unpackSigned 4 bs) >>= _ = _
  rw [back]
  rfl

theorem delimited_time (size : bs.length = 8) (back : ofMicros (unpackLE bs) = .ok x) :
    Delimited (.foreign x) (TypeTag.time.byte :: bs) := by
  intro before after
  have read := unpackFrom_part (before ++ [TypeTag.time.byte]) bs after
  rw [size, length_append, length_singleton] at read
  rw [tagged_part, decodeValue, tag_at]
  simp only [TypeTag.ofByte_byte, read, length_cons, size]
  show ofMicros (unpackLE bs) >>= _ = _
  rw [back]
  rfl

theorem decodePrefixed_tagged (short : payload.length < 2 ^ 32) (before after : Bytes) (b : UInt8) :
    decodePrefixed ((before ++ [b]) ++ (packLE 4 payload.length ++ payload ++ after)) (before.length + 1) =
      .ok (payload, before.length + 1 + 4 + payload.length) := by
  have read := decodePrefixed_part short (before ++ [b]) after
  rwa [length_append, length_singleton] at read

theorem storedAs_text {s : String} (short : (utf8 s).length < 2 ^ 32) : ∃ bs, StoredAs (.str s : Value X) .text bs := by
  refine ⟨TypeTag.text.byte :: (packLE 4 (utf8 s).length ++ utf8 s), ?_, ?_, fun before after => ?_⟩
  · have payload : encodePayload (.str s : Value X) .text = lengthPrefixed (utf8 s) := rfl
    rw [encodeValue, payload, lengthPrefixed, if_pos short]
    rfl
  · rw [length_cons, length_append, packLE_length]
    show Except.ok (1 + 4 + (utf8 s).length) = _
    congr 1
    omega
  · rw [tagged_part, decodeValue, tag_at]
    simp only [TypeTag.ofByte_byte, decodePrefixed_tagged short]
    show (ofUtf8 (utf8 s) >>= fun text => Except.ok (Value.str text, before.length + 1 + 4 + (utf8 s).length)) = _
    rw [ofUtf8_utf8, length_cons, length_append, packLE_length]
    show Except.ok (Value.str s, before.length + 1 + 4 + (utf8 s).length) = _
    congr 2
    omega

theorem storedAs_blob (short : payload.length < 2 ^ 32) : ∃ bs, StoredAs (.bytes payload : Value X) .blob bs := by
  refine ⟨TypeTag.blob.byte :: (packLE 4 payload.length ++ payload), ?_, ?_, fun before after => ?_⟩
  · have same : encodePayload (.bytes payload : Value X) .blob = lengthPrefixed payload := rfl
    rw [encodeValue, same, lengthPrefixed, if_pos short]
    rfl
  · rw [length_cons, length_append, packLE_length]
    show Except.ok (1 + 4 + payload.length) = _
    congr 1
    omega
  · rw [tagged_part, decodeValue, tag_at]
    simp only [TypeTag.ofByte_byte, decodePrefixed_tagged short]
    show Except.ok (Value.bytes payload, before.length + 1 + 4 + payload.length) = _
    rw [length_cons, length_append, packLE_length]
    congr 2
    omega

/-- A value in a column of a row: what the column stores is read back as the value. -/
def ColumnStored (value : Value X) (tag : TypeTag) : Prop := ∃ bs, encodeColumn value tag = .ok bs ∧ Delimited value bs

theorem decodeColumns_part (stored : Forall₂ ColumnStored row tags) :
    ∃ blob, encodeColumns row tags = .ok blob ∧ ∀ before after,
      decodeColumns (before ++ (blob ++ after)) before.length tags = .ok (row, before.length + blob.length) := by
  induction stored with
  | nil => exact ⟨[], rfl, fun before after => rfl⟩
  | @cons value tag values tags first others ih =>
    obtain ⟨column, written, delimited⟩ := first
    obtain ⟨blob, rest, decoded⟩ := ih
    refine ⟨column ++ blob, ?_, fun before after => ?_⟩
    · rw [encodeColumns, written]
      show encodeColumns values tags >>= _ = _
      rw [rest]
      rfl
    · have front := delimited before (blob ++ after)
      have behind := decoded (before ++ column) after
      rw [length_append, append_assoc] at behind
      rw [append_assoc, decodeColumns, front]
      show decodeColumns _ (before.length + column.length) tags >>= _ = _
      rw [behind, length_append, ← Nat.add_assoc]
      rfl

theorem decodeRow_encodeRowCoerced (stored : Forall₂ ColumnStored row tags) :
    ∃ blob, encodeRowCoerced row tags = .ok blob ∧ decodeRow blob tags = .ok row := by
  obtain ⟨blob, written, decoded⟩ := decodeColumns_part stored
  refine ⟨blob, by rw [encodeRowCoerced, if_pos stored.length_eq, written], ?_⟩
  have whole := decoded [] []
  rw [nil_append, append_nil, length_nil, Nat.zero_add] at whole
  rw [decodeRow, whole]
  exact if_pos rfl

variable [Others Y] {value : Value (Object Y)} {tag : TypeTag}

theorem storedAs_date (d : Date) : ∃ bs, StoredAs (.foreign (.date d) : Value (Object Y)) .date bs := by
  have low := d.from_min
  have high := d.to_max
  have range : -(2 ^ (8 * 4 - 1) : ℤ) ≤ d.days ∧ d.days < 2 ^ (8 * 4 - 1) := by
    rw [Date.days, show EPOCH_DATE = 719163 from rfl, show (2 : ℤ) ^ (8 * 4 - 1) = 2147483648 by norm_num]
    omega
  obtain ⟨bs, packed⟩ : ∃ bs, packSigned 4 d.days = .ok bs := ⟨_, if_pos range⟩
  have size := packSigned_length packed
  refine ⟨TypeTag.date.byte :: bs, ?_, ?_, fun before after => ?_⟩
  · have payload : encodePayload (.foreign (.date d) : Value (Object Y)) .date = packSigned 4 d.days := rfl
    rw [encodeValue, payload, packed]
    rfl
  · rw [length_cons, size]
    rfl
  · refine delimited_date size ?_ before after
    rw [unpackSigned_of_packSigned (by decide) packed, Object.ofDays_eq, Date.ofDays_days]
    rfl

theorem storedAs_time (t : Time) : ∃ bs, StoredAs (.foreign (.time t) : Value (Object Y)) .time bs := by
  refine ⟨TypeTag.time.byte :: packLE 8 t.micros, rfl, rfl, delimited_time (packLE_length 8 _) ?_⟩
  rw [unpackLE_packLE t.micros_lt, Object.ofMicros_eq, Time.ofMicros_micros]
  rfl

/-- The values of a type. An integer has 64 bits, and four bytes hold the length of a text or a byte string. -/
def Holds : TypeTag → Value (Object Y) → Prop
  | .null, .none => True
  | .int, .int i => -(2 ^ 63) ≤ i ∧ i ≤ 2 ^ 63 - 1
  | .bool, .bool _ => True
  | .text, .str s => (utf8 s).length < 2 ^ 32
  | .blob, .bytes bs => bs.length < 2 ^ 32
  | .date, .foreign (.date _) => True
  | .time, .foreign (.time _) => True
  | _, _ => False

theorem Holds.storedAs (holds : Holds tag value) : ∃ bs, StoredAs value tag bs := by
  unfold Holds at holds
  split at holds
  case h_1 => exact ⟨_, storedAs_null⟩
  case h_2 => exact storedAs_int holds
  case h_3 => exact storedAs_bool _
  case h_4 => exact storedAs_text holds
  case h_5 => exact storedAs_blob holds
  case h_6 => exact storedAs_date _
  case h_7 => exact storedAs_time _
  case h_8 => exact holds.elim

theorem columnStored_of_holds (valid : value = .none ∨ Holds tag value) : ColumnStored value tag := by
  rcases valid with rfl | holds
  · exact ⟨_, storedAs_null.encoded, storedAs_null.delimited⟩
  · obtain ⟨bs, stored⟩ := holds.storedAs
    refine ⟨bs, ?_, stored.delimited⟩
    rw [← stored.encoded]
    unfold Holds at holds
    split at holds
    case h_8 => exact holds.elim
    all_goals rfl

/-- Rows are read back as they were written, and so is a value at any place of any buffer. -/
theorem codec_round_trip (row : Row (Object Y)) (tags : List TypeTag)
    (valid : Forall₂ (fun value tag => value = .none ∨ Holds tag value) row tags) :
    (∃ blob, encodeRowCoerced row tags = .ok blob ∧ decodeRow blob tags = .ok row) ∧
      ∀ (value : Value (Object Y)) (tag : TypeTag), Holds tag value → ∃ bs, encodeValue value tag = .ok bs ∧
        valueSize value tag = .ok bs.length ∧ ∀ before after : Bytes,
          decodeValue (before ++ (bs ++ after)) before.length = .ok (value, before.length + bs.length) := by
  constructor
  · exact decodeRow_encodeRowCoerced (valid.imp fun _ _ => columnStored_of_holds)
  · intro value tag holds
    obtain ⟨bs, stored⟩ := holds.storedAs
    exact ⟨bs, stored.encoded, stored.sized, stored.delimited⟩

/-- Objects of no other class. -/
instance : Others Unit := ⟨@Runtime.bare (Object Unit) ⟨.other ()⟩⟩

/-- The smallest integer, NULL, a text of two bytes, a byte string, the first day and the last moment of a day. -/
theorem codec_round_trip_mixed : let row : Row (Object Unit) := [.int (-(2 ^ 63)), .none, .str "é", .bytes [0, 255],
      .foreign (.date ⟨1, by decide, by decide⟩),
      .foreign (.time ⟨23, 59, 59, 999999, by decide, by decide, by decide, by decide⟩)]
    let tags : List TypeTag := [.int, .text, .text, .blob, .date, .time]
    ∃ blob, encodeRowCoerced row tags = .ok blob ∧ decodeRow blob tags = .ok row := by
  intro row tags
  refine (codec_round_trip row tags ?_).1
  refine .cons (.inr ?_) (.cons (.inl rfl) (.cons (.inr ?_) (.cons (.inr ?_)
    (.cons (.inr trivial) (.cons (.inr trivial) .nil)))))
  · show -(2 ^ 63) ≤ (-(2 ^ 63) : ℤ) ∧ (-(2 ^ 63) : ℤ) ≤ 2 ^ 63 - 1
    decide
  · show (utf8 "é").length < 2 ^ 32
    decide +kernel
  · show [(0 : UInt8), 255].length < 2 ^ 32
    decide

end Tinydb.Types
