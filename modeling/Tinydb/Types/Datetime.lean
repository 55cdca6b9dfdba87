import Tinydb.Lib.Double
import Tinydb.Types.Stored

/-! DATETIME columns.

The codec computes the microseconds of a datetime through a float: the seconds since
the epoch, times a million, cut to an integer. The result can be a microsecond off, so
a datetime may be read back as another one, and that one as yet another.
-/

namespace Tinydb.Types

open Lib

/-- A naive `datetime.datetime`, by its microseconds since 1970: from 0001-01-01 to 9999-12-31. -/
structure Datetime where
  micros : ℤ
  from_min : -62135596800000000 ≤ micros
  to_max : micros ≤ 253402300799999999
  deriving DecidableEq

namespace Datetime

/-- `int((value - epoch).total_seconds() * 1_000_000)`; `total_seconds` is a quotient of integers. -/
def storedMicros (micros : ℤ) : ℤ := truncate (toDouble (toDouble (micros / 1000000) * 1000000))

/-- `datetime(1970, 1, 1) + timedelta(microseconds)`. -/
def ofMicros (micros : ℤ) : Except Exc Datetime :=
  if range : -62135596800000000 ≤ micros ∧ micros ≤ 253402300799999999 then .ok ⟨micros, range.1, range.2⟩
  else .error ⟨.overflowError, "date value out of range"⟩

theorem storedMicros_mono : Monotone storedMicros := by
  intro m n le
  have scaled : (m : ℚ) / 1000000 ≤ n / 1000000 := by
    have : (m : ℚ) ≤ n := by exact_mod_cast le
    linarith
  exact truncate_mono (toDouble_mono (mul_le_mul_of_nonneg_right (toDouble_mono scaled) (by norm_num)))

end Datetime

/-- The runtime with datetimes; nothing else is asked of it. -/
instance : Others Datetime where
  runtime :=
    have : Inhabited (Object Datetime) := ⟨.other ⟨0, by decide, by decide⟩⟩
    { Runtime.bare (Object Datetime) with
      kind := fun _ => .datetime
      typeName := fun _ => "datetime"
      epochMicros := fun
        | .other d => Datetime.storedMicros d.micros
        | _ => 0
      ofEpochMicros := fun micros => Object.other <$> Datetime.ofMicros micros }

namespace Datetime

def rank (d : Datetime) : ℕ :=
  if storedMicros d.micros < d.micros then (d.micros + 62135596800000000).toNat
  else if d.micros < storedMicros d.micros then (253402300799999999 - d.micros).toNat
  else 0

/-- A datetime that is read back as another one comes closer to one that stays: what moved down does not move up
again. -/
theorem rank_lt {d d' : Datetime} (moved : storedMicros d.micros = d'.micros) (differs : d' ≠ d) :
    d'.rank < d.rank := by
  have apart : d'.micros ≠ d.micros := fun same => differs (by cases d; cases d'; cases same; rfl)
  have low := d'.from_min
  have high := d'.to_max
  unfold rank
  rcases Int.lt_or_gt_of_ne apart with down | up
  · have still : storedMicros d'.micros ≤ d'.micros := (storedMicros_mono down.le).trans_eq moved
    split_ifs <;> omega
  · have still : d'.micros ≤ storedMicros d'.micros := moved.symm.trans_le (storedMicros_mono up.le)
    split_ifs <;> omega

end Datetime

def datetimeRank : TypeTag → Value (Object Datetime) → ℕ
  | .datetime, .foreign (.other d) => d.rank
  | _, _ => 0

theorem framed_datetime {micros : ℤ} {payload : Bytes} (packed : packSigned 8 micros = .ok payload) :
    Framed (TypeTag.datetime.byte :: payload) (Value.foreign <$> (Object.other <$> Datetime.ofMicros micros)) := by
  have fixed : fixed? (X := Object Datetime) .datetime =
      some (8, fun bs => .foreign <$> Runtime.ofEpochMicros (unpackSigned 8 bs)) := rfl
  have framed := framed_of_fixed fixed (packSigned_length packed)
  rwa [unpackSigned_of_packSigned (by decide) packed] at framed

theorem delimited_datetime {d : Datetime} {bs : Bytes} {stored : Value (Object Datetime)}
    (encoded : encodeValue (.foreign (.other d) : Value (Object Datetime)) .datetime = .ok bs)
    (read : Delimited stored bs) :
    ∃ d' : Datetime, stored = .foreign (.other d') ∧ Datetime.storedMicros d.micros = d'.micros := by
  obtain ⟨payload, packed, rfl⟩ := bind_return_iff.mp encoded
  have outcome := (framed_datetime packed [] []).symm.trans (read [] [])
  rw [Datetime.ofMicros] at outcome
  split_ifs at outcome with range
  · exact ⟨_, (Prod.mk.inj (Except.ok.inj outcome)).1.symm, rfl⟩
  · cases outcome

theorem survives_datetime {d : Datetime} (stays : Datetime.storedMicros d.micros = d.micros) :
    Survives .datetime (.foreign (.other d) : Value (Object Datetime)) := by
  have low := d.from_min
  have high := d.to_max
  obtain ⟨payload, packed⟩ : ∃ payload, packSigned 8 d.micros = .ok payload := ⟨_, if_pos (by norm_num; omega)⟩
  refine ⟨TypeTag.datetime.byte :: payload, ?_, ?_⟩
  · have written : encodePayload (.foreign (.other d) : Value (Object Datetime)) .datetime =
        packSigned 8 (Datetime.storedMicros d.micros) := rfl
    show encodeValue _ _ = _
    rw [encodeValue, written, stays, packed]
    rfl
  · have framed := framed_datetime packed
    rwa [Datetime.ofMicros, dif_pos ⟨low, high⟩] at framed

theorem normalizing_datetime : Normalizing datetimeRank := by
  intro tag value stored bs written read
  by_cases null : value = .none
  · subst null
    cases storedAs_null.encoded.symm.trans written
    exact .inl (read.unique storedAs_null.delimited)
  rw [asIs_of_ne null] at written
  have kept (reads : ReadsBack (Object Datetime) tag) : stored = value := read.unique (reads value bs written)
  obtain ⟨payload, packed, -⟩ := bind_ok_iff.mp written
  cases tag with
  | null => exact .inl (kept readsBack_null)
  | int => exact .inl (kept readsBack_int)
  | text => exact .inl (kept readsBack_text)
  | bool => exact .inl (kept readsBack_bool)
  | blob => exact .inl (kept readsBack_blob)
  | date => exact .inl (kept (readsBack_date fun _ => nofun))
  | time => exact .inl (kept (readsBack_time fun _ => nofun))
  | datetime =>
    cases value with
    | foreign x =>
      cases x with
      | other d =>
        obtain ⟨d', rfl, moved⟩ := delimited_datetime written read
        by_cases same : d' = d
        · exact .inl (by rw [same])
        · exact .inr (Datetime.rank_lt moved same)
      | date | time => cases packed
    | none | bool | int | str | bytes | typed => cases packed
  | float => cases value <;> cases packed
  | decimal =>
    cases value with
    | foreign x => cases x <;> cases packed
    | none | bool | int | str | bytes | typed => cases packed
  | json => cases value <;> first | exact (null rfl).elim | cases packed

end Tinydb.Types
