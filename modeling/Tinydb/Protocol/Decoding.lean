import Tinydb.Protocol.Messages

/-! What the decoders raise on arbitrary payloads.

Each read stands behind a check that its bytes are there, so what is raised is a `ValueError`.
PING and PONG only check that their eight bytes are there, not that nothing follows.
-/

namespace Tinydb.Protocol

open Lib Tinydb.Types

/-- `ValueError` and its subclasses. -/
def isValueError : ExcClass → Bool
  | .valueError | .unicodeError | .frameTruncatedError => true
  | _ => false

def Rejects {α : Type} (r : Except Exc α) : Prop := FailsWith (fun e => isValueError e.cls = true) r

variable {α : Type} {payload : Bytes} {offset width need : ℕ} {what : String}

theorem rejects_require : Rejects (require payload need what) := by
  rw [require]
  split
  · exact failsWith_error rfl
  · exact failsWith_ok ()

theorem le_of_require (checked : require payload need what = .ok ()) : need ≤ payload.length := by
  rw [require] at checked
  split_ifs at checked with short
  exact Nat.not_lt.mp short

theorem rejects_require_bind {f : Unit → Except Exc α} (rest : need ≤ payload.length → Rejects (f ())) :
    Rejects (require payload need what >>= f) := rejects_require.bind fun _ checked => rest (le_of_require checked)

theorem byteAt_eq_ok (inside : offset < payload.length) : byteAt payload offset = .ok payload[offset] := by
  rw [byteAt, List.getElem?_eq_getElem inside]

theorem rejects_byteAt (inside : offset < payload.length) : Rejects (byteAt payload offset) := by
  rw [byteAt_eq_ok inside]
  exact failsWith_ok _

theorem rejects_unpackExact {read : Bytes → α} (sized : payload.length = width) :
    Rejects (unpackExact width read payload) := by
  rw [unpackExact, if_pos sized]
  exact failsWith_ok _

theorem rejects_unpackExact_slice {read : Bytes → α} (inside : offset + width ≤ payload.length) :
    Rejects (unpackExact width read (slice payload offset width)) :=
  rejects_unpackExact (slice_length payload offset width inside)

theorem rejects_ofUtf8 (bs : Bytes) : Rejects (ofUtf8 bs) := by
  rw [ofUtf8]
  split
  · exact failsWith_ok _
  · exact failsWith_error rfl

theorem rejects_ofAscii (bs : Bytes) : Rejects (ofAscii bs) := by
  rw [ofAscii]
  split
  · exact rejects_ofUtf8 bs
  · exact failsWith_error rfl

variable {X : Type} [Wire X]

theorem rejects_unpackData (format : TypedFormat) (type : ParamType) (data : Bytes) :
    Rejects (unpackData format type data : Except Exc (Param X)) := by
  unfold unpackData
  cases type with
  | null =>
    dsimp only
    split
    · exact failsWith_error rfl
    · exact failsWith_ok _
  | int64 | float64 =>
    dsimp only
    split
    case isTrue => exact failsWith_error rfl
    case isFalse sized => exact (rejects_unpackExact (not_not.mp sized)).bind fun _ _ => failsWith_ok _
  | string => exact (rejects_ofUtf8 data).bind fun _ _ => failsWith_ok _
  | bool =>
    dsimp only
    split
    case isTrue => exact failsWith_error rfl
    case isFalse sized => exact (rejects_byteAt (by omega)).bind fun _ _ => failsWith_ok _

theorem rejects_unpackTyped (format : TypedFormat) (count offset : ℕ) :
    Rejects (unpackTyped format payload count offset : Except Exc (List (Param X))) := by
  induction count generalizing offset with
  | zero => exact failsWith_ok _
  | succ count ih =>
    rw [unpackTyped]
    refine rejects_require_bind fun header => ?_
    refine (rejects_byteAt (by omega)).bind fun code _ => ?_
    split
    · exact failsWith_error rfl
    · refine (rejects_unpackExact_slice (by omega)).bind fun length _ => ?_
      refine rejects_require_bind fun _ => ?_
      exact (rejects_unpackData _ _ _).bind fun _ _ => (ih _).bind fun _ _ => failsWith_ok _

theorem rejects_unpackColumns (count offset : ℕ) : Rejects (unpackColumns payload count offset) := by
  induction count generalizing offset with
  | zero => exact failsWith_ok _
  | succ count ih =>
    rw [unpackColumns]
    refine rejects_require_bind fun header => ?_
    refine (rejects_byteAt (by omega)).bind fun byte _ => ?_
    refine rejects_require_bind fun body => ?_
    refine (rejects_ofUtf8 _).bind fun name _ => ?_
    exact (rejects_byteAt (by omega)).bind fun _ _ => (ih _).bind fun _ _ => failsWith_ok _

theorem rejects_unpackError (what : String) : Rejects (unpackError what payload) := by
  rw [unpackError]
  refine rejects_require_bind fun header => ?_
  refine (rejects_ofAscii _).bind fun code _ => ?_
  refine (rejects_unpackExact_slice (by omega)).bind fun length _ => ?_
  split
  · exact failsWith_error rfl
  · exact rejects_require_bind fun _ => (rejects_ofUtf8 _).bind fun _ _ => failsWith_ok _

theorem rejects_unpackExec : Rejects (unpackExec payload : Except Exc (Message X)) := by
  rw [unpackExec]
  refine rejects_require_bind fun header => ?_
  refine (rejects_unpackExact_slice (by omega)).bind fun length _ => ?_
  split
  · exact failsWith_error rfl
  · refine rejects_require_bind fun body => ?_
    refine (rejects_ofUtf8 _).bind fun sql _ => ?_
    refine (rejects_unpackExact_slice (by omega)).bind fun count _ => ?_
    split
    · exact failsWith_error rfl
    · exact (rejects_unpackTyped _ _ _).bind fun _ _ => failsWith_ok _

theorem rejects_unpackTimestamp_iff (what : String) : Rejects (unpackTimestamp what payload) ↔ payload.length ≤ 8 := by
  constructor
  · intro rejects
    by_contra long
    have raised : unpackTimestamp what payload = .error .unpackSize := by
      rw [unpackTimestamp, require, if_neg (by omega)]
      show (unpackUnsigned 8 payload >>= _) = _
      rw [unpackUnsigned, unpackExact, if_neg (by omega)]
      rfl
    exact Bool.false_ne_true (rejects _ raised)
  · intro short
    refine rejects_require_bind fun enough => ?_
    exact (rejects_unpackExact (by omega)).bind fun _ _ => failsWith_ok _

theorem rejects_bind_iff {α β : Type} {r : Except Exc α} {f : α → β} : Rejects (do return f (← r)) ↔ Rejects r := by
  refine ⟨fun rejects e failed => rejects e ?_, fun rejects => rejects.bind fun _ _ => failsWith_ok _⟩
  rw [failed]
  rfl

theorem rejects_fromFrame_iff (type : MessageType) (payload : Bytes) :
    Rejects (fromFrame type payload : Except Exc (Message X)) ↔
    ¬ ((type = .ping ∨ type = .pong) ∧ 8 < payload.length) := by
  cases type with
  | ping | pong =>
    rw [fromFrame, rejects_bind_iff, rejects_unpackTimestamp_iff]
    simp
  | hello | query =>
    refine iff_of_true ?_ (by simp)
    rw [fromFrame]
    split
    · exact failsWith_error rfl
    · exact (rejects_ofUtf8 _).bind fun _ _ => failsWith_ok _
  | ok => exact iff_of_true ((rejects_ofUtf8 _).bind fun _ _ => failsWith_ok _) (by simp)
  | err | resultError => exact iff_of_true ((rejects_unpackError _).bind fun _ _ => failsWith_ok _) (by simp)
  | exec => exact iff_of_true rejects_unpackExec (by simp)
  | resultHeader =>
    refine iff_of_true (rejects_require_bind fun header => ?_) (by simp)
    refine (rejects_unpackExact_slice (by omega)).bind fun count _ => ?_
    exact (rejects_unpackColumns _ _).bind fun _ _ => failsWith_ok _
  | resultRow =>
    refine iff_of_true (rejects_require_bind fun header => ?_) (by simp)
    refine (rejects_unpackExact_slice (by omega)).bind fun count _ => ?_
    exact (rejects_unpackTyped _ _ _).bind fun _ _ => failsWith_ok _
  | resultDone =>
    refine iff_of_true (rejects_require_bind fun enough => ?_) (by simp)
    refine (rejects_unpackExact_slice (by omega)).bind fun rowcount _ => ?_
    refine (rejects_unpackExact_slice (by omega)).bind fun lastInsertId _ => ?_
    exact (rejects_byteAt (by omega)).bind fun _ _ => failsWith_ok _
  | quit => exact iff_of_true (failsWith_ok _) (by simp)

theorem ofCode_eq_some_iff (code : UInt8) (type : MessageType) :
    MessageType.ofCode code = some type ↔ type.code = code := by
  constructor
  · intro found
    simpa using List.find?_some found
  · rintro rfl
    exact type.ofCode_code

/-- A decoder raises nothing but `ValueError`, except for a PING or PONG with more than eight bytes. -/
theorem decode_rejects_iff (frame : Frame) :
    (∀ e, (decodeMessage frame : Except Exc (Message X)) = .error e → isValueError e.cls = true) ↔
      ¬ ((frame.type = MessageType.ping.code ∨ frame.type = MessageType.pong.code) ∧ 8 < frame.payload.length) := by
  show Rejects _ ↔ _
  rw [decodeMessage]
  cases known : MessageType.ofCode frame.type with
  | none =>
    refine iff_of_true (failsWith_error rfl) ?_
    rintro ⟨ping | pong, -⟩
    · rw [ping, MessageType.ofCode_code] at known
      cases known
    · rw [pong, MessageType.ofCode_code] at known
      cases known
  | some type =>
    have coded : type.code = frame.type := (ofCode_eq_some_iff _ _).mp known
    have injective : ∀ other : MessageType, frame.type = other.code ↔ type = other := by
      intro other
      rw [eq_comm, ← ofCode_eq_some_iff, known, Option.some.injEq]
    rw [injective, injective]
    exact rejects_fromFrame_iff type frame.payload

/-- A PING with nine bytes. -/
theorem long_ping_struct_error : ¬ ∀ (X : Type) (_ : Wire X) (frame : Frame) (e : Exc),
    (decodeMessage frame : Except Exc (Message X)) = .error e → isValueError e.cls = true := by
  intro always
  have zeros : Wire Unit := ⟨fun _ => ⟨List.replicate 8 0, rfl⟩, fun _ => ()⟩
  have raised : (decodeMessage ⟨0x30, 0, List.replicate 9 0⟩ : Except Exc (Message Unit)) = .error .unpackSize := rfl
  exact Bool.false_ne_true (always Unit zeros _ _ raised)

end Tinydb.Protocol
