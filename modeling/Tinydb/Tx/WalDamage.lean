import Tinydb.Tx.WalFile

/-! A flipped bit in the middle of the log.

The checksum tells a frame from the same frame with a flipped bit, but the length in
the header is used before anything is checked. A frame that says it is longer than
the file looks like a torn rest, and the walk ends as if nothing came behind it.
-/

namespace Tinydb.Tx.WalFile

open Lib List

/-- The bytes with one bit changed. -/
def Flipped (bytes damaged : Bytes) : Prop :=
  ∃ front byte back, ∃ bit < 8, bytes = front ++ byte :: back ∧
  damaged = front ++ (byte ^^^ 1 <<< UInt8.ofNat bit) :: back

/-- Byte strings of one length that differ in one bit have different checksums. -/
def DetectsFlips (crc32 : Bytes → ℕ) : Prop :=
  ∀ bytes damaged, Flipped bytes damaged → checksum crc32 damaged ≠ checksum crc32 bytes

variable {a b damaged : Bytes} {crc32 : Bytes → ℕ} {early late : List WALRecord} {record : WALRecord} {rest : Bytes}

theorem flip_ne {byte : UInt8} {bit : ℕ} (inside : bit < 8) : byte ^^^ 1 <<< UInt8.ofNat bit ≠ byte := by
  have some (bit : Fin 8) : (1 : UInt8) <<< UInt8.ofNat bit ≠ 0 := by
    revert bit
    decide
  exact fun same => some ⟨bit, inside⟩ ((UInt8.xor_right_inj byte).mp (same.trans UInt8.xor_zero.symm))

theorem Flipped.length_eq (flipped : Flipped a damaged) : damaged.length = a.length := by
  obtain ⟨front, byte, back, bit, -, rfl, rfl⟩ := flipped
  simp

theorem Flipped.ne (flipped : Flipped a damaged) : damaged ≠ a := by
  obtain ⟨front, byte, back, bit, inside, rfl, rfl⟩ := flipped
  exact fun same => flip_ne inside (List.cons.inj (append_cancel_left same)).1

theorem Flipped.append (flipped : Flipped (a ++ b) damaged) :
    (∃ a', Flipped a a' ∧ damaged = a' ++ b) ∨ ∃ b', Flipped b b' ∧ damaged = a ++ b' := by
  obtain ⟨front, byte, back, bit, inside, same, rfl⟩ := flipped
  rcases append_eq_append_iff.mp same with ⟨more, rfl, rest⟩ | ⟨more, rfl, rest⟩
  · exact .inr ⟨_, ⟨more, byte, back, bit, inside, rest, rfl⟩, by simp⟩
  · cases more with
    | nil => exact .inr ⟨_, ⟨[], byte, back, bit, inside, rest.symm, rfl⟩, by simp⟩
    | cons first more =>
      cases rest
      exact .inl ⟨_, ⟨front, byte, more, bit, inside, rfl, rfl⟩, by simp⟩

/-- The length the header of the frame gives. -/
def givenLength (damaged : Bytes) : ℕ := unpackBE (slice damaged 9 4)

/-- By the length given, what is behind the payload is the checksum of what is before it. -/
def Checks (crc32 : Bytes → ℕ) (bytes : Bytes) : Prop :=
  checksum crc32 (bytes.take (HEADER_SIZE + givenLength bytes)) =
    unpackLE (slice bytes (HEADER_SIZE + givenLength bytes) CRC_SIZE)

theorem not_checks_of_same (detects : DetectsFlips crc32) (flipped : Flipped (frame crc32 record) damaged)
    (same : givenLength (damaged ++ rest) = record.payload.length) : ¬ Checks crc32 (damaged ++ rest) := by
  have size : (body record).length = HEADER_SIZE + record.payload.length := by rw [body, length_append, header_length]
  rw [Checks, same, ← size]
  rcases flipped.append with ⟨body', inBody, rfl⟩ | ⟨crc, inCrc, rfl⟩
  · have stored : slice (body' ++ packLE CRC_SIZE (checksum crc32 (body record)) ++ rest)
      (body record).length CRC_SIZE =
        packLE CRC_SIZE (checksum crc32 (body record)) := by
      rw [append_assoc]
      exact slice_part inBody.length_eq (packLE_length ..)
    have small : checksum crc32 (body record) < 256 ^ CRC_SIZE := Nat.mod_lt _ (by decide)
    rw [stored, unpackLE_packLE small, append_assoc, ← inBody.length_eq, take_left]
    exact detects _ _ inBody
  · have four : crc.length = CRC_SIZE := by rw [inCrc.length_eq, packLE_length]
    have stored : slice (body record ++ crc ++ rest) (body record).length CRC_SIZE = crc := by
      rw [append_assoc]
      exact slice_part rfl four
    rw [stored, append_assoc, take_left]
    intro checks
    refine inCrc.ne ?_
    rw [checks, ← four, packLE_unpackLE]

theorem walk_damaged (long : HEADER_SIZE ≤ rest.length) (unlucky : ¬ Checks crc32 rest) (fuel offset : ℕ) :
    (walk crc32 1 (fuel + 1) offset rest).1 = [] ∧
      ((∃ e, (walk crc32 1 (fuel + 1) offset rest).2 = some e ∧ e.cls = .walCorruptionError) ↔
        HEADER_SIZE + givenLength rest + CRC_SIZE ≤ rest.length) := by
  rw [walk, readFrame_eq long rfl]
  split_ifs with short
  · simp only [true_and]
    refine iff_of_false ?_ (Nat.not_le.mpr short)
    rintro ⟨e, raised, -⟩
    cases raised
  · rw [Checks, givenLength] at unlucky
    simp only [ne_eq]
    rw [if_pos unlucky]
    exact ⟨rfl, iff_of_true ⟨_, rfl, rfl⟩ (Nat.not_lt.mp short)⟩

/-- A flipped bit in a frame is reported exactly when the frame, by the length its header then gives, ends inside the
file. Where the flip changes the length, the bytes behind the new payload are not by chance its checksum. -/
theorem flipped_bit_reported_iff {calls : List (ℕ × Bytes)} (detects : DetectsFlips crc32)
    (log : accepted 1 calls = early ++ record :: late) (flipped : Flipped (frame crc32 record) damaged)
    (unlucky : givenLength damaged ≠ record.payload.length → ¬ Checks crc32 (damaged ++ joined (frame crc32) late)) :
    (iterFrom crc32 (joined (frame crc32) early ++ (damaged ++ joined (frame crc32) late)) 1).1 = early ∧
      ((∃ e, (iterFrom crc32 (joined (frame crc32) early ++ (damaged ++ joined (frame crc32) late)) 1).2 = some e ∧
          e.cls = .walCorruptionError) ↔
        HEADER_SIZE + givenLength damaged + CRC_SIZE ≤ (damaged ++ joined (frame crc32) late).length) := by
  have packable : ∀ r ∈ early ++ record :: late, Packable r := log ▸ accepted_packable
  have numbered : NumberedFrom 1 early := (log ▸ accepted_numbered).front (List.prefix_append ..)
  have long : HEADER_SIZE + 4 ≤ damaged.length := by
    rw [flipped.length_eq, frame_length]
    unfold CRC_SIZE
    omega
  have given : givenLength (damaged ++ joined (frame crc32) late) = givenLength damaged := by
    rw [givenLength, givenLength, slice_append_left (by unfold HEADER_SIZE at long; omega)]
  have mismatch : ¬ Checks crc32 (damaged ++ joined (frame crc32) late) := by
    by_cases same : givenLength damaged = record.payload.length
    · exact not_checks_of_same detects flipped (given.trans same)
    · exact unlucky same
  obtain ⟨fuel, isFuel⟩ : ∃ fuel, (joined (frame crc32) early ++ (damaged ++ joined (frame crc32) late)).length + 1 =
      early.length + (fuel + 1) := by
    have : early.length ≤ (joined (frame crc32) early).length := joined_length_ge early
    exact ⟨(joined (frame crc32) early ++ (damaged ++ joined (frame crc32) late)).length - early.length, by
      rw [length_append]
      omega⟩
  obtain ⟨nothing, reported⟩ := walk_damaged (by rw [length_append]; omega) mismatch fuel
    (0 + (joined (frame crc32) early).length)
  rw [iterFrom, isFuel, walk_append (forall_mem_append.mp packable).1, max_self, numbered.filter_one, ← given]
  exact ⟨(congrArg (early ++ ·) nothing).trans (append_nil _), reported⟩

/-- A checksum that tells flips: the exclusive or of the bytes. -/
def xorOf (bytes : Bytes) : ℕ := (bytes.foldr (· ^^^ ·) 0).toNat

theorem detectsFlips_xorOf : DetectsFlips xorOf := by
  rintro _ _ ⟨front, byte, back, bit, inside, rfl, rfl⟩
  have small (bytes : Bytes) : checksum xorOf bytes = (bytes.foldr (· ^^^ ·) 0).toNat :=
    Nat.mod_eq_of_lt ((UInt8.toNat_lt _).trans (by decide))
  rw [small, small, Ne, UInt8.toNat_inj]
  induction front with
  | nil => exact fun same => flip_ne inside ((UInt8.xor_left_inj _).mp same)
  | cons first front ih => exact fun same => ih ((UInt8.xor_right_inj first).mp same)

/-- The frame of a BEGIN record, or the same with another type or length. -/
def beginWith (type length : UInt8) : Bytes := [0, 0, 0, 0, 0, 0, 0, 1, type, length, 0, 0, 0, 0, 0, 0, 0]

theorem log_begin : accepted 1 [(RT_BEGIN, []), (RT_COMMIT, [])] = [] ++ ⟨1, RT_BEGIN, []⟩ :: [⟨2, RT_COMMIT, []⟩] :=
    rfl

theorem flipped_bit_reported_type : ∃ e,
    (iterFrom xorOf (beginWith 0 0 ++ joined (frame xorOf) [⟨2, RT_COMMIT, []⟩]) 1).2 =
    some e ∧ e.cls = .walCorruptionError := by
  have flipped : Flipped (frame xorOf ⟨1, RT_BEGIN, []⟩) (beginWith 0 0) :=
    ⟨[0, 0, 0, 0, 0, 0, 0, 1], 1, [0, 0, 0, 0, 0, 0, 0, 0], 0, by decide, rfl, rfl⟩
  exact (flipped_bit_reported_iff detectsFlips_xorOf log_begin flipped (fun changed => absurd rfl changed)).2.mpr
    (by decide)

/-- The highest bit of a length: the frame ends behind the end of the file, and nothing is read. -/
theorem flipped_length_unreported : ¬ ∀ (crc32 : Bytes → ℕ) (calls : List (ℕ × Bytes))
    (early late : List WALRecord) (record : WALRecord) (damaged : Bytes), DetectsFlips crc32 →
    accepted 1 calls = early ++ record :: late → late ≠ [] →
    Flipped (frame crc32 record) damaged →
    ∃ e, (iterFrom crc32 (joined (frame crc32) early ++ (damaged ++ joined (frame crc32) late)) 1).2 = some e ∧
      e.cls = .walCorruptionError := by
  intro always
  have flipped : Flipped (frame xorOf ⟨1, RT_BEGIN, []⟩) (beginWith 1 128) :=
    ⟨[0, 0, 0, 0, 0, 0, 0, 1, 1], 0, [0, 0, 0, 0, 0, 0, 0], 7, by decide, rfl, rfl⟩
  obtain ⟨e, raised, -⟩ := always xorOf _ _ _ _ _ detectsFlips_xorOf log_begin (by decide) flipped
  have ends : (iterFrom xorOf (joined (frame xorOf) [] ++
    (beginWith 1 128 ++ joined (frame xorOf) [⟨2, RT_COMMIT, []⟩])) 1).2 =
    none := rfl
  rw [ends] at raised
  cases raised

end Tinydb.Tx.WalFile
