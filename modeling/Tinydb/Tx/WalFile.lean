import Tinydb.Tx.Wal

/-! The bytes of the write-ahead log (`tx/wal.py`).

A record is a header with its number, type and length, the payload and a checksum.
`openFile` walks a file for the next number and `iterFrom` reads the records back; both
stop at a torn rest. `zlib.crc32` is a parameter.
-/

namespace Tinydb.Tx

open Lib List Program

def HEADER_SIZE : ℕ := 13
def CRC_SIZE : ℕ := 4

structure WalFile where
  file : Bytes
  nextLsn : ℕ

namespace WalFile

variable (crc32 : Bytes → ℕ) {torn rest : Bytes} {first : ℕ} {record : WALRecord} {nextLsn : ℕ}
  (calls : List (ℕ × Bytes)) (cut : ℕ)

/-- `_crc32`. -/
def checksum (blob : Bytes) : ℕ := crc32 blob % 2 ^ 32

def header (record : WALRecord) : Bytes :=
    packBE 8 record.lsn ++ (packBE 1 record.type ++ packBE 4 record.payload.length)

def body (record : WALRecord) : Bytes := header record ++ record.payload

def frame (record : WALRecord) : Bytes := body record ++ packLE CRC_SIZE (checksum crc32 (body record))

/-- The log of a new file, opened with `w+b`. -/
def new : WalFile := ⟨[], 1⟩

/-- What `struct.pack` has room for. -/
def Packable (record : WALRecord) : Prop := record.lsn < 2 ^ 64 ∧ record.type < 2 ^ 8 ∧ record.payload.length < 2 ^ 32

instance (record : WALRecord) : Decidable (Packable record) := inferInstanceAs (Decidable (_ ∧ _ ∧ _))

def append (type : ℕ) (payload : Bytes) : Program Exc WalFile ℕ := do
  let wal ← read
  let lsn := wal.nextLsn
  if Packable ⟨lsn, type, payload⟩ then
    modify fun wal => { wal with file := wal.file ++ frame crc32 ⟨lsn, type, payload⟩ }
    mark
    modify fun wal => { wal with nextLsn := lsn + 1 }
    return lsn
  else
    raise .packRange

/-- A frame as both readers take it from the file, with the checksum beside it and the one it should have. -/
structure Frame where
  record : WALRecord
  stored : ℕ
  expected : ℕ

/-- The next frame and what is behind it; nothing where the file ends first. -/
def readFrame (rest : Bytes) : Option (Frame × Bytes) :=
  let header := rest.take HEADER_SIZE
  if header.length < HEADER_SIZE then none
  else
    let payloadLen := unpackBE (slice header 9 4)
    let payload := slice rest HEADER_SIZE payloadLen
    let crcBytes := slice rest (HEADER_SIZE + payloadLen) CRC_SIZE
    if payload.length < payloadLen ∨ crcBytes.length < CRC_SIZE then none
    else some (⟨⟨unpackBE (slice header 0 8), unpackBE (slice header 8 1), payload⟩, unpackLE crcBytes,
      checksum crc32 (header ++ payload)⟩, rest.drop (HEADER_SIZE + payloadLen + CRC_SIZE))

/-- `f"{value:#010x}"`. -/
def hex (value : ℕ) : String := hexText 8 value

def crcMismatch (offset : ℕ) (found : Frame) : Exc :=
  ⟨.walCorruptionError, "WAL CRC mismatch at offset " ++ toString offset ++ ": expected " ++
    hex found.expected ++ ", got " ++
    hex found.stored ++ " (lsn=" ++ toString found.record.lsn ++ ", type=" ++ toString found.record.type ++ ")"⟩

/-- The walk of `iter_from`: what it yields, and what it raises in the end. Every frame takes bytes, so the length of
the file is fuel enough. -/
def walk (lsn : ℤ) : (fuel offset : ℕ) → Bytes → List WALRecord × Option Exc
  | 0, _, _ => ([], none)
  | fuel + 1, offset, rest =>
    match readFrame crc32 rest with
    | none => ([], none)
    | some (found, behind) =>
      if found.expected ≠ found.stored then ([], some (crcMismatch offset found))
      else
        let (records, raised) := walk lsn fuel (offset + (rest.length - behind.length)) behind
        (if lsn ≤ found.record.lsn then found.record :: records else records, raised)

def iterFrom (file : Bytes) (lsn : ℤ) : List WALRecord × Option Exc := walk crc32 (max lsn 1) (file.length + 1) 0 file

/-- The walk of `_recover_lsn`. -/
def recover : (fuel nextLsn : ℕ) → Bytes → ℕ
  | 0, nextLsn, _ => nextLsn
  | fuel + 1, nextLsn, rest =>
    match readFrame crc32 rest with
    | none => nextLsn
    | some (found, behind) =>
      if found.record.lsn ≠ nextLsn ∨ found.expected ≠ found.stored then nextLsn else recover fuel (nextLsn + 1) behind

/-- Opening an existing file with `r+b`. -/
def openFile (file : Bytes) : WalFile := ⟨file, recover crc32 (file.length + 1) 1 file⟩

section Frame

variable {crc32 : Bytes → ℕ} {record : WALRecord}

theorem header_length (record : WALRecord) : (header record).length = HEADER_SIZE := by simp [header, HEADER_SIZE]

theorem frame_length (crc32 : Bytes → ℕ) (record : WALRecord) :
    (frame crc32 record).length = HEADER_SIZE + record.payload.length + CRC_SIZE := by
  rw [frame, body, length_append, length_append, header_length, packLE_length]

theorem header_fields (packable : Packable record) : unpackBE (slice (header record) 0 8) = record.lsn ∧
    unpackBE (slice (header record) 8 1) = record.type ∧ unpackBE (slice (header record) 9 4) =
    record.payload.length := by
  obtain ⟨lsn, type, length⟩ := packable
  have first : slice (header record) 0 8 = packBE 8 record.lsn := slice_front (packBE_length ..)
  have second : slice (header record) 8 1 = packBE 1 record.type := slice_part (packBE_length ..) (packBE_length ..)
  have third : slice (header record) 9 4 = packBE 4 record.payload.length := by
    rw [header, ← append_assoc, slice_skip 4 9 (by simp) (le_refl _)]
    exact slice_all (packBE_length ..)
  rw [first, second, third]
  exact ⟨unpackBE_packBE lsn, unpackBE_packBE (by simpa using type), unpackBE_packBE length⟩

/-- A frame by the length its header gives. -/
theorem readFrame_eq {n : ℕ} (long : HEADER_SIZE ≤ rest.length) (sized : unpackBE (slice rest 9 4) = n) :
    readFrame crc32 rest = if rest.length < HEADER_SIZE + n + CRC_SIZE then none
      else some (⟨⟨unpackBE (slice rest 0 8), unpackBE (slice rest 8 1), slice rest HEADER_SIZE n⟩,
        unpackLE (slice rest (HEADER_SIZE + n) CRC_SIZE), checksum crc32 (rest.take (HEADER_SIZE + n))⟩,
        rest.drop (HEADER_SIZE + n + CRC_SIZE)) := by
  have inHeader (off n : ℕ) (inside : off + n ≤ HEADER_SIZE) : slice (rest.take HEADER_SIZE) off n =
    slice rest off n := by
    rw [slice, slice, drop_take, take_take, Nat.min_eq_left (by omega)]
  have short : ((slice rest HEADER_SIZE n).length < n ∨ (slice rest (HEADER_SIZE + n) CRC_SIZE).length < CRC_SIZE) ↔
      rest.length < HEADER_SIZE + n + CRC_SIZE := by
    simp only [slice, length_take, length_drop]
    unfold CRC_SIZE
    omega
  rw [readFrame, if_neg (by rw [length_take]; omega)]
  have window : rest.take HEADER_SIZE ++ slice rest HEADER_SIZE n = rest.take (HEADER_SIZE + n) := take_add.symm
  simp only [inHeader 0 8 (by decide), inHeader 8 1 (by decide), inHeader 9 4 (by decide), sized, short, window]

theorem readFrame_frame (packable : Packable record) (rest : Bytes) : readFrame crc32 (frame crc32 record ++ rest) =
      some (⟨record, checksum crc32 (body record), checksum crc32 (body record)⟩, rest) := by
  obtain ⟨lsn, type, length⟩ := header_fields packable
  have whole : frame crc32 record ++ rest =
      header record ++ (record.payload ++ (packLE CRC_SIZE (checksum crc32 (body record)) ++ rest)) := by
    simp [frame, body]
  have inHeader (off n : ℕ) (inside : off + n ≤ HEADER_SIZE) :
      slice (frame crc32 record ++ rest) off n = slice (header record) off n := by
    rw [whole, slice_append_left (by rwa [header_length])]
  have size : (body record).length = HEADER_SIZE + record.payload.length := by rw [body, length_append, header_length]
  have payload : slice (frame crc32 record ++ rest) HEADER_SIZE record.payload.length = record.payload := by
    rw [whole]
    exact slice_part (header_length record) rfl
  have crc : slice (frame crc32 record ++ rest) (HEADER_SIZE + record.payload.length) CRC_SIZE =
      packLE CRC_SIZE (checksum crc32 (body record)) := by
    rw [frame, append_assoc]
    exact slice_part size (packLE_length ..)
  have front : (frame crc32 record ++ rest).take (HEADER_SIZE + record.payload.length) = body record := by
    rw [frame, append_assoc, ← size, take_left]
  have small : checksum crc32 (body record) < 256 ^ CRC_SIZE := Nat.mod_lt _ (by decide)
  rw [readFrame_eq (by rw [length_append, frame_length]; omega) (by rw [inHeader 9 4 (by decide), length]), if_neg
    (by rw [length_append, frame_length]; omega), inHeader 0 8 (by decide), inHeader 8 1 (by decide),
    lsn, type, payload, crc,
    front, unpackLE_packLE small, ← frame_length crc32 record, drop_left]

theorem readFrame_torn (packable : Packable record) (isTorn : Torn (frame crc32) torn record) :
    readFrame crc32 torn = none := by
  obtain ⟨⟨missing, whole⟩, short⟩ := isTorn
  by_cases small : torn.length < HEADER_SIZE
  · rw [readFrame, if_pos (by rw [length_take]; omega)]
  · have sized : unpackBE (slice torn 9 4) = record.payload.length := by
      rw [← slice_append_left (b := missing) (show 9 + 4 ≤ torn.length from Nat.not_lt.mp small), whole, frame, body,
        append_assoc, slice_append_left (by rw [header_length]; decide), (header_fields packable).2.2]
    rw [readFrame_eq (Nat.not_lt.mp small) sized, if_pos (by rwa [← frame_length crc32 record])]

theorem readFrame_some {behind : Bytes} {found : Frame} (read : readFrame crc32 rest = some (found, behind)) :
    found.record.lsn = unpackBE (slice rest 0 8) ∧ found.record.type = unpackBE (slice rest 8 1) ∧
      behind.length + 17 ≤ rest.length := by
  by_cases small : rest.length < HEADER_SIZE
  · rw [readFrame, if_pos (by rw [length_take]; omega)] at read
    cases read
  · rw [readFrame_eq (Nat.not_lt.mp small) rfl] at read
    split_ifs at read with short
    cases read
    refine ⟨rfl, rfl, ?_⟩
    rw [length_drop]
    unfold HEADER_SIZE CRC_SIZE at *
    omega

end Frame

section Walks

variable {crc32 : Bytes → ℕ} {records : List WALRecord} {fuel : ℕ}

theorem joined_length_ge (records : List WALRecord) : records.length ≤ (joined (frame crc32) records).length := by
  induction records with
  | nil => exact le_refl _
  | cons record rest ih =>
    rw [joined_cons, length_append, frame_length, length_cons]
    unfold CRC_SIZE
    omega

theorem walk_append (packable : ∀ r ∈ records, Packable r) (lsn : ℤ) (fuel offset : ℕ) (rest : Bytes) :
    walk crc32 lsn (records.length + fuel) offset (joined (frame crc32) records ++ rest) =
      let behind := walk crc32 lsn fuel (offset + (joined (frame crc32) records).length) rest
      ((records.filter fun r => lsn ≤ r.lsn) ++ behind.1, behind.2) := by
  induction records generalizing offset with
  | nil => simp
  | cons record later ih =>
    obtain ⟨first, packable⟩ := forall_mem_cons.mp packable
    rw [joined_cons, append_assoc, length_cons, Nat.succ_add, walk, readFrame_frame first]
    simp only [ne_eq, not_true_eq_false, if_false, ih packable, length_append, Nat.add_sub_cancel, Nat.add_assoc]
    rw [filter_cons]
    simp only [decide_eq_true_eq]
    split
    · rfl
    · rfl

theorem walk_joined (packable : ∀ r ∈ records, Packable r) (ends : readFrame crc32 torn = none) (lsn : ℤ)
    (enough : records.length < fuel) (offset : ℕ) :
    walk crc32 lsn fuel offset (joined (frame crc32) records ++ torn) =
    (records.filter fun r => lsn ≤ r.lsn, none) := by
  obtain ⟨more, rfl⟩ := Nat.exists_eq_add_of_lt enough
  rw [Nat.add_assoc, walk_append packable, walk, ends]
  simp

theorem iterFrom_joined (packable : ∀ r ∈ records, Packable r) (ends : readFrame crc32 torn = none) (lsn : ℤ) :
    iterFrom crc32 (joined (frame crc32) records ++ torn) lsn = (records.filter fun r => max lsn 1 ≤ r.lsn, none) := by
  refine walk_joined packable ends _ ?_ 0
  have : records.length ≤ (joined (frame crc32) records).length := joined_length_ge records
  rw [length_append]
  omega

def NumberedFrom (first : ℕ) (records : List WALRecord) : Prop :=
    ∀ i record, records[i]? = some record → record.lsn = first + i

theorem NumberedFrom.tail (numbered : NumberedFrom first (record :: records)) : NumberedFrom (first + 1) records := by
  intro i r there
  have := numbered (i + 1) r there
  omega

theorem NumberedFrom.cons (numbered : NumberedFrom (first + 1) records)
    (head : record.lsn = first) : NumberedFrom first (record :: records) := by
  intro i r there
  cases i with
  | zero =>
    rw [← Option.some.inj there]
    exact head
  | succ i =>
    have := numbered i r there
    omega

theorem recover_joined (numbered : NumberedFrom first records) (packable : ∀ r ∈ records, Packable r)
    (ends : readFrame crc32 torn = none) (enough : records.length < fuel) :
    recover crc32 fuel first (joined (frame crc32) records ++ torn) = first + records.length := by
  induction records generalizing fuel first with
  | nil =>
    obtain ⟨fuel, rfl⟩ := Nat.exists_eq_succ_of_ne_zero (Nat.ne_zero_of_lt enough)
    rw [joined_nil, nil_append, recover, ends]
    rfl
  | cons record rest ih =>
    obtain ⟨fuel, rfl⟩ := Nat.exists_eq_succ_of_ne_zero (Nat.ne_zero_of_lt enough)
    obtain ⟨head, packable⟩ := forall_mem_cons.mp packable
    have lsn : record.lsn = first := numbered 0 record rfl
    rw [joined_cons, append_assoc, recover, readFrame_frame head]
    simp only [lsn, ne_eq, not_true_eq_false, or_self, if_false]
    rw [ih numbered.tail packable (Nat.lt_of_succ_lt_succ enough), length_cons]
    omega

theorem openFile_joined (numbered : NumberedFrom 1 records) (packable : ∀ r ∈ records, Packable r)
    (ends : readFrame crc32 torn = none) :
    openFile crc32 (joined (frame crc32) records ++ torn) =
    ⟨joined (frame crc32) records ++ torn, 1 + records.length⟩ := by
  have : records.length ≤ (joined (frame crc32) records).length := joined_length_ge records
  rw [openFile, recover_joined numbered packable ends (by rw [length_append]; omega)]

theorem walk_short (short : rest.length < HEADER_SIZE) (lsn : ℤ) (fuel offset : ℕ) :
    walk crc32 lsn fuel offset rest = ([], none) := by
  have ends : readFrame crc32 rest = none := by
    rw [readFrame, if_pos]
    rw [length_take]
    omega
  cases fuel with
  | zero => rfl
  | succ fuel => rw [walk, ends]

end Walks

section Runs

def appendAll : List (ℕ × Bytes) → WalFile → WalFile
  | [], wal => wal
  | (type, payload) :: rest, wal => appendAll rest (append crc32 type payload wal).state

def accepted : (nextLsn : ℕ) → List (ℕ × Bytes) → List WALRecord
  | _, [] => []
  | nextLsn, (type, payload) :: rest =>
    if Packable ⟨nextLsn, type, payload⟩ then ⟨nextLsn, type, payload⟩ :: accepted (nextLsn + 1) rest
    else accepted nextLsn rest

variable {crc32} {calls : List (ℕ × Bytes)} {early records : List WALRecord}

theorem append_state (type : ℕ) (payload : Bytes) (wal : WalFile) : (append crc32 type payload wal).state =
    if Packable ⟨wal.nextLsn, type, payload⟩
      then ⟨wal.file ++ frame crc32 ⟨wal.nextLsn, type, payload⟩, wal.nextLsn + 1⟩
    else wal := by
  by_cases packable : Packable ⟨wal.nextLsn, type, payload⟩
  · simp [append, bind_apply, packable]
  · simp [append, bind_apply, packable]

theorem appendAll_eq (calls : List (ℕ × Bytes)) (wal : WalFile) : appendAll crc32 calls wal =
    ⟨wal.file ++ joined (frame crc32) (accepted wal.nextLsn calls),
      wal.nextLsn + (accepted wal.nextLsn calls).length⟩ := by
  induction calls generalizing wal with
  | nil => simp [appendAll, accepted]
  | cons call rest ih =>
    obtain ⟨type, payload⟩ := call
    rw [appendAll, ih, append_state, accepted]
    split
    · simp only [joined_cons, append_assoc, length_cons, WalFile.mk.injEq, true_and]
      omega
    · rfl

theorem accepted_packable : ∀ r ∈ accepted nextLsn calls, Packable r := by
  induction calls generalizing nextLsn with
  | nil => simp [accepted]
  | cons call rest ih =>
    obtain ⟨type, payload⟩ := call
    rw [accepted]
    split
    case isTrue packable => exact forall_mem_cons.mpr ⟨packable, ih⟩
    case isFalse => exact ih

theorem accepted_numbered : NumberedFrom nextLsn (accepted nextLsn calls) := by
  induction calls generalizing nextLsn with
  | nil =>
    intro i record there
    cases there
  | cons call rest ih =>
    obtain ⟨type, payload⟩ := call
    rw [accepted]
    split
    case isFalse => exact ih
    case isTrue => exact NumberedFrom.cons ih rfl

theorem NumberedFrom.front (numbered : NumberedFrom first records)
    (front : early <+: records) : NumberedFrom first early := by
  obtain ⟨late, rfl⟩ := front
  intro i record there
  refine numbered i record ?_
  rw [List.getElem?_append_left (List.getElem?_eq_some_iff.mp there).1, there]

theorem NumberedFrom.filter_max (numbered : NumberedFrom 1 records) (lsn : ℤ) :
    (records.filter fun r => max lsn 1 ≤ r.lsn) = records.filter fun r => lsn ≤ r.lsn := by
  refine filter_congr fun r among => ?_
  obtain ⟨i, there⟩ := mem_iff_getElem?.mp among
  have := numbered i r there
  rw [decide_eq_decide]
  omega

theorem NumberedFrom.filter_one (numbered : NumberedFrom 1 records) :
    (records.filter fun r => (1 : ℤ) ≤ r.lsn) = records := by
  refine filter_eq_self.mpr fun r among => ?_
  obtain ⟨i, there⟩ := mem_iff_getElem?.mp among
  have := numbered i r there
  rw [decide_eq_true_eq]
  omega

theorem NumberedFrom.append {late : List WALRecord} (front : NumberedFrom first early)
    (back : NumberedFrom (first + early.length) late) : NumberedFrom first (early ++ late) := by
  intro i record there
  rcases Nat.lt_or_ge i early.length with inside | behind
  · rw [List.getElem?_append_left inside] at there
    exact front i record there
  · rw [getElem?_append_right behind] at there
    have := back _ record there
    omega

theorem NumberedFrom.increasing (numbered : NumberedFrom first records) :
    (records.map WALRecord.lsn).Pairwise (· < ·) := by
  refine pairwise_map.mpr (pairwise_iff_getElem.mpr fun i j _ _ less => ?_)
  rw [numbered i _ (getElem?_eq_getElem _), numbered j _ (getElem?_eq_getElem _)]
  omega

theorem whole_accepted (crc32 : Bytes → ℕ) (calls : List (ℕ × Bytes)) (cut : ℕ) :
    NumberedFrom 1 (whole (frame crc32) cut (accepted 1 calls)) ∧
      ∀ r ∈ whole (frame crc32) cut (accepted 1 calls), Packable r := by
  have front : whole (frame crc32) cut (accepted 1 calls) <+: accepted 1 calls := whole_front _ _
  exact ⟨accepted_numbered.front front, fun r among => accepted_packable r (front.subset among)⟩

theorem cut_log (crc32 : Bytes → ℕ) (calls : List (ℕ × Bytes)) (cut : ℕ) :
    ∃ torn, (appendAll crc32 calls new).file.take cut =
        joined (frame crc32) (whole (frame crc32) cut (accepted 1 calls)) ++ torn ∧
      readFrame crc32 torn = none ∧ (torn = [] ∨ ∃ record, Packable record ∧
        record.lsn = 1 + (whole (frame crc32) cut (accepted 1 calls)).length ∧ Torn (frame crc32) torn record) := by
  obtain ⟨torn, front, rest⟩ := take_joined cut (accepted 1 calls)
  refine ⟨torn, by rw [appendAll_eq]; exact front, ?_⟩
  rcases rest with rfl | ⟨record, later, same, isTorn⟩
  · exact ⟨rfl, .inl rfl⟩
  · have there : (accepted 1 calls)[(whole (frame crc32) cut (accepted 1 calls)).length]? = some record :=
      (congrArg (fun records : List WALRecord => records[(whole (frame crc32) cut (accepted 1 calls)).length]?)
        same).trans (by simp)
    have packable : Packable record := accepted_packable record (mem_of_getElem? there)
    have lsn := accepted_numbered _ record there
    exact ⟨readFrame_torn packable isTorn, .inr ⟨record, packable, lsn, isTorn⟩⟩

end Runs

/-- A log cut at any byte opens and reads as its whole frames. -/
theorem torn_log_reads_prefix : (openFile crc32 ((appendAll crc32 calls new).file.take cut)).nextLsn =
        1 + (whole (frame crc32) cut (accepted 1 calls)).length ∧
      ∀ lsn : ℤ, iterFrom crc32 ((appendAll crc32 calls new).file.take cut) lsn =
        ((whole (frame crc32) cut (accepted 1 calls)).filter fun r => lsn ≤ r.lsn, none) := by
  obtain ⟨numbered, packable⟩ := whole_accepted crc32 calls cut
  obtain ⟨torn, file, ends, -⟩ := cut_log crc32 calls cut
  rw [file]
  refine ⟨by rw [openFile_joined numbered packable ends], fun lsn => ?_⟩
  rw [iterFrom_joined packable ends, numbered.filter_max]

omit calls cut in
/-- A record behind a torn rest. Its type is looked for where the rest and its number are, so another type than the one
found there is not read back. -/
theorem walk_behind_torn (packable : Packable record) (positive : 0 < record.lsn)
    (isTorn : Torn (frame crc32) torn record) (nonempty : torn ≠ []) :
    ∃ type < 2 ^ 8, ∀ fuel offset, walk crc32 1 fuel offset (torn ++ frame crc32 ⟨record.lsn, type, []⟩) ≠
      ([⟨record.lsn, type, []⟩], none) := by
  have some_torn := length_pos_of_ne_nil nonempty
  let there := unpackBE (slice (torn ++ packBE 8 record.lsn) 8 1)
  refine ⟨if there = 0 then 1 else 0, by split <;> decide, fun fuel offset => ?_⟩
  generalize isType : (if there = 0 then 1 else 0) = type
  have other : there ≠ type := by
    rw [← isType]
    split <;> omega
  have start : torn ++ frame crc32 ⟨record.lsn, type, []⟩ = (torn ++ packBE 8 record.lsn) ++
    (packBE 1 type ++ packBE 4 0 ++
      packLE CRC_SIZE (checksum crc32 (body ⟨record.lsn, type, []⟩))) := by
    simp [frame, body, header]
  have size : (torn ++ frame crc32 ⟨record.lsn, type, []⟩).length = torn.length + 17 := by
    rw [length_append, frame_length]
    rfl
  cases fuel with
  | zero => simp [walk]
  | succ fuel =>
    rw [walk]
    cases read : readFrame crc32 (torn ++ frame crc32 ⟨record.lsn, type, []⟩) with
    | none => simp
    | some pair =>
      obtain ⟨found, behind⟩ := pair
      obtain ⟨lsn, foundType, shorter⟩ := readFrame_some read
      have isThere : found.record.type = there := by
        rw [foundType, start, slice_append_left (by rw [length_append, packBE_length]; omega)]
      simp only
      split
      case isTrue => simp
      case isFalse =>
        by_cases yielded : (1 : ℤ) ≤ found.record.lsn
        · rw [if_pos yielded]
          intro same
          have first := (List.cons.inj (Prod.mk.inj same).1).1
          rw [first] at isThere
          exact other isThere.symm
        · -- a frame with number 0 is not yielded, and behind it there is no room for another one
          rw [if_neg yielded]
          have few : torn.length < 8 := by
            by_contra many
            have isLsn : found.record.lsn = record.lsn := by
              obtain ⟨missing, whole⟩ := isTorn.1
              have front : slice torn 0 8 = packBE 8 record.lsn := by
                rw [← slice_append_left (b := missing) (by omega), whole, frame, body, header,
                  append_assoc, append_assoc]
                exact slice_front (packBE_length ..)
              rw [lsn, slice_append_left (by omega), front, unpackBE_packBE packable.1]
            omega
          rw [walk_short (by unfold HEADER_SIZE; omega)]
          simp

theorem accepted_single {type : ℕ} (room : nextLsn < 2 ^ 64) (small : type < 2 ^ 8) :
    accepted nextLsn [(type, [])] = [⟨nextLsn, type, []⟩] := if_pos ⟨room, small, show 0 < 2 ^ 32 by decide⟩

theorem accepted_full (full : 2 ^ 64 ≤ nextLsn) (calls : List (ℕ × Bytes)) : accepted nextLsn calls = [] := by
  induction calls with
  | nil => rfl
  | cons call rest ih =>
    obtain ⟨type, payload⟩ := call
    rw [accepted, if_neg fun packable : Packable _ => Nat.not_le.mpr packable.1 full, ih]

/-- Records appended to a log that was cut are read back behind the whole frames, whichever they are, iff the cut left
no part of a frame (or the log has no more numbers to give). -/
theorem log_readable_after_cut_iff :
    (∀ later, iterFrom crc32 (appendAll crc32 later (openFile crc32 ((appendAll crc32 calls new).file.take cut))).file
      1 =
        (whole (frame crc32) cut (accepted 1 calls) ++
          accepted (1 + (whole (frame crc32) cut (accepted 1 calls)).length) later, none)) ↔
      (appendAll crc32 calls new).file.take cut = joined (frame crc32) (whole (frame crc32) cut (accepted 1 calls)) ∨
        2 ^ 64 ≤ 1 + (whole (frame crc32) cut (accepted 1 calls)).length := by
  obtain ⟨numbered, packable⟩ := whole_accepted crc32 calls cut
  obtain ⟨torn, file, ends, rest⟩ := cut_log crc32 calls cut
  rw [file]
  generalize whole (frame crc32) cut (accepted 1 calls) = records at *
  rw [openFile_joined numbered packable ends]
  simp only [appendAll_eq]
  constructor
  · intro readable
    by_contra neither
    rw [not_or, Nat.not_le] at neither
    obtain ⟨broken, room⟩ := neither
    have nonempty : torn ≠ [] := fun none => broken (by rw [none, append_nil])
    obtain ⟨record, packable', lsn, isTorn⟩ := rest.resolve_left nonempty
    obtain ⟨type, small, lost⟩ := walk_behind_torn crc32 packable' (by omega) isTorn nonempty
    have read := readable [(type, [])]
    rw [accepted_single room small, ← lsn, joined_cons, joined_nil, append_nil, append_assoc, iterFrom] at read
    obtain ⟨fuel, isFuel⟩ := Nat.exists_eq_add_of_le (show records.length ≤ (joined (frame crc32) records ++
        (torn ++ frame crc32 ⟨record.lsn, type, []⟩)).length + 1 by
      have : records.length ≤ (joined (frame crc32) records).length := joined_length_ge records
      rw [length_append]
      omega)
    rw [isFuel, walk_append packable, max_self, numbered.filter_one] at read
    obtain ⟨yielded, raised⟩ := Prod.mk.inj read
    exact lost _ _ (Prod.ext (append_cancel_left yielded) raised)
  · rintro (exact_cut | full) later
    · rw [exact_cut, ← joined_append, ← append_nil (joined (frame crc32) _),
        iterFrom_joined (forall_mem_append.mpr ⟨packable, accepted_packable⟩) rfl, max_self,
        (numbered.append accepted_numbered).filter_one]
    · rw [accepted_full full, joined_nil, append_nil, append_nil, iterFrom_joined packable ends, max_self,
        numbered.filter_one]

/-- A COMMIT record cut behind its header, then a BEGIN record: the header of the one takes the frame of the other for
its payload. -/
theorem log_unreadable_after_cut : ¬ ∃ crc32 : Bytes → ℕ, ∀ calls cut later,
    iterFrom crc32 (appendAll crc32 later (openFile crc32 ((appendAll crc32 calls new).file.take cut))).file 1 =
      (whole (frame crc32) cut (accepted 1 calls) ++
        accepted (1 + (whole (frame crc32) cut (accepted 1 calls)).length) later, none) := by
  rintro ⟨crc32, always⟩
  have read := always [(RT_COMMIT, [])] 13 [(RT_BEGIN, [])]
  have file : (appendAll crc32 [(RT_BEGIN, [])]
    (openFile crc32 ((appendAll crc32 [(RT_COMMIT, [])] new).file.take 13))).file =
      header ⟨1, RT_COMMIT, []⟩ ++ frame crc32 ⟨1, RT_BEGIN, []⟩ := rfl
  have none_whole : whole (frame crc32) 13 (accepted 1 [(RT_COMMIT, [])]) = [] := rfl
  obtain ⟨stored, expected, behind, found⟩ : ∃ stored expected behind,
      readFrame crc32 (header ⟨1, RT_COMMIT, []⟩ ++ frame crc32 ⟨1, RT_BEGIN, []⟩) =
        some (⟨⟨1, RT_COMMIT, []⟩, stored, expected⟩, behind) := ⟨_, _, _, rfl⟩
  rw [file, none_whole, iterFrom, walk, found] at read
  simp only at read
  split at read
  case isTrue => cases read
  case isFalse => cases read

/-- A call on the log, or closing it and opening it again. -/
inductive LogCall
  | append (type : ℕ) (payload : Bytes)
  | reopen

def LogCall.onFile (wal : WalFile) : LogCall → WalFile
  | append type payload => (WalFile.append crc32 type payload wal).state
  | reopen => openFile crc32 wal.file

def LogCall.onRecords (log : Wal) : LogCall → Wal
  | append type payload => (Wal.append type payload log).state
  | reopen => .openFile log.records

/-- The bytes of the file are the frames of the records. -/
structure Frames (wal : WalFile) (log : Wal) : Prop where
  file : wal = ⟨joined (frame crc32) log.records, log.nextLsn⟩
  packable : ∀ r ∈ log.records, Packable r
  sequence : log.InSequence

variable {crc32} {wal : WalFile} {log : Wal}

theorem Frames.step (frames : Frames crc32 wal log) (call : LogCall) :
    Frames crc32 (call.onFile crc32 wal) (call.onRecords log) := by
  obtain ⟨rfl, packable, sequence⟩ := frames
  cases call with
  | append type payload =>
    rw [LogCall.onFile, append_state, LogCall.onRecords]
    split_ifs with fits
    · rw [Wal.append_apply fits]
      exact ⟨by simp [Wal.push, joined], forall_mem_append.mpr ⟨packable, by simpa using fits⟩,
        sequence.append (Wal.returns_append.mpr ⟨fits, rfl, rfl⟩)⟩
    · rw [Wal.append_apply_of_not fits]
      exact ⟨rfl, packable, sequence⟩
  | reopen =>
    have numbered : NumberedFrom 1 log.records := fun i r there => by
      obtain ⟨inside, rfl⟩ := List.getElem?_eq_some_iff.mp there
      rw [sequence.lsn i inside, Nat.add_comm]
    have opened := openFile_joined numbered packable (show readFrame crc32 [] = none from rfl)
    rw [append_nil, Nat.add_comm, ← sequence.next] at opened
    rw [LogCall.onRecords, Wal.openFile_records sequence]
    exact ⟨opened, packable, sequence⟩

theorem Frames.run (frames : Frames crc32 wal log) (calls : List LogCall) :
    Frames crc32 (calls.foldl (LogCall.onFile crc32) wal) (calls.foldl LogCall.onRecords log) := by
  induction calls generalizing wal log with
  | nil => exact frames
  | cons call calls ih => exact ih (frames.step call)

/-- After any appends and reopenings the file and the records say the same. -/
theorem file_follows_records (calls : List LogCall) :
    let wal := calls.foldl (LogCall.onFile crc32) new
    let log := calls.foldl LogCall.onRecords ⟨[], 1⟩
    wal = ⟨joined (frame crc32) log.records, log.nextLsn⟩ ∧
    ∀ lsn : ℕ, iterFrom crc32 wal.file lsn = (log.iterFrom lsn, none) := by
  intro wal log
  have start : Frames crc32 new ⟨[], 1⟩ := ⟨rfl, by simp, ⟨by simp, rfl⟩⟩
  obtain ⟨same, packable, -⟩ : Frames crc32 wal log := start.run calls
  clear_value wal log
  subst same
  refine ⟨rfl, fun lsn => ?_⟩
  have read := iterFrom_joined packable (show readFrame crc32 [] = none from rfl) lsn
  have least (r : WALRecord) : max (lsn : ℤ) 1 ≤ r.lsn ↔ max lsn 1 ≤ r.lsn := by omega
  rw [append_nil] at read
  simp only [read, Wal.iterFrom, least]

end WalFile

end Tinydb.Tx
