import Tinydb.Tx.WalFile

/-! Cutting the log at a record (`WAL.truncate_to`). The walk reads headers only and takes the lengths in them on
trust. -/

namespace Tinydb.Tx.WalFile

open Lib Program List

/-- The offset of the first frame with the number or a higher one. Every frame takes bytes, so the length of the file
is fuel enough. -/
def findFrame (lsn : ℤ) : (fuel offset : ℕ) → Bytes → Option ℕ
  | 0, _, _ => none
  | fuel + 1, offset, rest =>
    let header := rest.take HEADER_SIZE
    if header.length < HEADER_SIZE then none
    else if lsn ≤ unpackBE (slice header 0 8) then some offset
    else
      let fullLen := HEADER_SIZE + CRC_SIZE + unpackBE (slice header 9 4)
      findFrame lsn fuel (offset + fullLen) (rest.drop fullLen)

def truncateTo (lsn : ℤ) : Program Exc WalFile Unit := do
  let wal ← read
  if lsn < 1 ∨ wal.nextLsn < lsn then
    raise ⟨.valueError, "truncate_to lsn=" ++ toString lsn ++ " out of range [1, " ++ toString wal.nextLsn ++ "]"⟩
  else
    match findFrame lsn (wal.file.length + 1) 0 wal.file with
    | some offset => modify fun wal => ⟨wal.file.take offset, lsn.toNat⟩
    | none => return

variable {crc32 : Bytes → ℕ} {early late records : List WALRecord} {first fuel : ℕ}

theorem findFrame_joined (numbered : NumberedFrom first (early ++ late)) (packable : ∀ r ∈ early ++ late, Packable r)
    (enough : early.length < fuel) (offset : ℕ) :
    findFrame (first + early.length) fuel offset (joined (frame crc32) (early ++ late)) =
      if late = [] then none else some (offset + (joined (frame crc32) early).length) := by
  have fields (record : WALRecord) (rest : Bytes) : (frame crc32 record ++ rest).take HEADER_SIZE = header record := by
    rw [frame, body, append_assoc, append_assoc, ← header_length record, take_left]
  induction early generalizing first fuel offset with
  | nil =>
    obtain ⟨fuel, rfl⟩ := Nat.exists_eq_succ_of_ne_zero (Nat.ne_zero_of_lt enough)
    cases late with
    | nil => rfl
    | cons record late =>
      have lsn : record.lsn = first := numbered 0 record rfl
      rw [nil_append, joined_cons, findFrame]
      simp [fields, header_length, (header_fields (packable record (by simp))).1, lsn]
  | cons record early ih =>
    obtain ⟨head, packable⟩ := forall_mem_cons.mp packable
    have lsn : record.lsn = first := numbered 0 record rfl
    have size : HEADER_SIZE + CRC_SIZE + record.payload.length = (frame crc32 record).length := by
      rw [frame_length]
      omega
    have more : ¬ ((first : ℤ) + (record :: early).length ≤ first) := by simp
    obtain ⟨fuel, rfl⟩ := Nat.exists_eq_succ_of_ne_zero (Nat.ne_zero_of_lt enough)
    have behind := ih numbered.tail packable (Nat.lt_of_succ_lt_succ enough) (offset + (frame crc32 record).length)
    rw [cons_append, joined_cons, findFrame]
    simp only [fields, header_length, (header_fields head).1, (header_fields head).2.2, lsn,
      lt_irrefl, if_false, more, size, drop_left, joined_cons, length_append, ← Nat.add_assoc]
    rw [← behind]
    congr 1
    push_cast [length_cons]
    omega

theorem NumberedFrom.filter_lt (numbered : NumberedFrom first (early ++ late)) :
    ((early ++ late).filter fun r => r.lsn < first + early.length) = early := by
  rw [filter_append, filter_eq_self.mpr, filter_eq_nil_iff.mpr, append_nil]
  · intro r among
    obtain ⟨i, there⟩ := mem_iff_getElem?.mp among
    have := numbered (early.length + i) r (by rwa [getElem?_append_right (by omega), Nat.add_sub_cancel_left])
    rw [decide_eq_true_eq]
    omega
  · intro r among
    obtain ⟨i, there⟩ := mem_iff_getElem?.mp among
    have inside := (List.getElem?_eq_some_iff.mp there).1
    have := numbered i r (by rwa [getElem?_append_left inside])
    rw [decide_eq_true_eq]
    omega

/-- After the log was cut at a number and more was appended, it has the records below the number and the new
ones, numbered on from it; opened again it is the same. -/
theorem truncated_log_reads (numbered : NumberedFrom 1 records) (packable : ∀ r ∈ records, Packable r)
    {lsn : ℕ} (low : 1 ≤ lsn) (high : lsn ≤ records.length + 1) (calls : List (ℕ × Bytes)) :
    ∃ cut, (truncateTo lsn).Returns ⟨joined (frame crc32) records, records.length + 1⟩ () cut ∧
      iterFrom crc32 (appendAll crc32 calls cut).file 1 =
      ((records.filter fun r => r.lsn < lsn) ++ accepted lsn calls, none) ∧
      NumberedFrom lsn (accepted lsn calls) ∧ openFile crc32 (appendAll crc32 calls cut).file =
      appendAll crc32 calls cut := by
  obtain ⟨early, late, rfl, number⟩ : ∃ early late, records = early ++ late ∧ lsn = 1 + early.length :=
    ⟨records.take (lsn - 1), records.drop (lsn - 1), (take_append_drop ..).symm, by rw [length_take]; omega⟩
  subst number
  have cut : (truncateTo ((1 + early.length : ℕ) : ℤ)).Returns
    ⟨joined (frame crc32) (early ++ late), (early ++ late).length + 1⟩ ()
      ⟨joined (frame crc32) early, 1 + early.length⟩ := by
    have size : (early ++ late).length ≤ (joined (frame crc32) (early ++ late)).length := joined_length_ge _
    have found : findFrame ((1 : ℕ) + early.length) _ 0 (joined (frame crc32) (early ++ late)) = _ :=
      findFrame_joined numbered packable
      (show early.length < (joined (frame crc32) (early ++ late)).length + 1 by rw [length_append] at size; omega) 0
    have inRange : ¬ (((1 + early.length : ℕ) : ℤ) < 1 ∨ (((early ++ late).length + 1 : ℕ) : ℤ) <
      ((1 + early.length : ℕ) : ℤ)) := by
      rw [length_append]
      omega
    rw [truncateTo, returns_read_bind, if_neg inRange, Nat.cast_add, found]
    cases late with
    | nil =>
      rw [if_pos rfl, append_nil, Nat.add_comm 1]
      exact returns_pure.mpr ⟨rfl, rfl⟩
    | cons record late =>
      rw [if_neg (cons_ne_nil record late), Nat.zero_add]
      refine (returns_modify ..).mpr ?_
      rw [joined_append, take_left]
      rfl
  have whole : NumberedFrom 1 (early ++ accepted (1 + early.length) calls) :=
    (numbered.front (List.prefix_append ..)).append accepted_numbered
  have fits : ∀ r ∈ early ++ accepted (1 + early.length) calls, Packable r := by
    intro r among
    exact (mem_append.mp among).elim (fun old => packable r (mem_append_left _ old)) (accepted_packable r)
  refine ⟨_, cut, ?_, accepted_numbered, ?_⟩
  · have reads : iterFrom crc32 (joined (frame crc32) (early ++ accepted (1 + early.length) calls) ++ []) 1 = _ :=
      iterFrom_joined fits rfl 1
    rw [appendAll_eq, ← joined_append, numbered.filter_lt, ← append_nil (joined _ _), reads,
      whole.filter_max, whole.filter_one]
  · have opens : openFile crc32 (joined (frame crc32) (early ++ accepted (1 + early.length) calls) ++ []) = _ :=
      openFile_joined whole fits rfl
    rw [append_nil, length_append, ← Nat.add_assoc] at opens
    rw [appendAll_eq, ← joined_append, opens]

theorem truncated_log_reads_middle : NumberedFrom 1 [⟨1, 1, [7]⟩, ⟨2, 4, []⟩, ⟨3, 2, [7]⟩] ∧
    ∃ cut, (truncateTo 2).Returns ⟨joined (frame List.length) [⟨1, 1, [7]⟩, ⟨2, 4, []⟩, ⟨3, 2, [7]⟩], 4⟩ () cut ∧
      iterFrom List.length (appendAll List.length [(3, [9])] cut).file 1 = ([⟨1, 1, [7]⟩, ⟨2, 3, [9]⟩], none) := by
  have numbered : NumberedFrom 1 (accepted 1 [(1, [7]), (4, []), (2, [7])]) := accepted_numbered
  obtain ⟨cut, returned, reads, -⟩ := truncated_log_reads numbered (by decide) (show 1 ≤ 2 by decide)
    (by decide) [(3, [9])]
  exact ⟨numbered, cut, returned, reads⟩

end Tinydb.Tx.WalFile
