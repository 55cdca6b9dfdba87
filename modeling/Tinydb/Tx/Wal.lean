import Tinydb.Errors
import Tinydb.Lib.Bytes
import Tinydb.Lib.Program

/-! The write-ahead log as a sequence of records (`tx/wal.py`).

A record reaches the file with one write, so the log of a crashed process is a
list of complete records. The frame bytes and their checksum are not part of
this level.
-/

namespace Tinydb.Tx

open Lib List Program

def RT_BEGIN : ℕ := 1
def RT_COMMIT : ℕ := 2
def RT_ROLLBACK : ℕ := 3
def RT_PAGE : ℕ := 4

structure WALRecord where
  lsn : ℕ
  type : ℕ
  payload : Bytes

structure Wal where
  records : List WALRecord
  nextLsn : ℕ

namespace Wal

/-- The frame header has 64 bits for the LSN, 8 for the type and 32 for the length. -/
def Appendable (wal : Wal) (type : ℕ) (payload : Bytes) : Prop :=
  wal.nextLsn < 2 ^ 64 ∧ type < 2 ^ 8 ∧ payload.length < 2 ^ 32

instance (wal : Wal) (type : ℕ) (payload : Bytes) : Decidable (wal.Appendable type payload) :=
  inferInstanceAs (Decidable (_ ∧ _ ∧ _))

def append (type : ℕ) (payload : Bytes) : Program Exc Wal ℕ := do
  let wal ← read
  let lsn := wal.nextLsn
  if wal.Appendable type payload then
    modify fun wal => { wal with records := wal.records ++ [⟨lsn, type, payload⟩] }
    mark
    modify fun wal => { wal with nextLsn := lsn + 1 }
    return lsn
  else
    raise .packRange

/-- `iter_from`: the records with at least the given LSN, in file order. -/
def iterFrom (wal : Wal) (lsn : ℕ) : List WALRecord := wal.records.filter fun record => max lsn 1 ≤ record.lsn

/-- `_recover_lsn`: the walk stops at the first record out of sequence. -/
def recoverLsn : (nextLsn : ℕ) → List WALRecord → ℕ
  | nextLsn, [] => nextLsn
  | nextLsn, record :: rest => if record.lsn ≠ nextLsn then nextLsn else recoverLsn (nextLsn + 1) rest

def openFile (records : List WALRecord) : Wal := ⟨records, recoverLsn 1 records⟩

/-- The records are numbered from 1 without gaps. -/
structure InSequence (wal : Wal) : Prop where
  lsn : ∀ i (inside : i < wal.records.length), wal.records[i].lsn = i + 1
  next : wal.nextLsn = wal.records.length + 1

theorem recoverLsn_of_numbered {records : List WALRecord} (nextLsn : ℕ)
    (numbered : ∀ i (inside : i < records.length), records[i].lsn = nextLsn + i) :
    recoverLsn nextLsn records = nextLsn + records.length := by
  induction records generalizing nextLsn with
  | nil => rfl
  | cons record rest ih =>
    have head : record.lsn = nextLsn := numbered 0 (by simp)
    have tail := ih (nextLsn + 1) fun i inside => by
      have := numbered (i + 1) (by simpa using inside)
      rw [getElem_cons_succ] at this
      omega
    rw [recoverLsn, if_neg (by simpa using head), tail, length_cons]
    omega

variable {wal : Wal} {type : ℕ} {payload : Bytes} {wal' : Wal} {lsn : ℕ}

theorem openFile_records (sequence : wal.InSequence) : openFile wal.records = wal := by
  have numbered := recoverLsn_of_numbered 1 fun i inside => by
    rw [sequence.lsn i inside]
    omega
  rw [openFile, numbered, Nat.add_comm, ← sequence.next]

theorem iterFrom_one (sequence : wal.InSequence) : wal.iterFrom 1 = wal.records := by
  rw [iterFrom, filter_eq_self]
  intro record member
  obtain ⟨i, inside, rfl⟩ := getElem_of_mem member
  simp [sequence.lsn i inside]

def push (wal : Wal) (type : ℕ) (payload : Bytes) : Wal :=
    ⟨wal.records ++ [⟨wal.nextLsn, type, payload⟩], wal.nextLsn + 1⟩

theorem append_apply (fits : wal.Appendable type payload) :
    append type payload wal = ⟨.ok wal.nextLsn, wal.push type payload,
      [{ wal with records := (wal.push type payload).records }]⟩ := by
  simp [append, bind_apply, fits, push]

theorem append_apply_of_not (large : ¬ wal.Appendable type payload) :
    append type payload wal = ⟨.error .packRange, wal, []⟩ := by
  simp [append, bind_apply, large]

theorem returns_append : (append type payload).Returns wal lsn wal' ↔
      wal.Appendable type payload ∧ lsn = wal.nextLsn ∧ wal' = wal.push type payload := by
  by_cases fits : wal.Appendable type payload
  · simp only [Program.Returns, append_apply fits, Except.ok.injEq, fits, true_and]
    exact and_congr eq_comm eq_comm
  · simp [Program.Returns, append_apply_of_not fits, fits]

theorem InSequence.append (sequence : wal.InSequence)
    (appended : (append type payload).Returns wal lsn wal') : wal'.InSequence := by
  obtain ⟨-, -, rfl⟩ := returns_append.mp appended
  refine ⟨fun i inside => ?_, by simp [push, sequence.next]⟩
  simp only [push, length_append, length_cons, length_nil] at inside ⊢
  by_cases old : i < wal.records.length
  · rw [getElem_append_left old, sequence.lsn i old]
  · have last : i = wal.records.length := by omega
    subst last
    simp [sequence.next]

end Wal

end Tinydb.Tx
