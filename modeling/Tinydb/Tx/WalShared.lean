import Tinydb.Tx.WalFile

/-! Two logs on one file (`tx/wal.py` with `use_process_lock=True`).

The lock makes the write of a frame atomic. The number of the frame is chosen before
from a counter of the object, which the other one does not see.
-/

namespace Tinydb.Tx.WalFile

open Lib List Program Function

inductive Writer where
  | first | second
  deriving DecidableEq, Repr

structure Shared where
  file : Bytes
  nextLsn : Writer → ℕ

namespace Shared

def of (who : Writer) (shared : Shared) : WalFile := ⟨shared.file, shared.nextLsn who⟩

def put (who : Writer) (wal : WalFile) (shared : Shared) : Shared :=
  ⟨wal.file, update shared.nextLsn who wal.nextLsn⟩

variable (crc32 : Bytes → ℕ)

def openBoth (file : Bytes) : Shared := ⟨file, fun _ => (openFile crc32 file).nextLsn⟩

def append (who : Writer) (type : ℕ) (payload : Bytes) : Program Exc Shared ℕ :=
  zoom (of who) (put who) (WalFile.append crc32 type payload)

def interleave : List (Writer × ℕ × Bytes) → Shared → Shared × List (Writer × ℕ)
  | [], shared => (shared, [])
  | (who, type, payload) :: rest, shared =>
    let call := append crc32 who type payload shared
    let (last, returned) := interleave rest call.state
    match call.result with
    | .ok lsn => (last, (who, lsn) :: returned)
    | .error _ => (last, returned)

variable {crc32 : Bytes → ℕ} {shared : Shared} {who : Writer} {type : ℕ} {payload : Bytes}
  {calls : List (Writer × ℕ × Bytes)}

def appended (crc32 : Bytes → ℕ) (who : Writer) (type : ℕ) (payload : Bytes) (shared : Shared) : Shared :=
  ⟨shared.file ++ frame crc32 ⟨shared.nextLsn who, type, payload⟩, update shared.nextLsn who (shared.nextLsn who + 1)⟩

theorem appended_same : (appended crc32 who type payload shared).nextLsn who = shared.nextLsn who + 1 := update_self ..

theorem appended_other {other : Writer} (different : other ≠ who) :
    (appended crc32 who type payload shared).nextLsn other = shared.nextLsn other := update_of_ne different ..

theorem append_ok (crc32 : Bytes → ℕ) (packable : Packable ⟨shared.nextLsn who, type, payload⟩) :
    (append crc32 who type payload shared).result = .ok (shared.nextLsn who) ∧
      (append crc32 who type payload shared).state = appended crc32 who type payload shared := by
  simp [append, zoom_apply, WalFile.append, bind_apply, put, of, packable, appended]

theorem append_error (crc32 : Bytes → ℕ) (unpackable : ¬ Packable ⟨shared.nextLsn who, type, payload⟩) :
    (append crc32 who type payload shared).result = .error .packRange ∧
      (append crc32 who type payload shared).state = shared := by
  simp [append, zoom_apply, WalFile.append, bind_apply, put, of, unpackable]

theorem interleave_ok (packable : Packable ⟨shared.nextLsn who, type, payload⟩) (rest : List (Writer × ℕ × Bytes)) :
    interleave crc32 ((who, type, payload) :: rest) shared =
      ((interleave crc32 rest (appended crc32 who type payload shared)).1,
        (who, shared.nextLsn who) :: (interleave crc32 rest (appended crc32 who type payload shared)).2) := by
  obtain ⟨result, state⟩ := append_ok crc32 packable
  rw [interleave]
  simp only [result, state]

theorem interleave_error (unpackable : ¬ Packable ⟨shared.nextLsn who, type, payload⟩)
    (rest : List (Writer × ℕ × Bytes)) :
    interleave crc32 ((who, type, payload) :: rest) shared = interleave crc32 rest shared := by
  obtain ⟨result, state⟩ := append_error crc32 unpackable
  rw [interleave]
  simp only [result, state]

def Acceptable (call : Writer × ℕ × Bytes) : Prop := call.2.1 < 2 ^ 8 ∧ call.2.2.length < 2 ^ 32

theorem first_returned (room : shared.nextLsn who < 2 ^ 64)
    (calling : ∃ call ∈ calls, call.1 = who ∧ Acceptable call) :
    (who, shared.nextLsn who) ∈ (interleave crc32 calls shared).2 := by
  induction calls generalizing shared with
  | nil => simp at calling
  | cons call rest ih =>
    obtain ⟨caller, type, payload⟩ := call
    by_cases packable : Packable ⟨shared.nextLsn caller, type, payload⟩
    · rw [interleave_ok packable]
      by_cases mine : caller = who
      · subst mine
        exact mem_cons_self
      · have same : (appended crc32 caller type payload shared).nextLsn who = shared.nextLsn who :=
          appended_other (Ne.symm mine)
        have returned := @ih (appended crc32 caller type payload shared) (by rwa [same]) (by simpa [mine] using calling)
        rw [same] at returned
        exact mem_cons_of_mem _ returned
    · rw [interleave_error packable]
      refine ih room ?_
      obtain ⟨call, among, isMine, acceptable⟩ := calling
      rcases mem_cons.mp among with rfl | among
      · have mine : caller = who := isMine
        exact (packable ⟨mine ▸ room, acceptable⟩).elim
      · exact ⟨call, among, isMine, acceptable⟩

theorem interleave_alone (crc32 : Bytes → ℕ) (shared : Shared) (who : Writer)
    (alone : ∀ call ∈ calls, call.1 ≠ who → ¬ Packable ⟨shared.nextLsn call.1, call.2.1, call.2.2⟩) :
    ∃ records, (interleave crc32 calls shared).1.file = shared.file ++ joined (frame crc32) records ∧
      NumberedFrom (shared.nextLsn who) records ∧ (∀ r ∈ records, Packable r) ∧
      ∀ pair ∈ (interleave crc32 calls shared).2, pair.1 = who := by
  induction calls generalizing shared with
  | nil => exact ⟨[], by simp [interleave], by simp [NumberedFrom], by simp, by simp [interleave]⟩
  | cons call rest ih =>
    obtain ⟨caller, type, payload⟩ := call
    obtain ⟨first, alone⟩ := forall_mem_cons.mp alone
    by_cases packable : Packable ⟨shared.nextLsn caller, type, payload⟩
    · have mine : caller = who := by
        by_contra other
        exact first other packable
      subst mine
      obtain ⟨records, file, numbered, packed, returned⟩ :=
        ih (appended crc32 caller type payload shared) fun call among other => by
          rw [appended_other other]
          exact alone call among other
      rw [appended_same] at numbered
      rw [interleave_ok packable]
      refine ⟨⟨shared.nextLsn caller, type, payload⟩ :: records, ?_, numbered.cons rfl,
        forall_mem_cons.mpr ⟨packable, packed⟩, forall_mem_cons.mpr ⟨rfl, returned⟩⟩
      rw [joined_cons, ← append_assoc]
      exact file
    · rw [interleave_error packable]
      exact ih shared alone

/-- The frames of the file have increasing numbers, and no number was returned to both. -/
def Unique (crc32 : Bytes → ℕ) (ended : Shared × List (Writer × ℕ)) : Prop :=
  ((iterFrom crc32 ended.1.file 1).1.map WALRecord.lsn).Pairwise (· < ·) ∧
    ∀ lsn, ¬ ((Writer.first, lsn) ∈ ended.2 ∧ (Writer.second, lsn) ∈ ended.2)

theorem openBoth_eq (crc32 : Bytes → ℕ) (earlier : List (ℕ × Bytes)) :
    openBoth crc32 (appendAll crc32 earlier new).file =
    ⟨joined (frame crc32) (accepted 1 earlier), fun _ => 1 + (accepted 1 earlier).length⟩ := by
  have numbered : NumberedFrom 1 (accepted 1 earlier) := accepted_numbered
  have whole : openFile crc32 (joined (frame crc32) (accepted 1 earlier) ++ []) =
      ⟨joined (frame crc32) (accepted 1 earlier) ++ [], 1 + (accepted 1 earlier).length⟩ :=
    openFile_joined numbered accepted_packable rfl
  rw [append_nil] at whole
  rw [openBoth, appendAll_eq]
  simp only [new, nil_append, whole]

/-- Numbers stay unique iff only one of the two writes to the file (or the log has no more numbers to give). -/
theorem lsns_unique_iff (crc32 : Bytes → ℕ) (earlier : List (ℕ × Bytes)) (calls : List (Writer × ℕ × Bytes)) :
    Unique crc32 (interleave crc32 calls (openBoth crc32 (appendAll crc32 earlier new).file)) ↔
      (∃ who, ∀ call ∈ calls, Acceptable call → call.1 = who) ∨ 2 ^ 64 ≤ 1 + (accepted 1 earlier).length := by
  have numbered : NumberedFrom 1 (accepted 1 earlier) := accepted_numbered
  rw [openBoth_eq]
  constructor
  · rintro ⟨-, once⟩
    by_contra neither
    rw [not_or, Nat.not_le, not_exists] at neither
    obtain ⟨both, room⟩ := neither
    have calling (who : Writer) : ∃ call ∈ calls, call.1 = who ∧ Acceptable call := by
      by_contra silent
      -- then every acceptable call is the other one's
      refine both (match who with | .first => .second | .second => .first) fun call among acceptable => ?_
      have other : call.1 ≠ who := fun mine => silent ⟨call, among, mine, acceptable⟩
      cases who <;> cases isCaller : call.1 <;> simp_all
    exact once _ ⟨first_returned room (calling .first), first_returned room (calling .second)⟩
  · intro condition
    obtain ⟨who, alone⟩ : ∃ who, ∀ call ∈ calls, call.1 ≠ who →
      ¬ Packable ⟨1 + (accepted 1 earlier).length, call.2.1, call.2.2⟩ := by
      rcases condition with ⟨who, only⟩ | full
      · exact ⟨who, fun call among other packable => other (only call among packable.2)⟩
      · exact ⟨.first, fun call _ _ packable => Nat.not_le.mpr packable.1 full⟩
    obtain ⟨records, file, later, packable, returned⟩ := interleave_alone crc32
      ⟨joined (frame crc32) (accepted 1 earlier), fun _ => 1 + (accepted 1 earlier).length⟩ who alone
    have all := numbered.append later
    refine ⟨?_, fun lsn ⟨one, two⟩ => ?_⟩
    · rw [file, ← joined_append, ← append_nil (joined _ _),
        iterFrom_joined (forall_mem_append.mpr ⟨accepted_packable, packable⟩) rfl, max_self, all.filter_one]
      exact all.increasing
    · have first := returned _ one
      have second := returned _ two
      rw [← first] at second
      cases second

/-- Both open the same log, then each appends a record. -/
theorem lsn_returned_twice : ¬ ∃ crc32 : Bytes → ℕ, ∀ earlier calls,
    Unique crc32 (interleave crc32 calls (openBoth crc32 (appendAll crc32 earlier new).file)) := by
  rintro ⟨crc32, always⟩
  have returned : (interleave crc32 [(.first, RT_BEGIN, []), (.second, RT_BEGIN, [])]
      (openBoth crc32 (appendAll crc32 [] new).file)).2 = [(.first, 1), (.second, 1)] := rfl
  refine (always [] [(.first, RT_BEGIN, []), (.second, RT_BEGIN, [])]).2 1 ?_
  rw [returned]
  decide

end Shared

end Tinydb.Tx.WalFile
