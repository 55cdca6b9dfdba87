import Tinydb.Tx.Manager
import Tinydb.Tx.Replay

/-! One process lifetime of a transaction manager, as its log records it.

A session is a sequence of page writes outside transactions and of whole
transactions, possibly cut inside a transaction. Its log is computed from the
sequence alone: transactions are numbered in order and write in one run each.
-/

namespace Tinydb.Tx

open Lib Program Storage TransactionManager

/-- A new image for a page. Only the heap logs its writes, and its pages are pages of the file
behind the reserved ones; the header counts them in 32 bits. -/
structure ImageWrite where
  pid : ℕ
  after : Page
  unreserved : RESERVED_PAGES ≤ pid
  counted : U32 (pid + 1)

theorem fourth_unreserved : RESERVED_PAGES ≤ 4 := by decide

theorem fourth_counted : U32 (4 + 1) := by decide

def ImageWrite.fourth (after : Page) : ImageWrite := ⟨4, after, fourth_unreserved, fourth_counted⟩

/-- A page write as it is logged, with the image it replaces. -/
structure PageWrite extends ImageWrite where
  before : Page

namespace PageWrite

def log (write : PageWrite) : TxM Unit := logPageWrite write.pid write.before.bytes write.after.bytes

def touch (txId : ℕ) (write : PageWrite) : PageTouch := ⟨txId, write.pid, write.before, write.after⟩

end PageWrite

theorem ImageWrite.nonzero (write : ImageWrite) : write.pid ≠ 0 :=
  Nat.pos_iff_ne_zero.mp (Nat.lt_of_lt_of_le (by decide) write.unreserved)

theorem ImageWrite.dataPage (write : ImageWrite) : DataPage write.pid := ⟨write.nonzero, write.counted⟩

inductive Ending where
  | commit | rollback
  deriving DecidableEq, Repr

namespace Ending

def run (tx : TransactionContext) : Ending → TxM Unit
  | commit => TransactionManager.commit tx
  | rollback => TransactionManager.rollback tx

def entry (txId : ℕ) : Ending → LogEntry
  | commit => .committed txId
  | rollback => .rolledBack txId

def state : Ending → TxState
  | commit => .committed
  | rollback => .rolledBack

end Ending

inductive Piece (W : Type) where
  | autocommit (write : W)
  | transaction (writes : List W) (ending : Ending)

/-- The pieces that ran to their end, and the writes of a transaction that did not. -/
structure Session (W : Type) where
  pieces : List (Piece W)
  unfinished : Option (List W)

variable {W : Type} (write : W → TxM Unit)

def Piece.run : Piece W → TxM Unit
  | autocommit w => write w
  | transaction writes ending => do
    let tx ← begin
    forEach writes write
    ending.run tx

def Session.run (session : Session W) : TxM Unit := do
  forEach session.pieces (Piece.run write)
  match session.unfinished with
  | none => return
  | some writes =>
    let _ ← begin
    forEach writes write

def Piece.used : Piece W → ℕ
  | autocommit _ => 0
  | transaction _ _ => 1

def Piece.commits : Piece W → Bool
  | autocommit _ => true
  | transaction _ ending => ending = .commit

def used (pieces : List (Piece W)) : ℕ := (pieces.map Piece.used).sum

@[simp] theorem used_nil : used ([] : List (Piece W)) = 0 := rfl

@[simp] theorem used_append (early late : List (Piece W)) : used (early ++ late) = used early + used late := by
  simp [used]

@[simp] theorem used_singleton (piece : Piece W) : used [piece] = piece.used := by simp [used]

def Piece.entries (number : ℕ) : Piece PageWrite → List LogEntry
  | autocommit write => [.page (write.touch 0)]
  | transaction writes ending =>
    .began number :: (writes.map fun write => .page (write.touch number)) ++ [ending.entry number]

/-- The log of the pieces when the next transaction number is `number`. -/
def entriesFrom (number : ℕ) : List (Piece PageWrite) → List LogEntry
  | [] => []
  | piece :: rest => piece.entries number ++ entriesFrom (number + piece.used) rest

def Session.entries (session : Session PageWrite) : List LogEntry :=
  entriesFrom 1 session.pieces ++
    match session.unfinished with
    | none => []
    | some writes => .began (1 + used session.pieces) ::
        writes.map fun write => .page (write.touch (1 + used session.pieces))

theorem entriesFrom_append (number : ℕ) (early late : List (Piece PageWrite)) :
    entriesFrom number (early ++ late) = entriesFrom number early ++ entriesFrom (number + used early) late := by
  induction early generalizing number with
  | nil => simp [entriesFrom]
  | cons piece rest ih =>
    simp only [List.cons_append, entriesFrom, ih, List.append_assoc]
    congr 2
    simp [used, Nat.add_assoc]

/-- Between pieces the manager has no transaction open. -/
structure Idle (mgr : TransactionManager) (entries : List LogEntry) : Prop where
  holds : mgr.wal.Holds entries
  idle : mgr.activeTx = none

variable {mgr mgr' : TransactionManager} {entries : List LogEntry} {writes : List PageWrite} {piece : Piece PageWrite}
  {pieces : List (Piece PageWrite)}

theorem forEach_log_frame (ran : (forEach writes PageWrite.log).Returns mgr () mgr') :
    mgr'.activeTx = mgr.activeTx ∧ mgr'.nextTxId = mgr.nextTxId := by
  induction writes generalizing mgr with
  | nil =>
    obtain rfl := returns_forEach_nil.mp ran
    exact ⟨rfl, rfl⟩
  | cons write rest ih =>
    obtain ⟨middle, first, others⟩ := returns_forEach_cons.mp ran
    obtain ⟨-, rfl⟩ := returns_logPageWrite.mp first
    have rest := ih others
    exact rest

theorem forEach_log (ran : (forEach writes PageWrite.log).Returns mgr () mgr') (holds : mgr.wal.Holds entries) :
    mgr'.wal.Holds (entries ++ writes.map fun write => .page (write.touch mgr.currentTxId)) := by
  induction writes generalizing mgr entries with
  | nil =>
    obtain rfl := returns_forEach_nil.mp ran
    simpa using holds
  | cons write rest ih =>
    obtain ⟨middle, first, others⟩ := returns_forEach_cons.mp ran
    obtain ⟨room, rfl⟩ := returns_logPageWrite.mp first
    have held := ih others (holds_logging holds room)
    rwa [List.append_assoc] at held

theorem Ending.holds_of_returns {ending : Ending} {tx : TransactionContext}
    (ran : (ending.run tx).Returns mgr () mgr') (holds : mgr.wal.Holds entries) :
    Idle mgr' (entries ++ [ending.entry tx.txId]) ∧ mgr'.nextTxId = mgr.nextTxId := by
  cases ending with
  | commit =>
    obtain ⟨-, room, rfl⟩ := TransactionManager.returns_commit.mp ran
    exact ⟨⟨holds_logging holds room, rfl⟩, rfl⟩
  | rollback =>
    obtain ⟨-, room, pager, -, rfl⟩ := TransactionManager.returns_rollback.mp ran
    exact ⟨⟨holds_logging holds room, rfl⟩, rfl⟩

theorem Piece.idle_of_returns (ran : (piece.run PageWrite.log).Returns mgr () mgr') (idle : Idle mgr entries) :
    Idle mgr' (entries ++ piece.entries mgr.nextTxId) ∧ mgr'.nextTxId = mgr.nextTxId + piece.used := by
  cases piece with
  | autocommit write =>
    obtain ⟨room, rfl⟩ := returns_logPageWrite.mp ran
    have zero : mgr.touching write.pid write.before write.after = write.touch 0 := by
      simp [touching, currentTxId, idle.idle, PageWrite.touch]
    have held := holds_logging idle.holds room
    rw [zero] at held
    refine ⟨⟨?_, idle.idle⟩, rfl⟩
    rwa [logged, zero]
  | transaction writes ending =>
    rw [Piece.run] at ran
    obtain ⟨tx, begun, opened, ran⟩ := returns_bind.mp ran
    obtain ⟨_, written, wrote, closed⟩ := returns_bind.mp ran
    obtain ⟨-, room, rfl, rfl⟩ := returns_begin.mp opened
    have held := forEach_log wrote (holds_logging idle.holds room)
    obtain ⟨ended, number⟩ := Ending.holds_of_returns closed held
    refine ⟨?_, number.trans (forEach_log_frame wrote).2⟩
    simpa [Piece.entries, currentTxId, begun, opening]
      using ended

theorem idle_of_returns
    (ran : (forEach pieces (Piece.run PageWrite.log)).Returns mgr () mgr') (idle : Idle mgr entries) :
    Idle mgr' (entries ++ entriesFrom mgr.nextTxId pieces) ∧ mgr'.nextTxId = mgr.nextTxId + used pieces := by
  induction pieces generalizing mgr entries with
  | nil =>
    obtain rfl := returns_forEach_nil.mp ran
    exact ⟨by simpa [entriesFrom] using idle, rfl⟩
  | cons piece rest ih =>
    obtain ⟨middle, first, others⟩ := returns_forEach_cons.mp ran
    obtain ⟨idle', next⟩ := Piece.idle_of_returns first idle
    obtain ⟨last, number⟩ := ih others idle'
    rw [List.append_assoc, next] at last
    exact ⟨last, by rw [number, next]; simp [used, Nat.add_assoc]⟩

end Tinydb.Tx
