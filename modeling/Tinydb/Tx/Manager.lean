import Tinydb.Concurrent.WaitGraph
import Tinydb.Tx.Log

/-! The transaction manager (`tx/manager.py`).

It owns the pager and the log. Transactions are numbered from 1 by each manager;
number 0 stands for a page write outside any transaction. The write lock is
re-entrant within a thread and is left out: every run below is one thread's.
-/

namespace Tinydb.Tx

open Lib Program Storage Concurrent Pager

structure TransactionContext where
  txId : ℕ
  beginLsn : ℕ
  snapshotLsn : ℕ
  deriving DecidableEq

structure TransactionManager where
  pager : Pager
  wal : Wal
  deadlock : DeadlockDetector
  nextTxId : ℕ
  activeTx : Option TransactionContext
  loggedPages : List (ℕ × Bytes)

abbrev TxM := Program Exc TransactionManager

namespace TransactionManager

def new (pager : Pager) (wal : Wal) : TransactionManager :=
  { pager, wal, deadlock := .new, nextTxId := 1, activeTx := none, loggedPages := [] }

def onPager {α : Type} (p : PagerM α) : TxM α := zoom (·.pager) (fun pager mgr => { mgr with pager }) p

def onWal {α : Type} (p : Program Exc Wal α) : TxM α := zoom (·.wal) (fun wal mgr => { mgr with wal }) p

def encodeTxId (txId : ℕ) : Except Exc Bytes :=
  if txId < 2 ^ 64 then .ok (packBE 8 txId) else .error .packRange

/-- Append a control record of transaction `txId`. -/
def appendControl (type txId : ℕ) : TxM ℕ := do
  let payload ← ofExcept (encodeTxId txId)
  onWal (Wal.append type payload)

def begin : TxM TransactionContext := do
  let mgr ← read
  let newTxId := mgr.nextTxId
  match mgr.activeTx with
  | some active =>
    -- the new transaction would wait for the active one: ask the detector, then refuse either way
    let waiting := mgr.deadlock.addWait newTxId active.txId
    modify fun mgr => { mgr with deadlock := waiting.remove newTxId }
    if waiting.detectCycle.isSome then
      raise ⟨.deadlockError, "transaction " ++ toString newTxId ++
        " would deadlock with active transaction " ++ toString active.txId⟩
    else
      raise ⟨.nestedTransactionError, "tinydb v0.1 does not support nested transactions"⟩
  | none =>
    modify fun mgr => { mgr with nextTxId := newTxId + 1 }
    let beginLsn ← appendControl RT_BEGIN newTxId
    let tx : TransactionContext := ⟨newTxId, beginLsn, mgr.pager.lastLsn⟩
    modify fun mgr => { mgr with activeTx := some tx, loggedPages := [] }
    return tx

def currentTxId (mgr : TransactionManager) : ℕ := (mgr.activeTx.map (·.txId)).getD 0

def logPageWrite (pageId : ℕ) (before after : Bytes) : TxM Unit := do
  let mgr ← read
  let payload ← ofExcept (encodePageRecord mgr.currentTxId pageId before after)
  let _ ← onWal (Wal.append RT_PAGE payload)
  modify fun mgr => { mgr with loggedPages := mgr.loggedPages ++ [(pageId, before)] }

def forget (txId : ℕ) : TxM Unit :=
  modify fun mgr => { mgr with
    deadlock := mgr.deadlock.remove txId, loggedPages := [], activeTx := none }

def commit (tx : TransactionContext) : TxM Unit := do
  let mgr ← read
  if mgr.activeTx ≠ some tx then
    raise ⟨.valueError, "commit(): not the active transaction"⟩
  else
    let commitLsn ← appendControl RT_COMMIT tx.txId
    -- the stamp in the header is an aid; its failure does not fail the commit
    (onPager (setLastLsn commitLsn)).catching fun _ => pure ()
    forget tx.txId

def rollback (tx : TransactionContext) : TxM Unit := do
  let mgr ← read
  if mgr.activeTx ≠ some tx then
    raise ⟨.valueError, "rollback(): not the active transaction"⟩
  else
    let _ ← appendControl RT_ROLLBACK tx.txId
    let mgr ← read
    forEach mgr.loggedPages.reverse fun logged => onPager (writePage logged.1 logged.2)
    forget tx.txId

/-- The manager after `entry` went to its log. -/
def logging (mgr : TransactionManager) (entry : LogEntry) : TransactionManager :=
  { mgr with wal := mgr.wal.push entry.type entry.payload }

def CanLog (mgr : TransactionManager) (entry : LogEntry) : Prop :=
    entry.Fits ∧ mgr.wal.Appendable entry.type entry.payload

variable {mgr mgr' : TransactionManager} {entry : LogEntry} {tx : TransactionContext}

theorem holds_logging {entries : List LogEntry} (holds : mgr.wal.Holds entries)
    (fits : mgr.CanLog entry) : (mgr.logging entry).wal.Holds (entries ++ [entry]) := holds.push fits.1 fits.2

theorem canLog_of_fits (fits : entry.Fits) (room : mgr.wal.nextLsn < 2 ^ 64) :
    mgr.CanLog entry := ⟨fits, room, entry.type_lt, entry.payload_length_lt⟩

theorem onPager_lawful : Program.Lawful (fun mgr : TransactionManager => mgr.pager)
    fun pager mgr => { mgr with pager } := ⟨fun _ _ => rfl, fun _ => rfl, fun _ _ _ => rfl⟩

theorem returns_appendControl (entry : LogEntry) {txId lsn : ℕ} (payload : entry.payload = packBE 8 txId)
    (fits : entry.Fits ↔ txId < 2 ^ 64) : (appendControl entry.type txId).Returns mgr lsn mgr' ↔
      mgr.CanLog entry ∧ lsn = mgr.wal.nextLsn ∧ mgr' = mgr.logging entry := by
  rw [appendControl, returns_bind]
  by_cases small : txId < 2 ^ 64
  · have encoded : encodeTxId txId = .ok entry.payload := by rw [encodeTxId, if_pos small, payload]
    simp only [encoded, returns_ofExcept, Except.ok.injEq, onWal, returns_zoom, Wal.returns_append]
    constructor
    · rintro ⟨_, _, ⟨rfl, rfl⟩, _, ⟨room, rfl, rfl⟩, rfl⟩
      exact ⟨⟨fits.mpr small, room⟩, rfl, rfl⟩
    · rintro ⟨⟨-, room⟩, rfl, rfl⟩
      exact ⟨_, _, ⟨rfl, rfl⟩, _, ⟨room, rfl, rfl⟩, rfl⟩
  · have refused : encodeTxId txId = .error .packRange := by rw [encodeTxId, if_neg small]
    simp only [refused, returns_ofExcept, reduceCtorEq, false_and, exists_const, exists_false, CanLog, fits,
      small]

def opening (mgr : TransactionManager) : TransactionContext := ⟨mgr.nextTxId, mgr.wal.nextLsn, mgr.pager.lastLsn⟩

def begun (mgr : TransactionManager) : TransactionManager :=
  { mgr.logging (.began mgr.nextTxId) with
    nextTxId := mgr.nextTxId + 1, activeTx := some mgr.opening, loggedPages := [] }

theorem returns_begin : begin.Returns mgr tx mgr' ↔
      mgr.activeTx = none ∧ mgr.CanLog (.began mgr.nextTxId) ∧ tx = mgr.opening ∧ mgr' = mgr.begun := by
  rw [begin, returns_read_bind]
  cases mgr.activeTx with
  | some other =>
    simp only [returns_modify_bind, reduceCtorEq, false_and, iff_false]
    split <;> simp
  | none =>
    simp only [returns_bind, returns_modify, returns_pure]
    constructor
    · rintro ⟨_, _, rfl, lsn, _, logged, _, _, rfl, rfl, rfl⟩
      obtain ⟨room, rfl, rfl⟩ := (returns_appendControl (.began _) rfl Iff.rfl).mp logged
      exact ⟨trivial, room, rfl, rfl⟩
    · rintro ⟨-, room, rfl, rfl⟩
      exact ⟨(), _, rfl, _, _, (returns_appendControl (.began _) rfl Iff.rfl).mpr ⟨room, rfl, rfl⟩,
        (), _, rfl, rfl, rfl⟩

def touching (mgr : TransactionManager) (pid : ℕ) (before after : Page) : PageTouch :=
    ⟨mgr.currentTxId, pid, before, after⟩

def logged (mgr : TransactionManager) (pid : ℕ) (before after : Page) : TransactionManager :=
  { mgr.logging (.page (mgr.touching pid before after)) with
    loggedPages := mgr.loggedPages ++ [(pid, before.bytes)] }

theorem returns_logPageWrite {pid : ℕ} {before after : Page} :
    (logPageWrite pid before.bytes after.bytes).Returns mgr () mgr' ↔
      mgr.CanLog (.page (mgr.touching pid before after)) ∧ mgr' = mgr.logged pid before after := by
  rw [logPageWrite, returns_read_bind]
  simp only [returns_bind, returns_ofExcept, encodePageRecord_ok, onWal, returns_zoom,
    Wal.returns_append, returns_modify]
  constructor
  · rintro ⟨_, _, ⟨⟨_, _, fits, rfl⟩, rfl⟩, _, _, ⟨_, ⟨room, rfl, rfl⟩, rfl⟩, rfl⟩
    exact ⟨⟨fits, room⟩, rfl⟩
  · rintro ⟨⟨fits, room⟩, rfl⟩
    exact ⟨_, _, ⟨⟨before.size, after.size, fits, rfl⟩, rfl⟩, _, _, ⟨_, ⟨room, rfl, rfl⟩, rfl⟩, rfl⟩

/-- The manager after a transaction ended and its pages are `pager`. -/
def ended (mgr : TransactionManager) (entry : LogEntry) (txId : ℕ) (pager : Pager) : TransactionManager :=
  { mgr.logging entry with
    pager, deadlock := mgr.deadlock.remove txId, loggedPages := [], activeTx := none }

theorem returns_commit : (commit tx).Returns mgr () mgr' ↔ mgr.activeTx = some tx ∧ mgr.CanLog (.committed tx.txId) ∧
        mgr' = mgr.ended (.committed tx.txId) tx.txId (setLastLsn mgr.wal.nextLsn mgr.pager).state := by
  have stamp {mgr mgr' : TransactionManager} {lsn : ℕ} :
      ((onPager (setLastLsn lsn)).catching fun _ => pure ()).Returns mgr () mgr' ↔
        mgr' = { mgr with pager := (setLastLsn lsn mgr.pager).state } := by
    rw [Program.Returns, catching, onPager, zoom_apply]
    cases (setLastLsn lsn mgr.pager).result <;> simp [eq_comm]
  rw [commit, returns_read_bind]
  by_cases active : mgr.activeTx = some tx
  · rw [if_neg (not_not.mpr active)]
    simp only [returns_bind, forget, returns_modify]
    constructor
    · rintro ⟨lsn, _, logged, _, _, stamped, rfl⟩
      obtain ⟨room, rfl, rfl⟩ := (returns_appendControl (.committed _) rfl Iff.rfl).mp logged
      rw [stamp.mp stamped]
      exact ⟨active, room, rfl⟩
    · rintro ⟨-, room, rfl⟩
      exact ⟨_, _, (returns_appendControl (.committed _) rfl Iff.rfl).mpr ⟨room, rfl, rfl⟩, (), _, stamp.mpr rfl, rfl⟩
  · simp [active]

/-- The before-images of a transaction, written back from the last to the first. -/
def restore (logged : List (ℕ × Bytes)) : PagerM Unit :=
  forEach logged.reverse fun entry => writePage entry.1 entry.2

theorem returns_rollback :
    (rollback tx).Returns mgr () mgr' ↔ mgr.activeTx = some tx ∧ mgr.CanLog (.rolledBack tx.txId) ∧
        ∃ pager, (restore mgr.loggedPages).Returns mgr.pager () pager ∧
          mgr' = mgr.ended (.rolledBack tx.txId) tx.txId pager := by
  rw [rollback, returns_read_bind]
  by_cases active : mgr.activeTx = some tx
  · rw [if_neg (not_not.mpr active)]
    simp only [onPager, forEach_zoom onPager_lawful, returns_bind, returns_read, forget,
      returns_modify, returns_zoom]
    constructor
    · rintro ⟨lsn, _, logged, _, _, ⟨rfl, rfl⟩, _, _, ⟨pager, restored, rfl⟩, rfl⟩
      obtain ⟨room, rfl, rfl⟩ := (returns_appendControl (.rolledBack _) rfl Iff.rfl).mp logged
      exact ⟨active, room, pager, restored, rfl⟩
    · rintro ⟨-, room, pager, restored, rfl⟩
      exact ⟨_, _, (returns_appendControl (.rolledBack _) rfl Iff.rfl).mpr ⟨room, rfl, rfl⟩, _,
        _, ⟨rfl, rfl⟩, (), _, ⟨pager, restored, rfl⟩, rfl⟩
  · simp [active]

end TransactionManager

end Tinydb.Tx
