import Tinydb.Tx.Manager

/-! BEGIN, COMMIT and ROLLBACK of a server session when file operations fail (`server/session.py`, `tx/manager.py`).

How each file operation ends is an input of the request. The manager takes the write lock when it begins
a transaction and gives it back as the last thing it does; the session forgets its transaction
before it asks the manager to end it.
-/

namespace Tinydb.Server

open Lib Program Tx Concurrent

/-- How the file operations of a request end: appending the control record, its encoding included, and so on.
`lastLsn` is what the pager's header says. -/
structure Io where
  append : Except Exc ℕ
  fsync : Except Exc Unit
  setLastLsn : Except Exc Unit
  writePage : ℕ × Bytes → Except Exc Unit
  lastLsn : ℕ

def Io.fine : Io := ⟨.ok 0, .ok (), .ok (), fun _ => .ok (), 0⟩

/-- The transaction manager without its files. The write lock counts how often the thread is in it. -/
structure Coordinator where
  nextTxId : ℕ
  activeTx : Option TransactionContext
  held : Bool
  loggedPages : List (ℕ × Bytes)
  deadlock : DeadlockDetector
  depth : ℕ

namespace Coordinator

abbrev M := Program Exc Coordinator

def new : Coordinator := ⟨1, none, false, [], .new, 0⟩

/-- `WriteLock.acquire`, in the one thread of the server. -/
def acquire : M Unit := modify fun mgr => { mgr with depth := mgr.depth + 1 }

def release : M Unit := do
  if (← read).depth = 0 then raise ⟨.runtimeError, "release unlocked lock"⟩
  else modify fun mgr => { mgr with depth := mgr.depth - 1 }

/-- `_release_lock`. -/
def releaseLock : M Unit := do
  let mgr ← read
  modify fun mgr => { mgr with held := false }
  if mgr.held then release else return

def checkDeadlock : M Unit := do
  let mgr ← read
  match mgr.activeTx with
  | none => return
  | some active =>
    let waiting := mgr.deadlock.addWait mgr.nextTxId active.txId
    modify fun mgr => { mgr with deadlock := waiting.remove mgr.nextTxId }
    if waiting.detectCycle.isSome then
      raise ⟨.deadlockError, "transaction " ++ toString mgr.nextTxId ++
        " would deadlock with active transaction " ++ toString active.txId⟩
    else return

def begin (io : Io) : M TransactionContext := do
  checkDeadlock
  acquire
  let mgr ← read
  if mgr.activeTx.isSome then
    release
    raise ⟨.nestedTransactionError, "tinydb v0.1 does not support nested transactions"⟩
  else
    modify fun mgr => { mgr with nextTxId := mgr.nextTxId + 1 }
    let beginLsn ← ofExcept io.append
    let tx : TransactionContext := ⟨mgr.nextTxId, beginLsn, io.lastLsn⟩
    modify fun mgr => { mgr with activeTx := some tx, held := true, loggedPages := [] }
    return tx

def finish (tx : TransactionContext) : M Unit := do
  modify fun mgr => { mgr with deadlock := mgr.deadlock.remove tx.txId, loggedPages := [], activeTx := none }
  releaseLock

/-- The two ways to end a transaction differ in what they do to the files first. -/
def endWith (files : M Unit) (method : String) (tx : TransactionContext) : M Unit := do
  if (← read).activeTx ≠ some tx then
    raise ⟨.valueError, method ++ "(): not the active transaction"⟩
  else
    files
    finish tx

def commitFiles (io : Io) : M Unit := do
  let _ ← ofExcept io.append
  ofExcept io.fsync
  (ofExcept io.setLastLsn).catching fun _ => pure ()

def rollbackFiles (io : Io) : M Unit := do
  let _ ← ofExcept io.append
  ofExcept io.fsync
  let mgr ← read
  forEach mgr.loggedPages.reverse fun logged => ofExcept (io.writePage logged)

def commit (io : Io) : TransactionContext → M Unit := endWith (commitFiles io) "commit"

def rollback (io : Io) : TransactionContext → M Unit := endWith (rollbackFiles io) "rollback"

/-- `log_page_write`, once for each write of a statement. -/
def logging (mgr : Coordinator) (written : List (ℕ × Bytes)) : Coordinator :=
  { mgr with loggedPages := mgr.loggedPages ++ written }

end Coordinator

/-- Transaction control, or another statement with the page writes it logged. -/
inductive Request where
  | begin | commit | rollback
  | statement (written : List (ℕ × Bytes))

/-- A call of the manager. -/
inductive ManagerCall where
  | begin
  | commit (tx : TransactionContext)
  | rollback (tx : TransactionContext)
  deriving DecidableEq

def ManagerCall.onManager : ManagerCall → TxM Unit
  | begin => do let _ ← TransactionManager.begin
  | commit tx => TransactionManager.commit tx
  | rollback tx => TransactionManager.rollback tx

def ManagerCall.onCoordinator (call : ManagerCall) (io : Io) : Coordinator.M Unit :=
  match call with
  | begin => do let _ ← Coordinator.begin io
  | commit tx => Coordinator.commit io tx
  | rollback tx => Coordinator.rollback io tx

/-- RESULT_DONE, RESULT_ERROR 25000 with a text, or what the dispatch of another statement answers. -/
inductive Reply where
  | done
  | error (msg : String)
  | dispatched
  deriving DecidableEq

structure ServerSession where
  tx : Option TransactionContext
  manager : Coordinator

/-- What a request does: the state it leaves, the reply and the manager's method it called. -/
structure Handled where
  session : ServerSession
  reply : Reply
  called : Option ManagerCall

namespace ServerSession

def new : ServerSession := ⟨none, .new⟩

/-- `except Exception as e`. -/
def replyTo {α : Type} : Except Exc α → Reply
  | .ok _ => .done
  | .error e => .error e.msg

def handleBegin (io : Io) (session : ServerSession) : Handled :=
  match session.tx with
  | some _ => ⟨session, .error "transaction already active", none⟩
  | none =>
    let ran := Coordinator.begin io session.manager
    ⟨⟨ran.result.toOption, ran.state⟩, replyTo ran.result, some .begin⟩

/-- `_handle_commit` and `_handle_rollback`: the session's transaction is cleared before the manager is called. -/
def handleEnd (call : TransactionContext → ManagerCall) (finish : TransactionContext → Coordinator.M Unit)
    (session : ServerSession) : Handled :=
  match session.tx with
  | none => ⟨session, .error "no active transaction", none⟩
  | some tx =>
    let ran := finish tx session.manager
    ⟨⟨none, ran.state⟩, replyTo ran.result, some (call tx)⟩

def handle (request : Request) (io : Io) (session : ServerSession) : Handled :=
  match request with
  | .begin => session.handleBegin io
  | .commit => session.handleEnd .commit (Coordinator.commit io)
  | .rollback => session.handleEnd .rollback (Coordinator.rollback io)
  | .statement written => ⟨{ session with manager := session.manager.logging written }, .dispatched, none⟩

def run (session : ServerSession) (requests : List (Request × Io)) : ServerSession :=
  requests.foldl (fun session step => (session.handle step.1 step.2).session) session

/-- A ROLLBACK request reaches the manager with the active transaction, and the lock is free when there is none. -/
structure Recoverable (session : ServerSession) : Prop where
  reached : ∀ tx, session.manager.activeTx = some tx → ∀ io, (session.handle .rollback io).called = some (.rollback tx)
  released : session.manager.activeTx = none → session.manager.depth = 0

/-- No file operation that the request comes to raises; the stamp in the header apart. -/
def Spared (session : ServerSession) (request : Request) (io : Io) : Prop :=
  match request with
  | .begin => session.tx = none → ∃ lsn, io.append = .ok lsn
  | .commit => session.tx ≠ none → (∃ lsn, io.append = .ok lsn) ∧ io.fsync = .ok ()
  | .rollback => session.tx ≠ none → (∃ lsn, io.append = .ok lsn) ∧ io.fsync = .ok () ∧
      ∀ logged ∈ session.manager.loggedPages, io.writePage logged = .ok ()
  | .statement _ => True

end ServerSession

variable {e : Exc}

namespace Coordinator

variable {mgr : Coordinator} {tx : TransactionContext} {io : Io} {files : M Unit} (method : String)
  {full full' : TransactionManager}

def ended (mgr : Coordinator) (tx : TransactionContext) : Coordinator :=
  ⟨mgr.nextTxId, none, false, [], mgr.deadlock.remove tx.txId, mgr.depth - 1⟩

theorem finish_returns (held : mgr.held = true) (inside : mgr.depth ≠ 0) :
    (finish tx).Returns mgr () (mgr.ended tx) := by
  simp [finish, releaseLock, release, held, inside, ended]

theorem begin_returns {lsn : ℕ} (idle : mgr.activeTx = none) (appended : io.append = .ok lsn) :
    (begin io).Returns mgr ⟨mgr.nextTxId, lsn, io.lastLsn⟩
      ⟨mgr.nextTxId + 1, some ⟨mgr.nextTxId, lsn, io.lastLsn⟩, true, [], mgr.deadlock, mgr.depth + 1⟩ := by
  simp [begin, checkDeadlock, acquire, idle, appended, returns_bind]

theorem begin_raises (idle : mgr.activeTx = none) (failed : io.append = .error e) :
    (begin io).Raises mgr e { mgr with nextTxId := mgr.nextTxId + 1, depth := mgr.depth + 1 } := by
  simp [begin, checkDeadlock, acquire, idle, failed, raises_bind]

theorem commitFiles_reads : (commitFiles io).Reads := by
  refine reads_bind (reads_ofExcept _) fun _ => reads_bind (reads_ofExcept _) fun _ => ?_
  intro mgr
  cases io.setLastLsn <;> simp [catching]

theorem commitFiles_returns :
    (commitFiles io).Returns mgr () mgr ↔ (∃ lsn, io.append = .ok lsn) ∧ io.fsync = .ok () := by
  have stamped (s s' : Coordinator) :
      ((ofExcept io.setLastLsn : M Unit).catching fun _ => pure ()).Returns s () s' ↔ s = s' := by
    cases io.setLastLsn <;> simp [Program.Returns, catching]
  simp [commitFiles, returns_bind, stamped, Unique.exists_iff]

theorem rollbackFiles_reads : (rollbackFiles io).Reads := by
  refine reads_bind (reads_ofExcept _) fun _ => reads_bind (reads_ofExcept _) fun _ => ?_
  exact reads_bind reads_read fun _ => reads_forEach fun _ _ => reads_ofExcept _

theorem rollbackFiles_returns : (rollbackFiles io).Returns mgr () mgr ↔
    (∃ lsn, io.append = .ok lsn) ∧ io.fsync = .ok () ∧ ∀ logged ∈ mgr.loggedPages, io.writePage logged = .ok () := by
  simp [rollbackFiles, returns_bind, returns_forEach_ofExcept, Unique.exists_iff]

theorem endWith_raises (reads : files.Reads) (active : mgr.activeTx = some tx) (failed : ¬ files.Returns mgr () mgr) :
    ∃ e, (endWith files method tx).Raises mgr e mgr := by
  rcases files.returns_or_raises mgr with ⟨_, left, returned⟩ | ⟨e, left, raised⟩
  · exact absurd (reads.of_returns returned ▸ returned) failed
  · obtain rfl := reads.of_raises raised
    refine ⟨e, ?_⟩
    rw [endWith, raises_read_bind, if_neg (not_not.mpr active), raises_bind]
    exact .inl raised

theorem endWith_returns (active : mgr.activeTx = some tx) (held : mgr.held = true) (inside : mgr.depth ≠ 0)
    (returned : files.Returns mgr () mgr) : (endWith files method tx).Returns mgr () (mgr.ended tx) := by
  rw [endWith, returns_read_bind, if_neg (not_not.mpr active), returns_bind]
  exact ⟨(), mgr, returned, finish_returns held inside⟩

/-- What `TransactionManager` is without its files. -/
def of (mgr : TransactionManager) : Coordinator :=
  ⟨mgr.nextTxId, mgr.activeTx, mgr.activeTx.isSome, mgr.loggedPages, mgr.deadlock, mgr.activeTx.isSome.toNat⟩

/-- No file operation raises, and the log and the pager are those of the manager. -/
def spare (mgr : TransactionManager) : Io :=
    { Io.fine with append := .ok mgr.wal.nextLsn, lastLsn := mgr.pager.lastLsn }

theorem begin_follows (returned : TransactionManager.begin.Returns full tx full') :
    (begin (spare full)).Returns (of full) tx (of full') := by
  obtain ⟨idle, -, rfl, rfl⟩ := TransactionManager.returns_begin.mp returned
  have begun := begin_returns (show (of full).activeTx = none from idle) (show (spare full).append = _ from rfl)
  simpa [of, idle, TransactionManager.begun, TransactionManager.opening, TransactionManager.logging, spare] using begun

theorem ended_follows (active : full.activeTx = some tx) (entry : LogEntry) (pager : Storage.Pager)
    (returned : files.Returns (of full) () (of full)) :
    (endWith files method tx).Returns (of full) () (of (full.ended entry tx.txId pager)) := by
  have same : of (full.ended entry tx.txId pager) = (of full).ended tx := by
    simp [of, active, ended, TransactionManager.ended, TransactionManager.logging]
  rw [same]
  exact endWith_returns method active (by simp [of, active]) (by simp [of, active]) returned

theorem call_follows {call : ManagerCall} (returned : call.onManager.Returns full () full') :
    (call.onCoordinator (spare full)).Returns (of full) () (of full') := by
  cases call with
  | begin =>
    obtain ⟨tx, _, begun, ended⟩ := returns_bind.mp returned
    obtain ⟨-, rfl⟩ := returns_pure.mp ended
    exact returns_bind.mpr ⟨tx, _, begin_follows begun, rfl, rfl⟩
  | commit tx =>
    obtain ⟨active, -, rfl⟩ := TransactionManager.returns_commit.mp returned
    exact ended_follows "commit" active _ _ (commitFiles_returns.mpr ⟨⟨_, rfl⟩, rfl⟩)
  | rollback tx =>
    obtain ⟨active, -, pager, -, rfl⟩ := TransactionManager.returns_rollback.mp returned
    exact ended_follows "rollback" active _ _ (rollbackFiles_returns.mpr ⟨⟨_, rfl⟩, rfl, fun _ _ => rfl⟩)

/-- Calls that return on the manager with its files return without them, and leave the same. -/
theorem calls_follow {calls : List ManagerCall}
    (returned : (forEach calls ManagerCall.onManager).Returns full () full') : ∃ ios : List Io,
    ios.length = calls.length ∧
      (forEach (calls.zip ios) fun step => step.1.onCoordinator step.2).Returns (of full) () (of full') := by
  induction calls generalizing full with
  | nil => exact ⟨[], rfl, by simpa using congrArg of (returns_forEach_nil.mp returned)⟩
  | cons call calls ih =>
    obtain ⟨next, first, rest⟩ := returns_forEach_cons.mp returned
    obtain ⟨ios, length, later⟩ := ih rest
    exact ⟨spare full :: ios, by simp [length], returns_forEach_cons.mpr ⟨of next, call_follows first, later⟩⟩

theorem calls_follow_commit : ∃ full' ios, ios.length = 2 ∧
    (forEach ([.begin, .commit ⟨1, 1, 0⟩].zip ios) fun step => ManagerCall.onCoordinator step.1 step.2).Returns
      (of (.new .initNew ⟨[], 1⟩)) () (of full') :=
  have returned : (forEach [.begin, .commit ⟨1, 1, 0⟩] ManagerCall.onManager).Returns (.new .initNew ⟨[], 1⟩) () _ :=
    returns_of_isOk (by decide +kernel)
  ⟨_, calls_follow returned⟩

end Coordinator

namespace ServerSession

variable {session : ServerSession} {request : Request} {io : Io} {call : TransactionContext → ManagerCall}
  {files : Coordinator.M Unit} {method : String} {requests : List (Request × Io)}

/-- The session, the manager and the lock agree. -/
structure Agrees (session : ServerSession) : Prop where
  tx : session.tx = session.manager.activeTx
  held : session.manager.held = session.manager.activeTx.isSome
  depth : session.manager.depth = session.manager.activeTx.isSome.toNat

theorem agrees_new : Agrees new := ⟨rfl, rfl, rfl⟩

theorem Agrees.recoverable (agrees : session.Agrees) : session.Recoverable where
  reached tx active io := by
    have known : session.tx = some tx := agrees.tx.trans active
    simp only [handle, handleEnd, known]
  released idle := by simp [agrees.depth, idle]

section

variable (agrees : session.Agrees)
include agrees

theorem handleEnd_agrees (returned : session.tx ≠ none → files.Returns session.manager () session.manager) :
    (session.handleEnd call (Coordinator.endWith files method)).session.Agrees := by
  cases known : session.tx with
  | none => simpa only [handleEnd, known] using agrees
  | some tx =>
    have active := agrees.tx.symm.trans known
    have ended := Coordinator.endWith_returns method active (by simp [agrees.held, active])
      (by simp [agrees.depth, active]) (returned (by simp [known]))
    simp only [handleEnd, known, ended.2]
    exact ⟨rfl, rfl, by simp [Coordinator.ended, agrees.depth, active]⟩

theorem handleEnd_lost (reads : files.Reads) {tx : TransactionContext} (known : session.tx = some tx)
    (failed : ¬ files.Returns session.manager () session.manager) :
    ¬ (session.handleEnd call (Coordinator.endWith files method)).session.Recoverable := by
  have active := agrees.tx.symm.trans known
  obtain ⟨e, raised⟩ := Coordinator.endWith_raises method reads active failed
  simp only [handleEnd, known, raised.2]
  intro recoverable
  simpa [handle, handleEnd] using recoverable.reached tx active .fine

theorem handleBegin_agrees (spared : session.tx = none → ∃ lsn, io.append = .ok lsn) :
    (session.handleBegin io).session.Agrees := by
  cases known : session.tx with
  | some tx => simpa only [handleBegin, known] using agrees
  | none =>
    have idle := agrees.tx.symm.trans known
    obtain ⟨lsn, appended⟩ := spared known
    have begun := Coordinator.begin_returns idle appended
    simp only [handleBegin, known, begun.1, begun.2]
    exact ⟨rfl, rfl, by simp [agrees.depth, idle]⟩

theorem handleBegin_lost (known : session.tx = none) (failed : io.append = .error e) :
    ¬ (session.handleBegin io).session.Recoverable := by
  have idle := agrees.tx.symm.trans known
  have raised := Coordinator.begin_raises idle failed
  simp only [handleBegin, known, raised.1, raised.2]
  intro recoverable
  exact Nat.succ_ne_zero _ (recoverable.released idle)

theorem handle_agrees (spared : session.Spared request io) :
    (session.handle request io).session.Agrees := by
  cases request with
  | begin => exact handleBegin_agrees agrees spared
  | commit => exact handleEnd_agrees agrees fun known => Coordinator.commitFiles_returns.mpr (spared known)
  | rollback => exact handleEnd_agrees agrees fun known => Coordinator.rollbackFiles_returns.mpr (spared known)
  | statement written => exact ⟨agrees.tx, agrees.held, agrees.depth⟩

theorem handle_lost (struck : ¬ session.Spared request io) :
    ¬ (session.handle request io).session.Recoverable := by
  cases request with
  | begin =>
    obtain ⟨known, failed⟩ := Classical.not_imp.mp struck
    cases ends : io.append with
    | ok lsn => exact absurd ⟨lsn, ends⟩ failed
    | error e => exact handleBegin_lost agrees known ends
  | commit =>
    obtain ⟨known, failed⟩ := Classical.not_imp.mp struck
    obtain ⟨tx, known⟩ := Option.ne_none_iff_exists'.mp known
    exact handleEnd_lost agrees Coordinator.commitFiles_reads known (mt Coordinator.commitFiles_returns.mp failed)
  | rollback =>
    obtain ⟨known, failed⟩ := Classical.not_imp.mp struck
    obtain ⟨tx, known⟩ := Option.ne_none_iff_exists'.mp known
    exact handleEnd_lost agrees Coordinator.rollbackFiles_reads known (mt Coordinator.rollbackFiles_returns.mp failed)
  | statement written => exact absurd trivial struck

end

def AlwaysRecoverable (session : ServerSession) (requests : List (Request × Io)) : Prop :=
  ∀ before after, requests = before ++ after → (session.run before).Recoverable

def AlwaysSpared (session : ServerSession) (requests : List (Request × Io)) : Prop :=
  ∀ before request io after, requests = before ++ (request, io) :: after → (session.run before).Spared request io

theorem alwaysRecoverable_cons : session.AlwaysRecoverable ((request, io) :: requests) ↔
      session.Recoverable ∧ (session.handle request io).session.AlwaysRecoverable requests := by
  constructor
  · intro always
    exact ⟨always [] _ rfl, fun before after split => always ((request, io) :: before) after (by rw [split]; rfl)⟩
  · rintro ⟨here, later⟩ before after split
    rcases List.cons_eq_append_iff.mp split with ⟨rfl, -⟩ | ⟨before, rfl, rest⟩
    · exact here
    · exact later before after rest

theorem alwaysSpared_cons : session.AlwaysSpared ((request, io) :: requests) ↔
      session.Spared request io ∧ (session.handle request io).session.AlwaysSpared requests := by
  constructor
  · intro always
    refine ⟨always [] _ _ _ rfl, fun before next ends after split => ?_⟩
    exact always ((request, io) :: before) next ends after (by rw [split]; rfl)
  · rintro ⟨here, later⟩ before next ends after split
    rcases List.cons_eq_append_iff.mp split with ⟨rfl, same⟩ | ⟨before, rfl, rest⟩
    · obtain ⟨⟨rfl, rfl⟩, -⟩ := by simpa using same
      exact here
    · exact later before next ends after rest

theorem Agrees.alwaysRecoverable_iff (agrees : session.Agrees) (requests : List (Request × Io)) :
    session.AlwaysRecoverable requests ↔ session.AlwaysSpared requests := by
  induction requests generalizing session with
  | nil =>
    refine ⟨fun _ before request io after split => by simp at split, fun _ before after split => ?_⟩
    obtain ⟨rfl, -⟩ := List.nil_eq_append_iff.mp split
    exact agrees.recoverable
  | cons step requests ih =>
    obtain ⟨request, io⟩ := step
    rw [alwaysRecoverable_cons, alwaysSpared_cons]
    by_cases spared : session.Spared request io
    · simp only [agrees.recoverable, spared, true_and, ih (handle_agrees agrees spared)]
    · -- the state right after the failure is not recoverable
      have lost : ¬ (session.handle request io).session.AlwaysRecoverable requests :=
        fun always => handle_lost agrees spared (always [] requests rfl)
      simp only [lost, spared, and_false, false_and]

/-- Every state that a session reaches is recoverable exactly when no append, fsync or page write of its
BEGIN, COMMIT and ROLLBACK requests raises. -/
theorem recoverable_iff_spared (requests : List (Request × Io)) :
    new.AlwaysRecoverable requests ↔ new.AlwaysSpared requests := agrees_new.alwaysRecoverable_iff requests

/-- BEGIN, then a COMMIT whose fsync raises: the manager keeps the transaction, and ROLLBACK does not reach it. -/
theorem failed_commit_not_recoverable : ¬ ∀ requests : List (Request × Io), new.AlwaysRecoverable requests := by
  intro always
  have lost := (always [(.begin, .fine), (.commit, { Io.fine with fsync := .error ⟨.osError, "disk full"⟩ })] _ []
    (List.append_nil _).symm).reached ⟨1, 0, 0⟩ (by decide) .fine
  revert lost
  decide

end ServerSession

end Tinydb.Server
