import Tinydb.Tx.SessionLog

/-! Several sessions on one log.

Every process that opens the database appends to the log its predecessors left,
and numbers its transactions from 1 again. Analysis knows transactions by their
numbers only, so the last decision under a number stands for every transaction
that ever had it.
-/

namespace Tinydb.Tx

open Lib Program Storage List TransactionManager Option Session

/-- The log after the sessions, each by a new manager on the log it found. What recovery made of the
pages before a session does not matter to the log. -/
inductive LoggedBy : List (Session PageWrite) → Wal → Prop
  | nil : LoggedBy [] ⟨[], 1⟩
  | session {history : List (Session PageWrite)} {wal : Wal} {session : Session PageWrite} {pager : Pager}
      {mgr : TransactionManager} : LoggedBy history wal →
      (session.run PageWrite.log).Returns (.new pager (.openFile wal.records)) () mgr →
      LoggedBy (history ++ [session]) mgr.wal

variable {session : Session PageWrite} {mgr : TransactionManager} {entries : List LogEntry}
  {history : List (Session PageWrite)} {wal : Wal}

theorem Session.holds_of_returns {mgr' : TransactionManager} (ran : (session.run PageWrite.log).Returns mgr () mgr')
    (idle : Idle mgr entries)
    (fresh : mgr.nextTxId = 1) : mgr'.wal.Holds (entries ++ session.entries) := by
  rw [run] at ran
  obtain ⟨_, middle, finished, ran⟩ := returns_bind.mp ran
  obtain ⟨idle', next⟩ := Tx.idle_of_returns finished idle
  rw [fresh] at idle' next
  obtain ⟨pieces, unfinished⟩ := session
  cases unfinished with
  | none =>
    obtain ⟨-, rfl⟩ := returns_pure.mp ran
    simpa [Session.entries] using idle'.holds
  | some writes =>
    obtain ⟨tx, begun, opened, wrote⟩ := returns_bind.mp ran
    obtain ⟨-, room, rfl, rfl⟩ := returns_begin.mp opened
    have held := forEach_log wrote (holds_logging idle'.holds room)
    simpa [Session.entries, currentTxId, begun, opening, next]
      using held

theorem LoggedBy.holds (logged : LoggedBy history wal) : wal.Holds (history.flatMap Session.entries) := by
  induction logged with
  | nil => exact Wal.holds_nil
  | session _ ran ih =>
    rw [Wal.openFile_records ih.sequence] at ran
    rw [flatMap_append, flatMap_singleton]
    exact holds_of_returns ran ⟨ih, rfl⟩ rfl

structure Transaction where
  number : ℕ
  writes : List PageWrite
  committed : Bool

def Session.transactions (session : Session PageWrite) : List Transaction :=
  (numbered 1 session.closed).filterMap fun
    | (_, .autocommit _) => none
    | (number, .transaction writes ending) => some ⟨number, writes, ending = .commit⟩

def endingFrom (number txId : ℕ) : List (Piece PageWrite) → Option Ending
  | [] => none
  | .autocommit _ :: rest => endingFrom number txId rest
  | .transaction _ ending :: rest => if number = txId then some ending else endingFrom (number + 1) txId rest

/-- How the last transaction with the number that reached its end did so. -/
def lastEnding (history : List (Session PageWrite)) (txId : ℕ) : Option Ending :=
  history.reverse.findSome? fun session => endingFrom 1 txId session.pieces

theorem decision_entriesFrom (number txId : ℕ) (pieces : List (Piece PageWrite)) :
    decision (entriesFrom number pieces) txId = (endingFrom number txId pieces).map Ending.state := by
  induction pieces generalizing number with
  | nil => rfl
  | cons piece rest ih =>
    rw [entriesFrom, decision_append, decision_piece]
    cases piece with
    | autocommit write =>
      rw [or_none]
      exact ih number
    | transaction writes ending =>
      simp only [endingFrom]
      by_cases own : number = txId
      · rw [if_pos own, if_pos own, decision_eq_none (.inl (by rw [Piece.used]; omega))]
        rfl
      · rw [if_neg own, if_neg own, or_none]
        exact ih (number + 1)

theorem Session.decision_entries (session : Session PageWrite) (txId : ℕ) :
    decision session.entries txId = (endingFrom 1 txId session.pieces).map Ending.state := by
  obtain ⟨pieces, unfinished⟩ := session
  cases unfinished with
  | none => rw [← decision_entriesFrom, Session.entries, append_nil]
  | some writes => rw [← decision_entriesFrom, Session.entries, decision_append, decision_open, none_or]

theorem decision_history (history : List (Session PageWrite)) (txId : ℕ) :
    decision (history.flatMap Session.entries) txId = (lastEnding history txId).map Ending.state := by
  induction history using reverseRecOn with
  | nil => rfl
  | append_singleton history session ih =>
    have last : lastEnding (history ++ [session]) txId =
        (endingFrom 1 txId session.pieces).or (lastEnding history txId) := by
      rw [lastEnding, reverse_concat, findSome?_cons, ← lastEnding]
      cases endingFrom 1 txId session.pieces <;> rfl
    rw [flatMap_append, flatMap_singleton, decision_append, ih, session.decision_entries, last]
    cases endingFrom 1 txId session.pieces <;> rfl

theorem isCommitted_history {txId : ℕ} (nonzero : txId ≠ 0) :
    (analysis (history.flatMap Session.entries)).isCommitted txId = true ↔ lastEnding history txId = some .commit := by
  rw [analysis_isCommitted, decision_history]
  rcases lastEnding history txId with _ | _ | _ <;> simp [nonzero, Ending.state]

variable {tx : Transaction}

theorem mem_transactions :
    tx ∈ session.transactions ↔ ∃ ending, (tx.number, .transaction tx.writes ending) ∈ numbered 1 session.closed ∧
      tx.committed = decide (ending = .commit) := by
  simp only [transactions, mem_filterMap, Prod.exists]
  constructor
  · rintro ⟨number, _ | ⟨writes, ending⟩, member, same⟩
    · cases same
    · cases same
      exact ⟨ending, member, rfl⟩
  · rintro ⟨ending, member, outcome⟩
    exact ⟨_, _, member, by simp only [← outcome]⟩

theorem Transaction.number_ne_zero (member : tx ∈ history.flatMap transactions) : tx.number ≠ 0 := by
  obtain ⟨session, -, inside⟩ := mem_flatMap.mp member
  obtain ⟨ending, at', -⟩ := mem_transactions.mp inside
  exact Nat.pos_iff_ne_zero.mp (le_of_mem_numbered at')

theorem lastEnding_isSome (member : tx ∈ history.flatMap transactions)
    (committed : tx.committed = true) : ∃ ending, lastEnding history tx.number = some ending := by
  obtain ⟨session, among, inside⟩ := mem_flatMap.mp member
  obtain ⟨ending, at', outcome⟩ := mem_transactions.mp inside
  obtain rfl : ending = .commit := by simpa [committed] using outcome
  have decided := (isCommitted_entriesFrom at').mpr rfl
  rw [isCommitted_closed, analysis_isCommitted, session.decision_entries] at decided
  have ended := decided.resolve_left (Transaction.number_ne_zero member)
  obtain ⟨ending, here, -⟩ := map_eq_some_iff.mp ended
  rw [← isSome_iff_exists, lastEnding, findSome?_isSome_iff]
  exact ⟨session, mem_reverse.mpr among, by simp [here]⟩

/-- Of the transactions that had a number, each that wrote pages ended as the last one that ended. -/
def EndAlike (history : List (Session PageWrite)) : Prop :=
  ∀ tx ∈ history.flatMap transactions, tx.writes ≠ [] →
    ∀ ending, lastEnding history tx.number = some ending → (ending = .commit ↔ tx.committed = true)

theorem onDataPages_history (history : List (Session PageWrite)) : OnDataPages (history.flatMap Session.entries) := by
  intro touch member
  obtain ⟨session, -, inside⟩ := mem_flatMap.mp member
  exact session.onDataPages touch inside

/-- Replay takes the transactions of a history for what they were exactly when equal numbers ended alike. -/
theorem outcome_is_own_iff (logged : LoggedBy history wal) {file : ℕ → Page} {disk : Pager}
    (opened : Pager.openFile file = .ok disk) : ∃ found disk',
    (wal.iterFrom 1).foldlM Analysis.scan .start = .ok found ∧
      (replay wal).Returns disk found.stats disk' ∧ ((∀ tx ∈ history.flatMap transactions, tx.writes ≠ [] →
        (found.isCommitted tx.number = true ↔ tx.committed = true)) ↔ EndAlike history) := by
  obtain ⟨disk', returned, -⟩ :=
    replay_returns logged.holds (onDataPages_history history) (Pager.openFile_fits opened)
  refine ⟨_, disk', logged.holds.scan, returned, ?_⟩
  refine forall₃_congr fun tx member wrote => ?_
  rw [isCommitted_history (Transaction.number_ne_zero member)]
  constructor
  · intro own ending last
    rw [← own, last, Option.some.injEq]
  · intro alike
    refine ⟨fun last => (alike _ last).mp rfl, fun committed => ?_⟩
    obtain ⟨ending, last⟩ := lastEnding_isSome member committed
    rw [last, (alike ending last).mpr committed]

/-- Page 4 by a committed transaction of a first process; page 5 by the first transaction of the next one,
which is cut before it commits. -/
def twoProcesses : List (Session PageWrite) :=
  [⟨[.transaction [⟨⟨4, filled 1, by decide, by decide⟩, filled 0⟩] .commit], none⟩,
   ⟨[], some [⟨⟨5, filled 2, by decide, by decide⟩, filled 0⟩]⟩]

/-- The log the first process leaves. -/
def firstWal : Wal :=
  (run PageWrite.log ⟨[.transaction [⟨⟨4, filled 1, by decide, by decide⟩, filled 0⟩] .commit], none⟩
    (.new .initNew (.openFile []))).state.wal

theorem firstProcess_logged : LoggedBy (twoProcesses.take 1) firstWal :=
  .session .nil (returns_of_isOk (by decide +kernel))

theorem twoProcesses_logged : ∃ wal, LoggedBy twoProcesses wal := by
  have ran : (run PageWrite.log ⟨[], some [⟨⟨5, filled 2, by decide, by decide⟩, filled 0⟩]⟩).Returns
    (.new .initNew (.openFile firstWal.records)) () _ := returns_of_isOk (by decide +kernel)
  exact ⟨_, firstProcess_logged.session ran⟩

/-- The unfinished transaction of the second process counts as committed: its number is 1, as that of the
committed transaction of the first process. -/
theorem unfinished_counts_as_committed :
    ∃ wal found, LoggedBy twoProcesses wal ∧ (wal.iterFrom 1).foldlM Analysis.scan .start = .ok found ∧
      ∃ tx ∈ twoProcesses.flatMap transactions, tx.writes ≠ [] ∧
        found.isCommitted tx.number = true ∧ tx.committed = false := by
  obtain ⟨wal', logged⟩ := twoProcesses_logged
  refine ⟨wal', _, logged, logged.holds.scan, ⟨1, [⟨⟨5, filled 2, by decide, by decide⟩, filled 0⟩], false⟩,
    mem_flatMap.mpr ⟨⟨[], some _⟩, mem_cons_of_mem _ (mem_singleton_self _), ?_⟩,
    cons_ne_nil _ _, ?_, rfl⟩
  · exact mem_transactions.mpr ⟨.rollback, mem_singleton_self _, rfl⟩
  · exact (isCommitted_history Nat.one_ne_zero).mpr rfl

/-- A second process that commits its first transaction and is cut in its second. -/
def laterProcess : Session PageWrite :=
  ⟨[.transaction [⟨⟨5, filled 2, by decide, by decide⟩, filled 0⟩] .commit],
    some [⟨⟨4, filled 3, by decide, by decide⟩, filled 1⟩]⟩

theorem outcome_is_own_later : ∃ wal found, LoggedBy (twoProcesses.take 1 ++ [laterProcess]) wal ∧
      (wal.iterFrom 1).foldlM Analysis.scan .start = .ok found ∧
      ∀ tx ∈ (twoProcesses.take 1 ++ [laterProcess]).flatMap transactions, tx.writes ≠ [] →
        (found.isCommitted tx.number = true ↔ tx.committed = true) := by
  have ran : (run PageWrite.log laterProcess).Returns (.new .initNew (.openFile firstWal.records)) () _ :=
    returns_of_isOk (by decide +kernel)
  obtain ⟨found, -, scanned, -, exactly⟩ := outcome_is_own_iff (firstProcess_logged.session ran) Pager.openFile_initNew
  refine ⟨_, found, firstProcess_logged.session ran, scanned, exactly.mpr ?_⟩
  -- number 1 ended last by a commit, and number 2 never did
  have alike : ∀ tx ∈ (twoProcesses.take 1 ++ [laterProcess]).flatMap transactions,
      lastEnding (twoProcesses.take 1 ++ [laterProcess]) tx.number = if tx.committed then some .commit else none := by
    decide
  intro tx member _ ending last
  rw [alike tx member] at last
  split at last
  case isTrue committed => simpa [committed] using last.symm
  case isFalse => cases last

end Tinydb.Tx
