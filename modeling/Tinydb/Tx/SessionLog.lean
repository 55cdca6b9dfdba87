import Tinydb.Tx.Session

/-! The log of a session, record by record.

Each transaction has a number of its own within a session, so its records and its
decision can be told from the log.
-/

namespace Tinydb.Tx

open Lib Storage List LogEntry Session

variable {entries : List LogEntry} {keep : ℕ → Bool} {touch : PageTouch} {number : ℕ} {pieces : List (Piece PageWrite)}
  {txId : ℕ} {W : Type} {entry : ℕ × Piece W} {writes : List PageWrite} {ending : Ending} (session : Session PageWrite)

theorem Wal.Holds.at {wal : Wal} (holds : wal.Holds entries) (i : ℕ)
    (inside : i < wal.records.length) (inside' : i < entries.length) : wal.records[i].Holds entries[i] :=
  forall₂_iff_get.mp holds.records |>.2 i inside inside'

theorem WALRecord.Holds.page_iff {record : WALRecord} {entry : LogEntry} (holds : record.Holds entry)
    (touch : PageTouch) :
    record.type = RT_PAGE ∧ decodePageRecord record.payload = .ok touch ↔ entry = .page touch := by
  obtain ⟨type, payload, fits⟩ := holds
  rw [type, payload]
  cases entry with
  | page other =>
    rw [decodePageRecord_payload fits]
    simp [LogEntry.type]
  | began _ => simp [LogEntry.type, RT_PAGE, RT_BEGIN]
  | committed _ => simp [LogEntry.type, RT_PAGE, RT_COMMIT]
  | rolledBack _ => simp [LogEntry.type, RT_PAGE, RT_ROLLBACK]

theorem touchesOn_append (keep : ℕ → Bool) (pid : ℕ) (early late : List LogEntry) :
    touchesOn keep pid (early ++ late) = touchesOn keep pid early ++ touchesOn keep pid late := by
  simp [touchesOn]

theorem touchesOn_eq_nil {pid : ℕ}
    (absent : ∀ touch, LogEntry.page touch ∈ entries → touch.pageId = pid → keep touch.txId = false) :
    touchesOn keep pid entries = [] := by
  rw [eq_nil_iff_forall_not_mem]
  intro write member
  obtain ⟨logged, -, page, kept⟩ := mem_touchesOn.mp member
  rw [absent _ logged page] at kept
  cases kept

theorem touchesOn_page (kept : keep touch.txId = true) (rest : List LogEntry) :
    touchesOn keep touch.pageId (.page touch :: rest) =
      ((touch.txId, touch.pageId), touch) :: touchesOn keep touch.pageId rest := by
  simp [touchesOn, touches, touch?, kept]

theorem touches_transaction (number : ℕ) (writes : List PageWrite) (ending : Ending) :
    touches ((Piece.transaction writes ending).entries number) =
      writes.map fun write => ((number, write.pid), write.touch number) := by
  have pages : touches (writes.map fun write => LogEntry.page (write.touch number)) =
      writes.map fun write => ((number, write.pid), write.touch number) := by
    rw [touches, filterMap_map]
    exact congrFun filterMap_eq_map writes
  have control : touches [ending.entry number] = [] := by cases ending <;> rfl
  rw [Piece.entries, touches_append, control, append_nil]
  exact pages

theorem touchesOn_transaction (keep : ℕ → Bool) (pid number : ℕ) (writes : List PageWrite) (ending : Ending) :
    touchesOn keep pid ((Piece.transaction writes ending).entries number) = if keep number then
        ((writes.filter fun write => write.pid = pid).map (PageWrite.touch number)).map fun touch =>
        ((number, pid), touch)
      else [] := by
  rw [touchesOn, touches_transaction, filter_map]
  simp only [Function.comp_def]
  cases keep number with
  | false => simp
  | true =>
    simp only [Bool.true_and, if_true, map_map]
    refine map_congr_left fun write member => ?_
    have same : write.pid = pid := by simpa using (mem_filter.mp member).2
    rw [same, Function.comp_apply]

theorem touchesOn_autocommit (keep : ℕ → Bool) (pid number : ℕ) (write : PageWrite) :
    touchesOn keep pid ((Piece.autocommit write).entries number) =
      if keep 0 && decide (write.pid = pid) then [((0, pid), write.touch 0)] else [] := by
  have one : touches ((Piece.autocommit write).entries number) = [((0, write.pid), write.touch 0)] := rfl
  rw [touchesOn, one, filter_singleton]
  by_cases same : write.pid = pid
  · simp [same]
  · simp [same]

theorem exists_write_of_mem_entriesFrom (member : LogEntry.page touch ∈ entriesFrom number pieces) :
    ∃ write txId, touch = PageWrite.touch txId write ∧ (txId = 0 ∨ number ≤ txId ∧ txId < number + used pieces) := by
  induction pieces generalizing number with
  | nil => cases member
  | cons piece rest ih =>
    have total : used (piece :: rest) = piece.used + used rest := by simp [used]
    rw [entriesFrom, mem_append] at member
    rcases member with here | later
    · cases piece with
      | autocommit write => exact ⟨write, 0, by simpa [Piece.entries] using here, .inl rfl⟩
      | transaction writes ending =>
        have inside : ((touch.txId, touch.pageId), touch) ∈ touches _ := mem_touches.mpr ⟨here, rfl⟩
        rw [touches_transaction] at inside
        obtain ⟨write, -, same⟩ := mem_map.mp inside
        refine ⟨write, number, (congrArg Prod.snd same).symm, .inr ?_⟩
        rw [total, Piece.used]
        omega
    · obtain ⟨write, txId, same, range⟩ := ih later
      exact ⟨write, txId, same, by omega⟩

theorem txId_of_mem_entriesFrom (member : LogEntry.page touch ∈ entriesFrom number pieces) :
    touch.txId = 0 ∨ number ≤ touch.txId ∧ touch.txId < number + used pieces := by
  obtain ⟨write, txId, rfl, range⟩ := exists_write_of_mem_entriesFrom member
  exact range

theorem blocks_entriesFrom (keep : ℕ → Bool) (pid number : ℕ) (positive : 0 < number)
    (pieces : List (Piece PageWrite)) :
    Dict.Blocks (0, pid) (touchesOn keep pid (entriesFrom number pieces)) := by
  induction pieces using reverseRecOn with
  | nil => exact .nil
  | append_singleton pieces piece ih =>
    rw [entriesFrom_append, touchesOn_append, entriesFrom, entriesFrom, append_nil]
    cases piece with
    | autocommit write =>
      rw [touchesOn_autocommit]
      split
      · exact ih.again _
      · simpa using ih
    | transaction writes ending =>
      rw [touchesOn_transaction]
      split
      · refine ih.fresh _ (fun same => ?_) fun member => ?_
        · have := congrArg Prod.fst same
          simp only at this
          omega
        · obtain ⟨touch, inside, key⟩ := mem_map.mp member
          obtain ⟨logged, same, -, -⟩ := mem_touchesOn.mp inside
          have number' : touch.2.txId = number + used pieces := congrArg Prod.fst (same.symm.trans key)
          rcases txId_of_mem_entriesFrom logged with zero | ⟨-, high⟩
          · omega
          · omega
      · simpa using ih

theorem decision_append (early late : List LogEntry) (txId : ℕ) :
    decision (early ++ late) txId = (decision late txId).or (decision early txId) := by
  simp [decision, findSome?_append]

theorem committed_mem_of_decision
    (decided : decision entries txId = some .committed) : LogEntry.committed txId ∈ entries := by
  obtain ⟨entry, member, decides⟩ := exists_of_findSome?_eq_some decided
  cases entry with
  | committed other =>
    have same : other = txId := by simpa [decision?] using decides
    exact same ▸ mem_reverse.mp member
  | rolledBack other => simp [decision?] at decides
  | began _ | page _ => cases decides

theorem decision_open (number : ℕ) (writes : List PageWrite) (txId : ℕ) :
    decision (.began number :: writes.map fun write => .page (write.touch number)) txId = none := by
  rw [decision, findSome?_eq_none_iff]
  intro entry member
  rcases mem_cons.mp (mem_reverse.mp member) with rfl | page
  · rfl
  · obtain ⟨write, -, rfl⟩ := mem_map.mp page
    rfl

theorem decision_piece (number : ℕ) (piece : Piece PageWrite) (txId : ℕ) : decision (piece.entries number) txId =
      match piece with
      | .autocommit _ => none
      | .transaction _ ending => if number = txId then some ending.state else none := by
  cases piece with
  | autocommit write => rfl
  | transaction writes ending =>
    rw [Piece.entries, decision_append, decision_open, Option.or_none]
    cases ending <;> simp [decision, Ending.entry, Ending.state, decision?]

theorem decision_eq_none
    (outside : txId < number ∨ number + used pieces ≤ txId) : decision (entriesFrom number pieces) txId = none := by
  induction pieces generalizing number with
  | nil => rfl
  | cons piece rest ih =>
    have total : used (piece :: rest) = piece.used + used rest := by simp [used]
    rw [entriesFrom, decision_append, ih (by omega), Option.none_or, decision_piece]
    cases piece with
    | autocommit write => rfl
    | transaction writes ending =>
      rw [Piece.used] at total
      exact if_neg (by omega)

/-- The pieces with the number the first transaction from there on gets. -/
def numbered {W : Type} (number : ℕ) : List (Piece W) → List (ℕ × Piece W)
  | [] => []
  | piece :: rest => (number, piece) :: numbered (number + piece.used) rest

theorem numbered_append (number : ℕ) (early late : List (Piece W)) :
    numbered number (early ++ late) = numbered number early ++ numbered (number + used early) late := by
  induction early generalizing number with
  | nil => rfl
  | cons piece rest ih =>
    have total : used (piece :: rest) = piece.used + used rest := by simp [used]
    rw [cons_append, numbered, numbered, ih, cons_append, total, Nat.add_assoc]

theorem le_of_mem_numbered {pieces : List (Piece W)} (member : entry ∈ numbered number pieces) : number ≤ entry.1 := by
  induction pieces generalizing number with
  | nil => cases member
  | cons piece rest ih =>
    rcases mem_cons.mp member with rfl | later
    · exact le_refl _
    · exact (Nat.le_add_right _ _).trans (ih later)

theorem mem_of_mem_numbered {pieces : List (Piece W)} (member : entry ∈ numbered number pieces) : entry.2 ∈ pieces := by
  induction pieces generalizing number with
  | nil => cases member
  | cons piece rest ih =>
    rcases mem_cons.mp member with rfl | later
    · exact mem_cons_self ..
    · exact mem_cons_of_mem _ (ih later)

theorem decision_of_mem_numbered (member : (txId, .transaction writes ending) ∈ numbered number pieces) :
    decision (entriesFrom number pieces) txId = some ending.state := by
  induction pieces generalizing number with
  | nil => cases member
  | cons piece rest ih =>
    rw [entriesFrom, decision_append]
    rcases mem_cons.mp member with here | later
    · cases here
      rw [decision_eq_none (.inl (by simp [Piece.used])), Option.none_or, decision_piece]
      exact if_pos rfl
    · rw [ih later, Option.some_or]

theorem isCommitted_entriesFrom (member : (txId, .transaction writes ending) ∈ numbered 1 pieces) :
    (analysis (entriesFrom 1 pieces)).isCommitted txId = true ↔ ending = .commit := by
  have nonzero : txId ≠ 0 := Nat.pos_iff_ne_zero.mp (le_of_mem_numbered member)
  rw [analysis_isCommitted, decision_of_mem_numbered member]
  cases ending <;> simp [nonzero, Ending.state]

theorem onDataPages_entriesFrom (number : ℕ) (pieces : List (Piece PageWrite)) :
    OnDataPages (entriesFrom number pieces) := by
  intro touch member
  obtain ⟨write, txId, rfl, -⟩ := exists_write_of_mem_entriesFrom member
  exact write.dataPage

/-- The pieces of the session, its unfinished transaction as if it had been rolled back. -/
def Session.closed {W : Type} (session : Session W) : List (Piece W) :=
  session.pieces ++
    match session.unfinished with
    | none => []
    | some writes => [.transaction writes .rollback]

def Session.outstanding : List LogEntry :=
  match session.unfinished with
  | none => []
  | some _ => [.rolledBack (1 + used session.pieces)]

theorem Session.entries_closed : session.entries ++ session.outstanding = entriesFrom 1 session.closed := by
  obtain ⟨pieces, unfinished⟩ := session
  cases unfinished with
  | none => simp [entries, outstanding, closed]
  | some writes =>
    rw [closed, entriesFrom_append, entries, append_assoc]
    simp [outstanding, entriesFrom, Piece.entries, Ending.entry]

theorem Session.page_not_mem_outstanding (touch : PageTouch) : LogEntry.page touch ∉ session.outstanding := by
  obtain ⟨pieces, unfinished⟩ := session
  cases unfinished <;> simp [outstanding]

theorem Session.page_mem_closed :
    LogEntry.page touch ∈ entriesFrom 1 session.closed ↔ LogEntry.page touch ∈ session.entries := by
  simp [← session.entries_closed, session.page_not_mem_outstanding]

theorem Session.committed_mem_closed :
    LogEntry.committed txId ∈ entriesFrom 1 session.closed ↔ LogEntry.committed txId ∈ session.entries := by
  have absent : LogEntry.committed txId ∉ session.outstanding := by
    obtain ⟨pieces, unfinished⟩ := session
    cases unfinished <;> simp [outstanding]
  simp [← session.entries_closed, absent]

theorem Session.touches_closed : touches (entriesFrom 1 session.closed) = touches session.entries := by
  have silent : touches session.outstanding = [] := by
    obtain ⟨pieces, unfinished⟩ := session
    cases unfinished <;> rfl
  rw [← session.entries_closed, touches_append, silent, append_nil]

theorem Session.isCommitted_closed :
    (analysis (entriesFrom 1 session.closed)).isCommitted = (analysis session.entries).isCommitted := by
  funext txId
  rw [Bool.eq_iff_iff, analysis_isCommitted, analysis_isCommitted, ← session.entries_closed, decision_append]
  obtain ⟨pieces, unfinished⟩ := session
  cases unfinished with
  | none => rfl
  | some writes =>
    by_cases own : 1 + used pieces = txId
    · -- the number of the unfinished transaction is decided nowhere else
      have undecided : decision (entries ⟨pieces, some writes⟩) txId = none := by
        rw [entries, decision_append, decision_eq_none (.inr own.le), Option.or_none, decision_open]
      rw [undecided]
      simp [own, outstanding, decision, decision?]
    · simp [own, outstanding, decision, decision?]

theorem Session.finalImage_closed (pid : ℕ) :
    finalImage (entriesFrom 1 session.closed) pid = finalImage session.entries pid := by
  simp only [finalImage, redoImage, undoImage, touchesOn, session.touches_closed, session.isCommitted_closed]

theorem Session.onDataPages (session : Session PageWrite) : OnDataPages session.entries :=
  fun touch member => onDataPages_entriesFrom 1 session.closed touch (session.page_mem_closed.mpr member)

end Tinydb.Tx
