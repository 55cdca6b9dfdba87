import Tinydb.Storage.Heap
import Tinydb.Tx.Session

/-! Sessions on real pages.

The heap reads the image it is about to replace and logs it, so the before-images
in the log follow from the writes and from what the pages held at the start.
A rollback writes them back, first write last, and leaves what was there before.
Pages are allocated and set up without a record before their first logged write;
a session may as well start with them in place.
-/

namespace Tinydb.Tx

open Lib Program Storage List Function TransactionManager Piece Session

def ImageWrite.write (write : ImageWrite) : TxM Unit := Heap.writePageLogged write.pid write.after.bytes

variable {writes : List ImageWrite}

abbrev Content := ℕ → Page

def written (content : Content) (writes : List ImageWrite) : Content :=
  writes.foldl (fun content write => update content write.pid write.after) content

def annotate (content : Content) : List ImageWrite → List PageWrite
  | [] => []
  | write :: rest => ⟨write, content write.pid⟩ :: annotate (update content write.pid write.after) rest

def Piece.annotate (content : Content) : Piece ImageWrite → Piece PageWrite
  | autocommit write => .autocommit ⟨write, content write.pid⟩
  | transaction writes ending => .transaction (Tx.annotate content writes) ending

def Piece.leave (content : Content) : Piece ImageWrite → Content
  | autocommit write => update content write.pid write.after
  | transaction writes .commit => written content writes
  | transaction _ .rollback => content

def leave (content : Content) (pieces : List (Piece ImageWrite)) : Content :=
  pieces.foldl (fun content piece => piece.leave content) content

def annotatePieces (content : Content) : List (Piece ImageWrite) → List (Piece PageWrite)
  | [] => []
  | piece :: rest => piece.annotate content :: annotatePieces (piece.leave content) rest

theorem annotatePieces_append (content : Content) (early late : List (Piece ImageWrite)) :
    annotatePieces content (early ++ late) = annotatePieces content early ++
    annotatePieces (leave content early) late := by
  induction early generalizing content with
  | nil => rfl
  | cons piece rest ih =>
    rw [cons_append, annotatePieces, annotatePieces, ih, cons_append]
    rfl

variable {content : Content} {pid : ℕ} {mgr mgr' : TransactionManager} {pager : Pager} {entries : List LogEntry}

theorem before_of_find?_annotate {write : PageWrite}
    (found : (annotate content writes).find? (·.pid = pid) = some write) : write.before = content pid := by
  induction writes generalizing content with
  | nil => cases found
  | cons first rest ih =>
    rw [annotate, find?_cons] at found
    by_cases same : first.pid = pid
    · subst same
      simp only [decide_true, Option.some.injEq] at found
      rw [← found]
    · simp only [same, decide_false] at found
      rw [ih found, update_of_ne (Ne.symm same)]

theorem written_of_not_mem
    (absent : (annotate content writes).find? (·.pid = pid) = none) : written content writes pid = content pid := by
  induction writes generalizing content with
  | nil => rfl
  | cons first rest ih =>
    rw [annotate, find?_cons] at absent
    by_cases same : first.pid = pid
    · simp [same] at absent
    · simp only [same, decide_false] at absent
      exact (ih absent).trans (update_of_ne (Ne.symm same) ..)

theorem restore_file {writes : List PageWrite} {pg pg' : Pager} (inside : ∀ write ∈ writes, write.pid < pg.numPages)
    (restored : (restore (writes.map fun write => (write.pid, write.before.bytes))).Returns pg () pg') :
    pg'.numPages = pg.numPages ∧
      ∀ pid, pg'.file pid = ((writes.find? (·.pid = pid)).map (·.before)).getD (pg.file pid) := by
  induction writes generalizing pg' with
  | nil =>
    obtain rfl := returns_forEach_nil.mp restored
    exact ⟨rfl, fun _ => rfl⟩
  | cons write rest ih =>
    rw [restore, map_cons, reverse_cons, returns_forEach_append] at restored
    obtain ⟨middle, later, first⟩ := restored
    obtain ⟨count, file⟩ := ih (fun other member => inside other (by simp [member])) later
    obtain ⟨_, last, done⟩ := returns_forEach_cons.mp first
    obtain rfl := returns_forEach_nil.mp done
    have bound : write.pid < middle.numPages := count ▸ inside write (by simp)
    rw [Program.Returns, Pager.writePage_inside write.nonzero bound] at last
    obtain ⟨-, rfl⟩ := last
    refine ⟨count, fun pid => ?_⟩
    rw [find?_cons]
    by_cases same : write.pid = pid
    · subst same
      simp
    · simp only [same, decide_false]
      rw [Pager.put_file_other _ _ (Ne.symm same), file]

/-- The pages hold `content`, the header page apart. -/
def OnPages (mgr : TransactionManager) (content : Content) : Prop := ∀ pid, pid ≠ 0 → mgr.pager.file pid = content pid

/-- Writes inside one piece: logged with what they replace, and in place. -/
structure WroteImages (content : Content) (writes : List ImageWrite) (mgr mgr' : TransactionManager) : Prop where
  holds : ∀ entries, mgr.wal.Holds entries →
    mgr'.wal.Holds (entries ++ (annotate content writes).map fun write => .page (write.touch mgr.currentTxId))
  active : mgr'.activeTx = mgr.activeTx
  next : mgr'.nextTxId = mgr.nextTxId
  loggedPages : mgr'.loggedPages =
    mgr.loggedPages ++ (annotate content writes).map fun write => (write.pid, write.before.bytes)
  numPages : mgr'.pager.numPages = mgr.pager.numPages
  inside : ∀ write ∈ annotate content writes, write.pid < mgr.pager.numPages
  pages : OnPages mgr' (written content writes)

theorem ImageWrite.wrote {write : ImageWrite} (ran : write.write.Returns mgr () mgr') (pages : OnPages mgr content) :
    WroteImages content [write] mgr mgr' := by
  obtain ⟨inside, room, rfl⟩ := (Heap.returns_writePageLogged write.nonzero write.after).mp ran
  have before := pages write.pid write.nonzero
  have entry : Heap.writeEntry mgr write.pid write.after =
      .page ((PageWrite.mk write (content write.pid)).touch mgr.currentTxId) := by
    rw [Heap.writeEntry, before]
    rfl
  refine ⟨fun entries holds => ?_, rfl, rfl, ?_, rfl, ?_, fun pid nonzero => ?_⟩
  · have logged := holds_logging holds room
    rw [entry] at logged
    rwa [Heap.wrote, TransactionManager.logged, before]
  · rw [Heap.wrote, TransactionManager.logged, before]
    rfl
  · intro logged member
    obtain rfl := mem_singleton.mp member
    exact inside
  · by_cases same : pid = write.pid
    · subst same
      simp [Heap.wrote, written]
    · simpa [Heap.wrote, written, same, Pager.put_file_other] using pages pid nonzero

theorem WroteImages.cons {write : ImageWrite} {rest : List ImageWrite} {middle : TransactionManager}
    (first : WroteImages content [write] mgr middle)
    (others : WroteImages (update content write.pid write.after) rest middle mgr') :
    WroteImages content (write :: rest) mgr mgr' := by
  have current : middle.currentTxId = mgr.currentTxId := by
    rw [currentTxId, first.active, currentTxId]
  refine ⟨fun entries holds => ?_, others.active.trans first.active, others.next.trans first.next, ?_,
    others.numPages.trans first.numPages, fun logged member => ?_, others.pages⟩
  · have all := others.holds _ (first.holds _ holds)
    rwa [current, append_assoc] at all
  · rw [others.loggedPages, first.loggedPages, append_assoc]
    rfl
  · rcases mem_cons.mp member with rfl | later
    · exact first.inside _ (mem_singleton_self _)
    · exact first.numPages ▸ others.inside _ later

theorem forEach_write (ran : (Program.forEach writes ImageWrite.write).Returns mgr () mgr')
    (pages : OnPages mgr content) : WroteImages content writes mgr mgr' := by
  induction writes generalizing mgr content with
  | nil =>
    obtain rfl := returns_forEach_nil.mp ran
    exact ⟨fun _ holds => by simpa [annotate] using holds, rfl, rfl, by simp [annotate], rfl,
      fun _ member => (not_mem_nil member).elim, pages⟩
  | cons write rest ih =>
    obtain ⟨middle, first, others⟩ := returns_forEach_cons.mp ran
    have here := ImageWrite.wrote first pages
    exact here.cons (ih others here.pages)

theorem WroteImages.rolledBack (wrote : WroteImages content writes mgr mgr') (fresh : mgr.loggedPages = [])
    (restored : (restore mgr'.loggedPages).Returns mgr'.pager () pager) (pid : ℕ) (nonzero : pid ≠ 0) :
    pager.file pid = content pid := by
  rw [wrote.loggedPages, fresh, nil_append] at restored
  obtain ⟨-, file⟩ := restore_file (fun write member => wrote.numPages ▸ wrote.inside write member) restored
  rw [file]
  cases found : (annotate content writes).find? (·.pid = pid) with
  | some write => exact before_of_find?_annotate found
  | none => exact (wrote.pages pid nonzero).trans (written_of_not_mem found)

theorem Piece.idle_of_writes {piece : Piece ImageWrite}
    (ran : (piece.run ImageWrite.write).Returns mgr () mgr') (idle : Idle mgr entries) (pages : OnPages mgr content) :
    Idle mgr' (entries ++ (piece.annotate content).entries mgr.nextTxId) ∧
      mgr'.nextTxId = mgr.nextTxId + piece.used ∧ OnPages mgr' (piece.leave content) := by
  cases piece with
  | autocommit write =>
    have wrote := ImageWrite.wrote ran pages
    have zero : mgr.currentTxId = 0 := by simp [currentTxId, idle.idle]
    have held := wrote.holds _ idle.holds
    rw [zero] at held
    exact ⟨⟨held, wrote.active.trans idle.idle⟩, wrote.next, wrote.pages⟩
  | transaction writes ending =>
    rw [run] at ran
    obtain ⟨tx, begun, opened, ran⟩ := returns_bind.mp ran
    obtain ⟨_, middle, wrote, closed⟩ := returns_bind.mp ran
    obtain ⟨-, room, rfl, rfl⟩ := returns_begin.mp opened
    have begunPages : OnPages mgr.begun content := pages
    have wrote := forEach_write wrote begunPages
    have held := wrote.holds _ (holds_logging idle.holds room)
    obtain ⟨ended, number⟩ := Ending.holds_of_returns closed held
    refine ⟨?_, number.trans wrote.next, ?_⟩
    · simpa [Piece.annotate, Piece.entries, currentTxId, begun,
        opening] using ended
    · cases ending with
      | commit =>
        obtain ⟨-, -, rfl⟩ := returns_commit.mp closed
        exact fun pid nonzero => ((Pager.setLastLsn_frame _).2.2 pid nonzero).trans (wrote.pages pid nonzero)
      | rollback =>
        obtain ⟨-, -, pager, restored, rfl⟩ := returns_rollback.mp closed
        exact wrote.rolledBack rfl restored

theorem used_annotate (content : Content) (piece : Piece ImageWrite) : (piece.annotate content).used = piece.used := by
  cases piece <;> rfl

theorem used_annotatePieces (content : Content) (pieces : List (Piece ImageWrite)) :
    used (annotatePieces content pieces) = used pieces := by
  induction pieces generalizing content with
  | nil => rfl
  | cons piece rest ih =>
    have step := ih (piece.leave content)
    simp only [used] at step
    simp [annotatePieces, used, used_annotate, step]

theorem idle_of_writes {pieces : List (Piece ImageWrite)}
    (ran : (Program.forEach pieces (run ImageWrite.write)).Returns mgr () mgr') (idle : Idle mgr entries)
    (pages : OnPages mgr content) : Idle mgr' (entries ++ entriesFrom mgr.nextTxId (annotatePieces content pieces)) ∧
      mgr'.nextTxId = mgr.nextTxId + used pieces ∧ OnPages mgr' (leave content pieces) := by
  induction pieces generalizing mgr entries content with
  | nil =>
    obtain rfl := returns_forEach_nil.mp ran
    exact ⟨by simpa [annotatePieces, entriesFrom] using idle, rfl, pages⟩
  | cons piece rest ih =>
    obtain ⟨middle, first, others⟩ := returns_forEach_cons.mp ran
    obtain ⟨idle', next, pages'⟩ := idle_of_writes first idle pages
    obtain ⟨last, number, final⟩ := ih others idle' pages'
    rw [append_assoc, next] at last
    refine ⟨?_, by rw [number, next]; simp [used, Nat.add_assoc], final⟩
    simpa [annotatePieces, entriesFrom, used_annotate] using last

def Session.annotate (content : Content) (session : Session ImageWrite) : Session PageWrite :=
  ⟨annotatePieces content session.pieces, session.unfinished.map (Tx.annotate (leave content session.pieces))⟩

theorem Session.holds_of_writes {session : Session ImageWrite}
    (ran : (session.run ImageWrite.write).Returns (.new pager ⟨[], 1⟩) () mgr) :
    mgr.wal.Holds (session.annotate pager.file).entries := by
  have idle : Idle (.new pager ⟨[], 1⟩) [] := ⟨Wal.holds_nil, rfl⟩
  have pages : OnPages (.new pager ⟨[], 1⟩) pager.file := fun _ _ => rfl
  rw [run] at ran
  obtain ⟨_, middle, finished, ran⟩ := returns_bind.mp ran
  obtain ⟨idle', next, pages'⟩ := idle_of_writes finished idle pages
  obtain ⟨pieces, unfinished⟩ := session
  cases unfinished with
  | none =>
    obtain ⟨-, rfl⟩ := returns_pure.mp ran
    simpa [entries, annotate, new] using idle'.holds
  | some writes =>
    obtain ⟨tx, begun, opened, wrote⟩ := returns_bind.mp ran
    obtain ⟨-, room, rfl, rfl⟩ := returns_begin.mp opened
    have wrote := forEach_write wrote (show OnPages middle.begun _ from pages')
    have held := wrote.holds _ (holds_logging idle'.holds room)
    rw [next] at held
    simpa [entries, annotate, used_annotatePieces, currentTxId,
      begun, opening, new, next] using held

end Tinydb.Tx
