import Tinydb.Tx.Content
import Tinydb.Tx.Redo

/-! Undo within one session.

Analysis keeps the last record of a transaction on a page, so undo writes back the
image that record replaced: the content before the transaction only where the
transaction wrote the page once, or came back to it. A page some committed record
touches is not undone at all; redo decides what it holds.
-/

namespace Tinydb.Tx

open Lib Program Storage List Function Pager Option LogEntry Piece Session

/-- The log says that transaction `txId` committed. -/
def CommitLogged (wal : Wal) (txId : ℕ) : Prop :=
  ∃ record ∈ wal.records, record.type = RT_COMMIT ∧ unpackTxId record.payload = .ok txId

structure PageRecord (wal : Wal) (record : WALRecord) (touch : PageTouch) : Prop where
  member : record ∈ wal.records
  type : record.type = RT_PAGE
  decoded : decodePageRecord record.payload = .ok touch

/-- A transaction that did not commit, by its first record on a page that no later record
with a committed image touches. -/
structure FirstUndone (wal : Wal) (record : WALRecord) (touch : PageTouch) : Prop where
  page : PageRecord wal record touch
  inTransaction : touch.txId ≠ 0
  uncommitted : ¬CommitLogged wal touch.txId
  first : ∀ other touch', PageRecord wal other touch' → touch'.pageId = touch.pageId → touch'.txId = touch.txId →
    record.lsn ≤ other.lsn
  last : ∀ other touch', PageRecord wal other touch' → touch'.pageId = touch.pageId → record.lsn < other.lsn →
    touch'.txId ≠ 0 ∧ ¬CommitLogged wal touch'.txId

variable {record : WALRecord} {txId : ℕ} {touch : PageTouch} {number : ℕ} {pieces : List (Piece ImageWrite)}
  (content : Content) (pid : ℕ)

theorem WALRecord.Holds.commit_iff {entry : LogEntry} (holds : record.Holds entry) (txId : ℕ) :
    record.type = RT_COMMIT ∧ unpackTxId record.payload = .ok txId ↔ entry = .committed txId := by
  obtain ⟨type, payload, fits⟩ := holds
  rw [type, payload]
  cases entry with
  | committed other =>
    rw [LogEntry.payload, unpackTxId_packBE fits]
    simp [LogEntry.type]
  | page _ => simp [LogEntry.type, RT_PAGE, RT_COMMIT]
  | began _ => simp [LogEntry.type, RT_BEGIN, RT_COMMIT]
  | rolledBack _ => simp [LogEntry.type, RT_ROLLBACK, RT_COMMIT]

section Entries

variable {wal : Wal} {entries : List LogEntry} (holds : wal.Holds entries)

include holds

theorem Wal.Holds.commitLogged_iff : CommitLogged wal txId ↔ committed txId ∈ entries := by
  have sameLength := holds.records.length_eq
  constructor
  · rintro ⟨record, member, commit⟩
    obtain ⟨i, inside, rfl⟩ := getElem_of_mem member
    have here := ((holds.at i inside (sameLength ▸ inside)).commit_iff txId).mp commit
    exact here ▸ getElem_mem _
  · intro member
    obtain ⟨i, inside, here⟩ := getElem_of_mem member
    have inside' : i < wal.records.length := sameLength ▸ inside
    exact ⟨_, getElem_mem inside', ((holds.at i inside' inside).commit_iff txId).mpr here⟩

theorem FirstUndone.split (target : FirstUndone wal record touch) :
    ∃ early late, entries = early ++ .page touch :: late ∧
      (∀ touch', .page touch' ∈ early → touch'.pageId = touch.pageId → touch'.txId ≠ touch.txId) ∧
      ∀ touch', .page touch' ∈ late → touch'.pageId = touch.pageId →
        touch'.txId ≠ 0 ∧ .committed touch'.txId ∉ entries := by
  have sameLength := holds.records.length_eq
  obtain ⟨i, inside, rfl⟩ := getElem_of_mem target.page.member
  have inside' : i < entries.length := sameLength ▸ inside
  have here : entries[i] = .page touch :=
    ((holds.at i inside inside').page_iff touch).mp ⟨target.page.type, target.page.decoded⟩
  have pageAt (j : ℕ) (bound : j < wal.records.length) (touch' : PageTouch)
      (same : entries.get ⟨j, sameLength ▸ bound⟩ = .page touch') : PageRecord wal wal.records[j] touch' :=
    have found := ((holds.at j bound (sameLength ▸ bound)).page_iff touch').mpr same
    ⟨getElem_mem bound, found.1, found.2⟩
  refine ⟨entries.take i, entries.drop (i + 1), ?_, fun touch' member page same => ?_, fun touch' member page => ?_⟩
  · rw [← here, getElem_cons_drop, take_append_drop]
  · obtain ⟨j, bound, found⟩ := getElem_of_mem member
    rw [length_take] at bound
    rw [getElem_take] at found
    have early : j < wal.records.length := by omega
    have := target.first _ _ (pageAt j early touch' found) page same
    rw [holds.sequence.lsn _ early, holds.sequence.lsn _ inside] at this
    omega
  · obtain ⟨k, bound, found⟩ := getElem_of_mem member
    rw [length_drop] at bound
    rw [getElem_drop] at found
    have late : i + 1 + k < wal.records.length := by omega
    rw [← holds.commitLogged_iff]
    refine target.last _ _ (pageAt _ late touch' found) page ?_
    rw [holds.sequence.lsn _ late, holds.sequence.lsn _ inside]
    omega

end Entries

def Piece.undone (pid : ℕ) : Piece PageWrite → Option Page
  | transaction writes .rollback => (writes.filter (·.pid = pid)).getLast?.map (·.before)
  | _ => none

theorem head?_touchesOn_entriesFrom {keep : ℕ → Bool} {pieces : List (Piece PageWrite)} (pid : ℕ)
    (zero : keep 0 = false) (positive : 0 < number)
    (agrees : ∀ txId writes ending, (txId, .transaction writes ending) ∈ numbered number pieces →
      (keep txId = true ↔ ending = .rollback)) :
    (Dict.ofWrites (touchesOn keep pid (entriesFrom number pieces))).items.head?.map (·.2.before) =
      pieces.findSome? (Piece.undone pid) := by
  induction pieces generalizing number with
  | nil => rfl
  | cons piece rest ih =>
    have others := ih (by omega : 0 < number + piece.used) fun txId writes ending member =>
      agrees txId writes ending (mem_cons_of_mem _ member)
    rw [entriesFrom, touchesOn_append, findSome?_cons]
    cases piece with
    | autocommit write =>
      rw [touchesOn_autocommit, zero]
      exact others
    | transaction writes ending =>
      rw [touchesOn_transaction]
      cases ending with
      | commit =>
        have dropped : ¬ keep number = true := fun kept =>
          Ending.noConfusion ((agrees _ _ _ (mem_cons_self ..)).mp kept)
        rw [if_neg dropped]
        exact others
      | rollback =>
        rw [if_pos ((agrees _ _ _ (mem_cons_self ..)).mpr rfl)]
        by_cases silent : writes.filter (·.pid = pid) = []
        · rw [silent, Piece.undone, silent]
          exact others
        · rw [Dict.head?_items_run (by simpa using silent), getLast?_map, Piece.undone]
          · rw [getLast?_eq_some_getLast silent]
            rfl
          · intro member
            obtain ⟨write, inside, key⟩ := mem_map.mp member
            obtain ⟨logged, same, -, -⟩ := mem_touchesOn.mp inside
            have number' : write.2.txId = number := congrArg Prod.fst (same.symm.trans key)
            rcases txId_of_mem_entriesFrom logged with zero | ⟨low, -⟩
            · omega
            · rw [Piece.used] at low
              omega

theorem undoImage_entriesFrom (pieces : List (Piece PageWrite)) (pid : ℕ) :
    undoImage (entriesFrom 1 pieces) pid = pieces.findSome? (Piece.undone pid) := by
  refine head?_touchesOn_entriesFrom pid (by simp [Analysis.isCommitted]) (by decide) fun txId writes ending member =>
    ?_
  rw [Bool.not_eq_true', ← Bool.not_eq_true, isCommitted_entriesFrom member]
  cases ending <;> simp

theorem written_eq_last (writes : List ImageWrite) :
    written content writes pid = ((writes.filter (·.pid = pid)).getLast?.map (·.after)).getD (content pid) := by
  induction writes generalizing content with
  | nil => rfl
  | cons write rest ih =>
    have step := ih (update content write.pid write.after)
    rw [written, foldl_cons, ← written, step]
    by_cases same : write.pid = pid
    · rw [filter_cons_of_pos (by simpa using same), getLast?_cons, ← same, update_self]
      cases (rest.filter (·.pid = write.pid)).getLast? <;> rfl
    · rw [filter_cons_of_neg (by simpa using same), update_of_ne (Ne.symm same)]

theorem leave_eq_last (pieces : List (Piece ImageWrite)) : leave content pieces pid =
      ((imagesBy id pid (pieces.filter Piece.commits)).getLast?.map Prod.snd).getD (content pid) := by
  induction pieces generalizing content with
  | nil => rfl
  | cons piece rest ih =>
    have step := ih (piece.leave content)
    have here : piece.leave content pid =
        ((if piece.commits then piece.imagesBy id pid else []).getLast?.map Prod.snd).getD (content pid) := by
      rcases piece with write | ⟨writes, _ | _⟩
      · by_cases same : pid = write.pid
        · subst same
          simp [Piece.leave, Piece.commits, Piece.imagesBy]
        · simp [Piece.leave, Piece.commits, Piece.imagesBy, same, Ne.symm same]
      · simp [Piece.leave, Piece.commits, Piece.imagesBy, written_eq_last, comp_def]
      · rfl
    rw [leave, foldl_cons, ← leave, step, here, imagesBy_filter_cons, getLast?_append]
    cases (imagesBy id pid (rest.filter Piece.commits)).getLast? <;> rfl

/-- What the last of the images replaced, when the page held `initial` before the first. -/
def replacedLast (initial : Page) (images : List Page) : Page := images.dropLast.getLast?.getD initial

theorem getLast?_before_annotate (writes : List ImageWrite) :
    ((annotate content writes).filter (·.pid = pid)).getLast?.map (·.before) =
    if writes.filter (·.pid = pid) = [] then none
      else some (replacedLast (content pid) ((writes.filter (·.pid = pid)).map (·.after))) := by
  induction writes generalizing content with
  | nil => rfl
  | cons write rest ih =>
    have step := ih (update content write.pid write.after)
    rw [annotate]
    by_cases same : write.pid = pid
    · subst same
      rw [filter_cons_of_pos (by simp), filter_cons_of_pos (by simp), if_neg (by simp), getLast?_cons]
      rw [update_self] at step
      split at step
      · next silent =>
        rw [map_eq_none_iff] at step
        simp [step, silent, replacedLast]
      · next more =>
        obtain ⟨last, found, before⟩ := map_eq_some_iff.mp step
        rw [found, map_cons, replacedLast, dropLast_cons_of_ne_nil (by simpa using more), getLast?_cons]
        simpa [replacedLast] using before
    · rw [filter_cons_of_neg (by simpa using same), filter_cons_of_neg (by simpa using same), step,
        update_of_ne (Ne.symm same)]

def Piece.undoneImages : Piece ImageWrite → List Page
  | transaction writes .rollback => (writes.filter (·.pid = pid)).map (·.after)
  | _ => []

/-- The images on the page of the first transaction that wrote it and did not commit. -/
def firstUndone : List (Piece ImageWrite) → List Page
  | [] => []
  | piece :: rest => if piece.undoneImages pid = [] then firstUndone rest else piece.undoneImages pid

theorem imagesBy_annotate (piece : Piece ImageWrite) :
    (piece.annotate content).imagesBy PageWrite.toImageWrite pid = piece.imagesBy id pid := by
  have plain : ∀ (writes : List ImageWrite) (content : Content),
      ((annotate content writes).filter (·.pid = pid)).map (fun write => (true, write.after)) =
        (writes.filter (·.pid = pid)).map fun write => (true, write.after) := by
    intro writes
    induction writes with
    | nil => intro content; rfl
    | cons write rest ih =>
      intro content
      rw [annotate]
      by_cases same : write.pid = pid
      · simp [same, ih]
      · simp [same, ih]
  cases piece with
  | autocommit write => rfl
  | transaction writes ending => exact plain writes content

theorem imagesOn_annotatePieces (pieces : List (Piece ImageWrite)) :
    imagesOn pid ((annotatePieces content pieces).filter Piece.commits) =
      imagesBy id pid (pieces.filter Piece.commits) := by
  induction pieces generalizing content with
  | nil => rfl
  | cons piece rest ih =>
    have ending : (piece.annotate content).commits = piece.commits := by cases piece <;> rfl
    rw [annotatePieces, imagesOn, imagesBy_filter_cons, imagesBy_filter_cons, imagesBy_annotate, ending, ← imagesOn, ih]

theorem findSome?_undone_annotatePieces (silent : imagesBy id pid (pieces.filter Piece.commits) = []) :
    (annotatePieces content pieces).findSome? (Piece.undone pid) =
      if firstUndone pid pieces = [] then none else some (replacedLast (content pid) (firstUndone pid pieces)) := by
  induction pieces generalizing content with
  | nil => rfl
  | cons piece rest ih =>
    rw [imagesBy_filter_cons, append_eq_nil_iff] at silent
    have kept : piece.leave content pid = content pid := by
      have last := leave_eq_last content pid [piece]
      rw [imagesBy_filter_cons, silent.1] at last
      exact last
    have step := ih (piece.leave content) silent.2
    rw [kept] at step
    rw [annotatePieces, findSome?_cons, step, firstUndone]
    rcases piece with write | ⟨writes, _ | _⟩
    · rfl
    · rfl
    · have here := getLast?_before_annotate content pid writes
      rw [Piece.annotate, Piece.undone, here, Piece.undoneImages]
      by_cases nothing : writes.filter (·.pid = pid) = []
      · simp [nothing]
      · have images : (writes.filter (·.pid = pid)).map (·.after) ≠ [] := by simpa using nothing
        rw [if_neg nothing, if_neg images, if_neg images]

theorem exists_transaction_of_page {content : Content}
    (member : LogEntry.page touch ∈ entriesFrom number (annotatePieces content pieces))
    (inTransaction : touch.txId ≠ 0) : ∃ early writes ending late, pieces = early ++
    .transaction writes ending :: late ∧
      touch.txId = number + used early := by
  induction pieces generalizing number content with
  | nil => cases member
  | cons piece rest ih =>
    rw [annotatePieces, entriesFrom, used_annotate, mem_append] at member
    rcases member with here | later
    · cases piece with
      | autocommit write =>
        obtain rfl : touch = PageWrite.touch 0 _ := by simpa [Piece.annotate, Piece.entries] using here
        exact absurd rfl inTransaction
      | transaction writes ending =>
        have inside : ((touch.txId, touch.pageId), touch) ∈ touches _ := mem_touches.mpr ⟨here, rfl⟩
        rw [Piece.annotate, touches_transaction] at inside
        obtain ⟨write, -, same⟩ := mem_map.mp inside
        obtain rfl : write.touch number = touch := congrArg Prod.snd same
        exact ⟨[], writes, ending, rest, rfl, rfl⟩
    · obtain ⟨early, writes, ending, late, rfl, number'⟩ := ih later
      exact ⟨piece :: early, writes, ending, late, rfl, by rw [number']; simp [used, Nat.add_assoc]⟩

theorem mem_of_append_eq {α : Type} {front back early late : List α} {x : α}
    (same : front ++ back = early ++ x :: late) (absent : x ∉ back) : ∀ y ∈ back, y ∈ late := by
  rcases append_eq_append_iff.mp same with ⟨middle, -, rfl⟩ | ⟨middle, -, rest⟩
  · exact absurd (by simp) absent
  · cases middle with
    | nil =>
      rw [nil_append] at rest
      exact absurd (rest ▸ mem_cons_self ..) absent
    | cons first middle =>
      cases rest
      exact fun y member => mem_append_right _ member

variable {pid : ℕ} {writes : List ImageWrite} {session : Session ImageWrite} {content : Content} {wal : Wal}
  {early late : List (Piece ImageWrite)} {ending : Ending}

theorem firstUndone_ne_nil {piece : Piece ImageWrite}
    (member : piece ∈ pieces) (wrote : piece.undoneImages pid ≠ []) : firstUndone pid pieces ≠ [] := by
  induction pieces with
  | nil => cases member
  | cons first rest ih =>
    rw [firstUndone]
    split
    · next silent =>
      rcases mem_cons.mp member with rfl | later
      · exact absurd silent wrote
      · exact ih later
    · assumption

theorem Session.annotate_closed : (session.annotate content).closed = annotatePieces content session.closed := by
  obtain ⟨pieces, unfinished⟩ := session
  cases unfinished with
  | none => simp [closed, Session.annotate]
  | some writes => simp [closed, Session.annotate, annotatePieces_append, annotatePieces, Piece.annotate]

theorem entriesFrom_annotate_split (content : Content) (early late : List (Piece ImageWrite))
    (writes : List ImageWrite) (ending : Ending) :
    entriesFrom 1 (annotatePieces content (early ++ .transaction writes ending :: late)) =
      (entriesFrom 1 (annotatePieces content early) ++
        (transaction (annotate (leave content early) writes) ending).entries (1 + used early)) ++
      entriesFrom (1 + used early + 1)
        (annotatePieces ((transaction writes ending).leave (leave content early)) late) := by
  rw [annotatePieces_append, entriesFrom_append, used_annotatePieces, annotatePieces, entriesFrom, append_assoc]
  rfl

theorem before_of_first {before after : List LogEntry} (number : touch.txId = 1 + used early)
    (split : entriesFrom 1 (annotatePieces content (early ++ .transaction writes ending :: late)) =
      before ++ .page touch :: after)
    (first : ∀ touch', .page touch' ∈ before → touch'.pageId = touch.pageId → touch'.txId ≠ touch.txId) :
    touch.before = leave content early touch.pageId ∧ writes.filter (·.pid = touch.pageId) ≠ [] := by
  have here : (touchesOn (fun txId => txId = touch.txId) touch.pageId
      (entriesFrom 1 (annotatePieces content (early ++ .transaction writes ending :: late)))).head? =
        some ((touch.txId, touch.pageId), touch) := by
    rw [split, touchesOn_append, touchesOn_eq_nil fun other member page => by simpa using first other member page,
      touchesOn_page (by simp)]
    rfl
  have others (entries : List LogEntry)
      (outside : ∀ other, .page other ∈ entries → other.txId = 0 ∨ other.txId < touch.txId ∨ touch.txId < other.txId) :
      touchesOn (fun txId => txId = touch.txId) touch.pageId entries = [] := by
    refine touchesOn_eq_nil fun other member _ => decide_eq_false fun same => ?_
    rcases outside other member with zero | low | high
    · omega
    · omega
    · omega
  have silentEarly := others (entriesFrom 1 (annotatePieces content early)) fun other member => by
    have range := txId_of_mem_entriesFrom member
    rw [used_annotatePieces] at range
    omega
  have silentLate := others (entriesFrom (1 + used early + 1)
      (annotatePieces ((transaction writes ending).leave (leave content early)) late)) fun other member => by
    have range := txId_of_mem_entriesFrom member
    omega
  rw [entriesFrom_annotate_split, touchesOn_append, touchesOn_append, silentEarly, silentLate, touchesOn_transaction,
    ← number, if_pos (by simp), nil_append, append_nil, head?_map, head?_map, head?_filter,
    Option.map_map] at here
  obtain ⟨write, found, same⟩ := map_eq_some_iff.mp here
  have touch' : write.touch touch.txId = touch := congrArg Prod.snd same
  refine ⟨?_, fun nothing => ?_⟩
  · rw [← before_of_find?_annotate found, ← congrArg PageTouch.before touch']
    rfl
  · have last := getLast?_before_annotate (leave content early) touch.pageId writes
    rw [if_pos nothing, map_eq_none_iff, getLast?_eq_none_iff, ← head?_eq_none_iff, head?_filter,
      found] at last
    cases last

theorem imagesBy_late_eq_nil (content : Content) {all : List (Piece ImageWrite)}
    (pieces : all = early ++ .transaction writes ending :: late)
    (undone : ∀ other, .page other ∈ entriesFrom (1 + used early + 1)
        (annotatePieces ((transaction writes ending).leave (leave content early)) late) → other.pageId = pid →
      (analysis (entriesFrom 1 (annotatePieces content all))).isCommitted other.txId = false) :
    imagesBy id pid (late.filter Piece.commits) = [] := by
  have agrees : ∀ txId writes' ending', (txId, .transaction writes' ending') ∈ numbered (1 + used early + 1)
      (annotatePieces ((transaction writes ending).leave (leave content early)) late) →
        ((analysis (entriesFrom 1 (annotatePieces content all))).isCommitted txId = true ↔ ending' = .commit) := by
    intro txId writes' ending' member
    have whole : (txId, .transaction writes' ending') ∈ numbered 1 (annotatePieces content all) := by
      rw [pieces, annotatePieces_append, numbered_append, used_annotatePieces, annotatePieces, numbered]
      exact mem_append_right _ (mem_cons_of_mem _ member)
    exact isCommitted_entriesFrom whole
  have images := map_touchesOn_entriesFrom pid (by simp [Analysis.isCommitted]) (by omega) agrees
  rw [touchesOn_eq_nil undone, imagesOn_annotatePieces] at images
  exact images.symm

/-- The transaction of the record among the pieces: it is rolled back, found the page as the pieces
before it left it, and no piece after it counts on the page. -/
theorem FirstUndone.piece (holds : wal.Holds (session.annotate content).entries)
    (target : FirstUndone wal record touch) :
    ∃ early writes late, session.closed = early ++ .transaction writes .rollback :: late ∧
      touch.before = leave content early touch.pageId ∧ writes.filter (·.pid = touch.pageId) ≠ [] ∧
      imagesBy id touch.pageId (late.filter Piece.commits) = [] := by
  obtain ⟨before, after, split, first, last⟩ := target.split holds
  have whole := (session.annotate content).entries_closed
  rw [split, annotate_closed, append_assoc, cons_append] at whole
  have logged : LogEntry.page touch ∈ entriesFrom 1 (annotatePieces content session.closed) := by
    rw [← whole]
    simp
  obtain ⟨early, writes, ending, late, pieces, number⟩ := exists_transaction_of_page logged target.inTransaction
  have uncommitted : committed touch.txId ∉ entriesFrom 1 (annotatePieces content session.closed) := by
    rw [← annotate_closed, committed_mem_closed, ← holds.commitLogged_iff]
    exact target.uncommitted
  obtain rfl : ending = .rollback := by
    cases ending with
    | rollback => rfl
    | commit =>
      rw [pieces, entriesFrom_annotate_split, ← number] at uncommitted
      simp [Piece.entries, Ending.entry] at uncommitted
  have found := before_of_first number (pieces ▸ whole.symm) first
  refine ⟨early, writes, late, pieces, found.1, found.2, ?_⟩
  have positions := entriesFrom_annotate_split content early late writes .rollback
  rw [← pieces, ← whole] at positions
  -- the records of later pieces stand behind the record, so they do not count on its page
  have behind := mem_of_append_eq positions.symm fun member => by
    have range := txId_of_mem_entriesFrom member
    have := target.inTransaction
    omega
  refine imagesBy_late_eq_nil content pieces fun other member page => ?_
  have inside : LogEntry.page other ∈ after := by
    simpa [page_not_mem_outstanding] using behind _ member
  obtain ⟨nonzero, undecided⟩ := last other inside page
  rw [← committed_mem_closed, annotate_closed] at undecided
  rw [Bool.eq_false_iff, Ne, analysis_isCommitted, not_or]
  exact ⟨nonzero, fun decided => undecided (committed_mem_of_decision decided)⟩

/-- What counts on the page was written in order; where nothing counts, the first transaction that wrote
the page without committing put its last image over the content the page had at the start. -/
def UndoExact (content : Content) (pid : ℕ) (pieces : List (Piece ImageWrite)) : Prop :=
  if imagesBy id pid (pieces.filter Piece.commits) = [] then
    replacedLast (content pid) (firstUndone pid pieces) = content pid
  else
    InOrder (imagesBy id pid (pieces.filter Piece.commits))

theorem finalImage_of_writes (session : Session ImageWrite) (content : Content) (pid : ℕ) :
    finalImage (session.annotate content).entries pid =
      (lastVisited (imagesBy id pid (session.closed.filter Piece.commits))).or
        ((annotatePieces content session.closed).findSome? (Piece.undone pid)) := by
  rw [← finalImage_closed, finalImage, redoImage_entriesFrom, undoImage_entriesFrom, annotate_closed,
    imagesOn_annotatePieces]

/-- Replay gives a page back the image a transaction first found there exactly when undo is exact. -/
theorem undo_restores_first_image_iff {pager : Pager} {mgr : TransactionManager}
    (ran : (session.run ImageWrite.write).Returns (.new pager ⟨[], 1⟩) () mgr)
    {file : ℕ → Page} {disk : Pager} (opened : openFile file = .ok disk)
    (target : FirstUndone mgr.wal record touch) : ∃ stats disk', (replay mgr.wal).Returns disk stats disk' ∧
      (disk'.file touch.pageId = touch.before ↔ UndoExact pager.file touch.pageId session.closed) := by
  have holds := Session.holds_of_writes ran
  obtain ⟨disk', returned, replayed⟩ := replay_returns holds (Session.onDataPages _) (openFile_fits opened)
  refine ⟨_, disk', returned, ?_⟩
  obtain ⟨early, writes, late, pieces, found, wrote, silent⟩ := target.piece holds
  have kept : imagesBy id touch.pageId (session.closed.filter Piece.commits) =
      imagesBy id touch.pageId (early.filter Piece.commits) := by
    have tail : imagesBy id touch.pageId
        ((transaction writes .rollback :: late).filter Piece.commits) = [] := by
      rw [imagesBy_filter_cons, silent]
      rfl
    rw [pieces, filter_append, imagesBy, flatMap_append, ← imagesBy, ← imagesBy, tail, append_nil]
  rw [leave_eq_last, ← kept] at found
  have final := finalImage_of_writes session pager.file touch.pageId
  rw [UndoExact]
  split
  · next nothing =>
    have undone : firstUndone touch.pageId session.closed ≠ [] :=
      firstUndone_ne_nil (pieces ▸ by simp : transaction writes .rollback ∈ session.closed)
        (by simpa [Piece.undoneImages] using wrote)
    rw [nothing, findSome?_undone_annotatePieces _ _ nothing, if_neg undone] at final
    rw [nothing] at found
    rw [(replayed.written _ _ final).1, found]
    rfl
  · next some' =>
    obtain ⟨page, visited⟩ := lastVisited_isSome some'
    obtain ⟨image, last⟩ := ne_none_iff_exists'.mp (mt getLast?_eq_none_iff.mp some')
    rw [visited, some_or] at final
    rw [(replayed.written _ _ final).1, ← lastVisited_eq_last_iff, visited, found, last]
    simp

theorem firstUndone_of_cut {late : List LogEntry}
    (holds : wal.Holds (.began txId :: .page touch :: late)) (nonzero : txId ≠ 0) (own : touch.txId = txId)
    (pages : ∀ entry ∈ late, ∃ other, entry = .page other ∧ other.txId = txId) :
    ∃ record, FirstUndone wal record touch := by
  have sameLength := holds.records.length_eq
  simp only [length_cons] at sameLength
  have inside : 1 < wal.records.length := by omega
  have uncommitted (number : ℕ) : ¬CommitLogged wal number := by
    rw [holds.commitLogged_iff]
    intro member
    simp only [mem_cons, reduceCtorEq, false_or] at member
    obtain ⟨other, impossible, -⟩ := pages _ member
    cases impossible
  obtain ⟨type, decoded⟩ := ((holds.at 1 inside (by simp)).page_iff touch).mpr rfl
  have numbered (record : WALRecord) (other : PageTouch) (page : PageRecord wal record other) :
      wal.records[1].lsn ≤ record.lsn ∧ other.txId = txId := by
    obtain ⟨j, bound, rfl⟩ := getElem_of_mem page.member
    have here := ((holds.at j bound (by simp; omega)).page_iff other).mp ⟨page.type, page.decoded⟩
    rw [holds.sequence.lsn _ bound, holds.sequence.lsn _ inside]
    refine ⟨?_, ?_⟩
    · cases j with
      | zero => cases here
      | succ j => omega
    · have member : LogEntry.page other ∈ .began txId :: .page touch :: late := here ▸ getElem_mem _
      simp only [mem_cons, reduceCtorEq, LogEntry.page.injEq, false_or] at member
      rcases member with rfl | later
      · exact own
      · obtain ⟨_, same, number⟩ := pages _ later
        cases same
        exact number
  exact ⟨_, ⟨getElem_mem inside, type, decoded⟩, own ▸ nonzero, uncommitted _,
    fun other touch' page _ _ => (numbered other touch' page).1,
    fun other touch' page _ _ => ⟨(numbered other touch' page).2 ▸ nonzero, uncommitted _⟩⟩

def rewriting : List ImageWrite := [.fourth (filled 1), .fourth (filled 2)]

theorem cut_rewriting (n : ℕ) (late : List ImageWrite) (ends : (Session.run ImageWrite.write
      ⟨[], some (.fourth (filled 1) :: late)⟩ (.new (initNew.extended n) ⟨[], 1⟩)).result.isOk = true) :
    ∃ mgr record, (Session.run ImageWrite.write ⟨[], some (.fourth (filled 1) :: late)⟩).Returns
        (.new (initNew.extended n) ⟨[], 1⟩) () mgr ∧
      FirstUndone mgr.wal record ⟨1, 4, (initNew.extended n).file 4, filled 1⟩ := by
  have ran := returns_of_isOk ends
  have holds := Session.holds_of_writes ran
  obtain ⟨record, target⟩ := firstUndone_of_cut holds Nat.one_ne_zero rfl fun entry member => by
    obtain ⟨write, -, rfl⟩ := mem_map.mp member
    exact ⟨_, rfl, rfl⟩
  exact ⟨_, record, ran, target⟩

theorem extended_file_four : (initNew.extended 5).file 4 = filled 0 := rfl

theorem openFile_extended (n : ℕ) (fits : (initNew.extended n).HeaderFits) :
    openFile (initNew.extended n).file = .ok (initNew.extended n) := openFile_of_stamped _ (initNew.file 0) fits rfl

/-- Undo leaves the first of two images on page 4 although the transaction found another one there. -/
theorem undo_keeps_first_of_two_images : ∃ mgr record touch, (Session.run ImageWrite.write ⟨[], some rewriting⟩).Returns
        (.new (initNew.extended 5) ⟨[], 1⟩) () mgr ∧ FirstUndone mgr.wal record touch ∧
      openFile (initNew.extended 5).file = .ok (initNew.extended 5) ∧
      ∃ stats disk', (replay mgr.wal).Returns (initNew.extended 5) stats disk' ∧
        disk'.file touch.pageId ≠ touch.before := by
  obtain ⟨mgr, record, ran, target⟩ := cut_rewriting 5 [.fourth (filled 2)] (by decide +kernel)
  obtain ⟨disk', returned, replayed⟩ := replay_returns (Session.holds_of_writes ran) (Session.onDataPages _)
    (show (initNew.extended 5).HeaderFits by decide)
  have undone : finalImage (Session.annotate (initNew.extended 5).file ⟨[], some rewriting⟩).entries 4 =
      some (filled 1) := by
    rw [finalImage_of_writes, findSome?_undone_annotatePieces _ _ rfl]
    rfl
  refine ⟨mgr, record, _, ran, target, openFile_extended 5 (by decide), _, disk', returned, ?_⟩
  rw [(replayed.written 4 _ undone).1, extended_file_four]
  exact fun same => absurd (filled_inj.mp same) (by decide)

theorem fifth_unreserved : RESERVED_PAGES ≤ 5 := by decide

theorem fifth_counted : U32 (5 + 1) := by decide

/-- An unfinished transaction's writes to two pages. -/
def writingTwoPages : List ImageWrite := [.fourth (filled 1), ⟨5, filled 2, fifth_unreserved, fifth_counted⟩]

theorem undo_restores_first_image_of_page : ∃ mgr, (Session.run ImageWrite.write ⟨[], some writingTwoPages⟩).Returns
        (.new (initNew.extended 6) ⟨[], 1⟩) () mgr ∧
      ∃ stats disk', (replay mgr.wal).Returns (initNew.extended 6) stats disk' ∧ disk'.file 4 = filled 0 := by
  obtain ⟨mgr, record, ran, target⟩ := cut_rewriting 6 [⟨5, filled 2, fifth_unreserved, fifth_counted⟩]
    (by decide +kernel)
  obtain ⟨stats, disk', returned, exactly⟩ := undo_restores_first_image_iff ran (openFile_extended 6 (by decide)) target
  exact ⟨mgr, ran, stats, disk', returned, exactly.mpr rfl⟩

end Tinydb.Tx
