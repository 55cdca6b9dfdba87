import Tinydb.Tx.SessionLog

/-! Redo within one session.

In a session whose transactions all commit, every record is redone, so a page
gets the image of the record visited last. Writes outside transactions share
the number 0 and are visited where the first of them stood; the order of visits
is the order of the log exactly when no transaction writes the page in between.
-/

namespace Tinydb.Tx

open Lib Storage List Program Pager

/-- `touch` is the page record of `pid` with the largest LSN in the log. -/
def IsLatest (wal : Wal) (pid : ℕ) (touch : PageTouch) : Prop :=
  ∃ record ∈ wal.records, record.type = RT_PAGE ∧ decodePageRecord record.payload = .ok touch ∧ touch.pageId = pid ∧
    ∀ other ∈ wal.records, other.type = RT_PAGE → ∀ touch', decodePageRecord other.payload = .ok touch' →
      touch'.pageId = pid → other.lsn ≤ record.lsn

variable {wal : Wal} {entries : List LogEntry} {pid : ℕ} {touch : PageTouch} {pieces : List (Piece PageWrite)}
  {images : List (Bool × Page)} (commits : ∀ piece ∈ pieces, piece.commits = true) {pager : Pager}
  {mgr : TransactionManager} (ran : (forEach pieces (Piece.run PageWrite.log)).Returns (.new pager ⟨[], 1⟩) () mgr)

theorem IsLatest.getLast? (holds : wal.Holds entries) (latest : IsLatest wal pid touch) :
    (touchesOn (fun _ => true) pid entries).getLast? = some ((touch.txId, pid), touch) := by
  obtain ⟨record, member, type, decoded, page, largest⟩ := latest
  obtain ⟨i, inside, rfl⟩ := getElem_of_mem member
  have sameLength := holds.records.length_eq
  have entryAt (j : ℕ) (bound : j < wal.records.length) := holds.at j bound (sameLength ▸ bound)
  have here : entries[i] = .page touch := ((entryAt i inside).page_iff touch).mp ⟨type, decoded⟩
  have silent : touchesOn (fun _ => true) pid (entries.drop (i + 1)) = [] := by
    refine touchesOn_eq_nil fun other logged at' => ?_
    obtain ⟨k, bound, same⟩ := getElem_of_mem logged
    rw [getElem_drop] at same
    rw [length_drop] at bound
    have late : i + 1 + k < wal.records.length := by omega
    obtain ⟨type', decoded'⟩ := ((entryAt _ late).page_iff other).mpr same
    have := largest _ (getElem_mem late) type' _ decoded' at'
    rw [holds.sequence.lsn _ late, holds.sequence.lsn _ inside] at this
    omega
  have split : entries = entries.take i ++ .page touch :: entries.drop (i + 1) := by
    rw [← here, getElem_cons_drop, take_append_drop]
  subst page
  rw [split, touchesOn_append, touchesOn_page rfl, silent, getLast?_concat]

section Images

variable {W : Type} (image : W → ImageWrite) (pid : ℕ)

/-- The images written to a page, in order, each with whether a transaction wrote it. -/
def Piece.imagesBy : Piece W → List (Bool × Page)
  | autocommit write => if (image write).pid = pid then [(false, (image write).after)] else []
  | transaction writes _ =>
    (writes.filter fun write => (image write).pid = pid).map fun write => (true, (image write).after)

def imagesBy (pieces : List (Piece W)) : List (Bool × Page) := pieces.flatMap (Piece.imagesBy image pid)

theorem imagesBy_cons (piece : Piece W) (rest : List (Piece W)) :
    imagesBy image pid (piece :: rest) = piece.imagesBy image pid ++ imagesBy image pid rest := rfl

theorem imagesBy_filter_cons (piece : Piece W) (rest : List (Piece W)) :
    imagesBy image pid ((piece :: rest).filter Piece.commits) =
      (if piece.commits then piece.imagesBy image pid else []) ++ imagesBy image pid (rest.filter Piece.commits) := by
  by_cases commits : piece.commits = true
  · rw [filter_cons_of_pos commits, imagesBy_cons, if_pos commits]
  · rw [filter_cons_of_neg commits, if_neg commits, nil_append]

end Images

abbrev imagesOn (pid : ℕ) (pieces : List (Piece PageWrite)) : List (Bool × Page) :=
  imagesBy PageWrite.toImageWrite pid pieces

/-- The image visited last: a transaction's last one where a transaction wrote the page after
a write outside transactions, and else the last one of all. -/
def lastVisited (images : List (Bool × Page)) : Option Page :=
  if [false, true].Sublist (images.map Prod.fst) then (images.filter (·.1)).getLast?.map Prod.snd
  else images.getLast?.map Prod.snd

theorem map_touchesOn_entriesFrom {keep : ℕ → Bool} {number : ℕ} (pid : ℕ)
    (zero : keep 0 = true) (positive : 0 < number)
    (agrees : ∀ txId writes ending, (txId, .transaction writes ending) ∈ numbered number pieces →
      (keep txId = true ↔ ending = .commit)) : (touchesOn keep pid (entriesFrom number pieces)).map
        (fun write => (decide (write.1 ≠ (0, pid)), write.2.after)) = imagesOn pid (pieces.filter Piece.commits) := by
  induction pieces generalizing number with
  | nil => rfl
  | cons piece rest ih =>
    have others := ih (by omega : 0 < number + piece.used) fun txId writes ending member =>
      agrees txId writes ending (mem_cons_of_mem _ member)
    rw [entriesFrom, touchesOn_append, map_append, others]
    cases piece with
    | autocommit write =>
      rw [filter_cons_of_pos rfl, imagesOn, imagesOn, imagesBy_cons, touchesOn_autocommit, zero, Piece.imagesBy]
      by_cases same : write.pid = pid
      · simp [same, PageWrite.touch]
      · simp [same]
    | transaction writes ending =>
      rw [touchesOn_transaction]
      by_cases committed : ending = .commit
      · rw [if_pos ((agrees _ _ _ (mem_cons_self ..)).mpr committed),
          filter_cons_of_pos (by simp [Piece.commits, committed]), imagesOn, imagesOn, imagesBy_cons,
          Piece.imagesBy, map_map,
          map_map]
        congr 1
        refine map_congr_left fun write _ => ?_
        simp [PageWrite.touch, Nat.pos_iff_ne_zero.mp positive]
      · rw [if_neg fun kept => committed ((agrees _ _ _ (mem_cons_self ..)).mp kept),
          filter_cons_of_neg (by simp [Piece.commits, committed])]
        rfl

theorem redoImage_eq_lastVisited (blocks : Dict.Blocks (0, pid) (touchesOn (analysis entries).isCommitted pid entries))
    (same : (touchesOn (analysis entries).isCommitted pid entries).map
      (fun write => (decide (write.1 ≠ (0, pid)), write.2.after)) = images) :
    redoImage entries pid = lastVisited images := by
  subst same
  rw [redoImage, blocks.getLast?_items, lastVisited, map_map]
  by_cases beyond : Dict.Overtaken (0, pid) (touchesOn (analysis entries).isCommitted pid entries)
  · rw [if_pos beyond, if_pos (by exact beyond), filter_map, getLast?_map, Option.map_map]
    rfl
  · rw [if_neg beyond, if_neg (by exact beyond), getLast?_map, Option.map_map]
    rfl

theorem redoImage_entriesFrom (pieces : List (Piece PageWrite)) (pid : ℕ) :
    redoImage (entriesFrom 1 pieces) pid = lastVisited (imagesOn pid (pieces.filter Piece.commits)) :=
  redoImage_eq_lastVisited (blocks_entriesFrom _ _ _ (by decide) _)
    (map_touchesOn_entriesFrom pid (by simp [Analysis.isCommitted]) (by decide)
      fun _ _ _ member => isCommitted_entriesFrom member)

include ran in
theorem holds_of_session : mgr.wal.Holds (entriesFrom 1 pieces) := by
  have idle : Idle (.new pager ⟨[], 1⟩) [] := ⟨Wal.holds_nil, rfl⟩
  exact (idle_of_returns ran idle).1.holds

include commits ran in
theorem replay_of_commits {disk : Pager} (fits : disk.HeaderFits) :
    ∃ stats disk', (replay mgr.wal).Returns disk stats disk' ∧
      ∀ pid page, lastVisited (imagesOn pid pieces) = some page → disk'.file pid = page := by
  obtain ⟨disk', returned, replayed⟩ := replay_returns (holds_of_session ran) (onDataPages_entriesFrom 1 pieces) fits
  refine ⟨_, disk', returned, fun pid page visited => (replayed.written pid page ?_).1⟩
  rw [finalImage, redoImage_entriesFrom, filter_eq_self.mpr commits, visited, Option.some_or]

include commits ran in
theorem IsLatest.image (latest : IsLatest mgr.wal pid touch) :
    (imagesOn pid pieces).getLast?.map Prod.snd = some touch.after := by
  have agrees : ∀ txId writes ending, (txId, .transaction writes ending) ∈ numbered 1 pieces →
      ((fun _ => true : ℕ → Bool) txId = true ↔ ending = .commit) := by
    intro txId writes ending member
    have committed := commits _ (mem_of_mem_numbered member)
    simpa [Piece.commits] using committed
  have images := map_touchesOn_entriesFrom pid rfl (by decide : 0 < 1) agrees
  rw [filter_eq_self.mpr commits] at images
  rw [← images, getLast?_map, latest.getLast? (holds_of_session ran)]
  rfl

theorem lastVisited_isSome (nonempty : images ≠ []) : ∃ page, lastVisited images = some page := by
  unfold lastVisited
  split
  next beyond =>
    obtain ⟨image, member, inside⟩ := mem_map.mp (beyond.subset (by simp : true ∈ [false, true]))
    have kept : image ∈ images.filter (·.1) := mem_filter.mpr ⟨member, inside⟩
    rw [getLast?_eq_some_getLast (ne_nil_of_mem kept)]
    exact ⟨_, rfl⟩
  next =>
    rw [getLast?_eq_some_getLast nonempty]
    exact ⟨_, rfl⟩

/-- No transaction's write to the page stands between writes outside transactions, or the image
it left is the last one all the same. -/
def InOrder (images : List (Bool × Page)) : Prop :=
  [false, true].Sublist (images.map Prod.fst) →
    (images.filter (·.1)).getLast?.map Prod.snd = images.getLast?.map Prod.snd

theorem lastVisited_eq_last_iff : lastVisited images = images.getLast?.map Prod.snd ↔ InOrder images := by
  unfold lastVisited InOrder
  by_cases beyond : [false, true].Sublist (images.map Prod.fst)
  · simp [beyond]
  · simp [beyond]

/-- Replay gives a page the after-image of its latest record exactly when its writes are in order. -/
theorem redo_follows_log_order_iff
    (commits : ∀ piece ∈ pieces, piece.commits = true) {pager : Pager} {mgr : TransactionManager}
    (ran : (forEach pieces (Piece.run PageWrite.log)).Returns (.new pager ⟨[], 1⟩) () mgr)
    {file : ℕ → Page} {disk : Pager} (opened : openFile file = .ok disk)
    (latest : IsLatest mgr.wal pid touch) : ∃ stats disk', (replay mgr.wal).Returns disk stats disk' ∧
      (disk'.file pid = touch.after ↔ InOrder (imagesOn pid pieces)) := by
  obtain ⟨stats, disk', returned, written⟩ := replay_of_commits commits ran (openFile_fits opened)
  have last := latest.image commits ran
  refine ⟨stats, disk', returned, ?_⟩
  have written' : imagesOn pid pieces ≠ [] := by
    intro nothing
    simp [nothing] at last
  obtain ⟨page, visited⟩ := lastVisited_isSome written'
  rw [written pid page visited, ← lastVisited_eq_last_iff, visited, last, Option.some.injEq]

theorem isLatest_of_concat (entries : List LogEntry)
    (holds : wal.Holds (entries ++ [.page touch])) : IsLatest wal touch.pageId touch := by
  have sameLength := holds.records.length_eq
  rw [length_append, length_singleton] at sameLength
  have inside : entries.length < wal.records.length := by omega
  have last : wal.records[entries.length].Holds (.page touch) := by simpa using holds.at _ inside (by simp)
  obtain ⟨type, decoded⟩ := (last.page_iff touch).mpr rfl
  refine ⟨_, getElem_mem inside, type, decoded, rfl, fun other member _ _ _ _ => ?_⟩
  obtain ⟨i, bound, rfl⟩ := getElem_of_mem member
  rw [holds.sequence.lsn i bound, holds.sequence.lsn _ inside]
  omega

/-- Three writes to page 4: outside, inside and again outside a transaction. -/
def overtakenSession : List (Piece PageWrite) :=
  [.autocommit ⟨ImageWrite.fourth (filled 1), filled 0⟩,
   .transaction [⟨ImageWrite.fourth (filled 2), filled 1⟩] .commit,
   .autocommit ⟨ImageWrite.fourth (filled 3), filled 2⟩]

theorem overtakenSession_runs : ∃ mgr, (forEach overtakenSession (Piece.run PageWrite.log)).Returns
    (.new .initNew ⟨[], 1⟩) () mgr := ⟨_, returns_of_isOk (by decide +kernel)⟩

/-- Replay leaves the transaction's image on page 4 although a later record holds another one. -/
theorem redo_keeps_overtaken_image : ∃ mgr touch, (forEach overtakenSession (Piece.run PageWrite.log)).Returns
        (.new .initNew ⟨[], 1⟩) () mgr ∧ IsLatest mgr.wal 4 touch ∧ openFile initNew.file = .ok .initNew ∧
      ∃ stats disk', (replay mgr.wal).Returns .initNew stats disk' ∧ disk'.file 4 ≠ touch.after := by
  obtain ⟨mgr, ran⟩ := overtakenSession_runs
  have commits : ∀ piece ∈ overtakenSession, piece.commits = true := by decide
  obtain ⟨stats, disk', returned, written⟩ := replay_of_commits commits ran (show initNew.HeaderFits by decide)
  have latest : IsLatest mgr.wal 4 ⟨0, 4, filled 2, filled 3⟩ :=
    isLatest_of_concat (entriesFrom 1 overtakenSession).dropLast (holds_of_session ran)
  refine ⟨mgr, _, ran, latest, openFile_initNew, stats, disk', returned, ?_⟩
  rw [written 4 (filled 2) rfl]
  exact fun same => absurd (filled_inj.mp same) (by decide)

/-- A transaction's write and one outside behind it are redone in their order. -/
theorem redo_follows_log_order_tail : ∃ mgr, (forEach overtakenSession.tail (Piece.run PageWrite.log)).Returns
        (.new .initNew ⟨[], 1⟩) () mgr ∧
      ∃ stats disk', (replay mgr.wal).Returns .initNew stats disk' ∧ disk'.file 4 = filled 3 := by
  have commits : ∀ piece ∈ overtakenSession.tail, piece.commits = true := by decide
  obtain ⟨mgr, ran⟩ : ∃ mgr, (forEach overtakenSession.tail (Piece.run PageWrite.log)).Returns
      (.new .initNew ⟨[], 1⟩) () mgr := ⟨_, returns_of_isOk (by decide +kernel)⟩
  have latest : IsLatest mgr.wal 4 ⟨0, 4, filled 2, filled 3⟩ :=
    isLatest_of_concat (entriesFrom 1 overtakenSession.tail).dropLast (holds_of_session ran)
  obtain ⟨stats, disk', returned, exactly⟩ :=
    redo_follows_log_order_iff commits ran openFile_initNew latest
  exact ⟨mgr, ran, stats, disk', returned, exactly.mpr fun beyond => absurd beyond (by decide)⟩

end Tinydb.Tx
