import Tinydb.Storage.HeapInsert

/-! A heap is a finite map from rids to records.

`Store` is what the heap is for: which rids were handed out and what each of them
holds. A history is any sequence of calls on one heap, each of which returned or
raised; the store changes with the calls that returned. Slots are handed out once
and a delete only empties its own, so every history is a history of the map.
-/

namespace Tinydb.Storage.Heap

open Lib Program Tx TransactionManager List Function Pager

structure Store where
  issued : List Rid
  content : Rid → Option Bytes

namespace Store

def empty : Store := ⟨[], fun _ => none⟩

def insert (store : Store) (rid : Rid) (record : Bytes) : Store :=
  ⟨rid :: store.issued, update store.content rid (some record)⟩

def delete (store : Store) (rid : Rid) : Store := { store with content := update store.content rid none }

end Store

variable {heads : List ℕ} {pg : Pager} {lay : Layout} {pid : ℕ} {mgr : TransactionManager} {rid : Rid} {pages : List ℕ}
  {record : Bytes} {head : ℕ} {logs : Bool} {mgr' : TransactionManager} {store : Store} {lay' : Layout} {α : Type}
  {p : TxM α}

def Layout.start (lay : Layout) (pid : ℕ) : Layout := { lay with chain := update lay.chain pid [pid] }

theorem NewHead.laid (laid : Laid heads pg lay) (new : NewHead heads lay pg pid) (notHead : pid ∉ heads) :
    Laid (pid :: heads) pg (lay.start pid) := by
  have own : (lay.start pid).chain pid = [pid] := update_self ..
  have others {head : ℕ} (member : head ∈ heads) : (lay.start pid).chain head = lay.chain head :=
    update_of_ne (ne_of_mem_of_not_mem member notHead) ..
  have mem {head q : ℕ} (member : head ∈ pid :: heads) (here : q ∈ (lay.start pid).chain head) :
      head = pid ∧ q = pid ∨ head ∈ heads ∧ q ∈ lay.chain head := by
    rcases mem_cons.mp member with rfl | member
    · rw [own, mem_singleton] at here
      exact .inl ⟨rfl, here⟩
    · rw [others member] at here
      exact .inr ⟨member, here⟩
  have forall_heads {P : ℕ → List ℕ → Prop} (first : P pid [pid]) (rest : ∀ head ∈ heads, P head (lay.chain head)) :
      ∀ head ∈ pid :: heads, P head ((lay.start pid).chain head) := by
    intro head member
    rcases mem_cons.mp member with rfl | member
    · rw [own]
      exact first
    · rw [others member]
      exact rest head member
  refine ⟨forall_heads ⟨rfl, new.real, ?_⟩ laid.chain, laid.free,
    forall_heads (P := fun _ pages => pages ≠ []) (cons_ne_nil _ _) laid.nonempty,
    forall_heads (P := fun _ pages => pages.Nodup) (nodup_singleton _) laid.distinct, laid.freeDistinct,
    fun head member other member' q here here' => ?_,
    fun head member q here => ?_, fun head member q here => ?_, laid.freeInside, fun head member q here => ?_,
    laid.reserved, laid.magic⟩
  · rw [new.empty]
    exact emptyPage_fields.1
  · rcases mem member here with ⟨first, same⟩ | ⟨old, older⟩ <;>
      rcases mem member' here' with ⟨first', same'⟩ | ⟨old', older'⟩
    · exact first.trans first'.symm
    · exact (new.owned other old' (same ▸ older')).elim
    · exact (new.owned head old (same' ▸ older)).elim
    · exact laid.apart head old other old' q older older'
  · rcases mem member here with ⟨rfl, rfl⟩ | ⟨member, here⟩
    · exact new.notFree
    · exact laid.notFree head member q here
  · rcases mem member here with ⟨rfl, rfl⟩ | ⟨member, here⟩
    · exact ⟨new.reserved, new.inside⟩
    · exact laid.inside head member q here
  · rcases mem member here with ⟨rfl, rfl⟩ | ⟨member, here⟩
    · rw [new.empty]
      exact slotted_empty _ _
    · exact laid.slotted head member q here

theorem returns_new_end (none : mgr.pager.freeHead = NO_FREE) (nonzero : mgr.pager.numPages ≠ 0)
    (fits : Pager.HeaderFits { mgr.pager with numPages := mgr.pager.numPages + 1 }) :
    new.Returns mgr mgr.pager.numPages
      { mgr with pager := (mgr.pager.extended (mgr.pager.numPages + 1)).put mgr.pager.numPages emptyPage } := by
  have zero : (mgr.pager.extended (mgr.pager.numPages + 1)).file mgr.pager.numPages = zeroPage :=
    (put_file_other _ _ nonzero).trans (if_pos ⟨le_refl _, Nat.lt_succ_self _⟩)
  have ends : new.wp (fun pid mgr' => pid = mgr.pager.numPages ∧
      mgr' = { mgr with pager := (mgr.pager.extended (mgr.pager.numPages + 1)).put mgr.pager.numPages emptyPage })
      (fun _ _ => False) mgr := by
    rw [new, wp_bind, onPager, wp_zoom, allocatePage, wp_bind, wp_read]
    simp only [none, ne_eq, not_true_eq_false, if_false]
    rw [wp_bind, wp_extendTo (Nat.lt_succ_self _)]
    refine ⟨fun _ => ?_, fun large => large fits⟩
    have inside : mgr.pager.numPages < (mgr.pager.extended (mgr.pager.numPages + 1)).numPages := Nat.lt_succ_self _
    rw [wp_pure, wp_bind, wp_readPage inside]
    simp only
    rw [zero, writeHeader_eq _ (by decide), wp_bind, wp_ofExcept_ok, wp_bind,
      wp_writePage _ nonzero inside, wp_bind]
    refine (wp_refreshFsm inside).mpr ⟨fun beyond => ?_, fun _ => ⟨rfl, rfl⟩⟩
    rw [show (_ : TransactionManager).pager.file mgr.pager.numPages = emptyPage from put_file_same _ _ _] at beyond
    rw [freeBytes_emptyPage] at beyond
    omega
  rcases returns_or_raises new mgr with ⟨pid, mgr', returned⟩ | ⟨e, mgr', raised⟩
  · obtain ⟨rfl, rfl⟩ := ends.returns returned
    exact returned
  · exact (ends.raises raised).elim

def newFile : TransactionManager := TransactionManager.new initNew (Wal.openFile [])

def firstHeap : TransactionManager := { newFile with pager := (initNew.extended 5).put 4 emptyPage }

theorem returns_firstHeap : new.Returns newFile 4 firstHeap := returns_new_end rfl (by decide) (by decide)

theorem file_firstHeap : firstHeap.pager.file 4 = emptyPage := put_file_same _ _ _

theorem laid_firstHeap : ∃ lay, Laid [4] firstHeap.pager lay ∧ lay.chain 4 = [4] := by
  obtain ⟨pager, lay, same, took, head⟩ := (wp_new laid_initNew).returns returns_firstHeap
  have laid := head.laid took.laid (by simp)
  have own : (lay.start 4).chain 4 = [4] := by simp [Layout.start]
  rw [congrArg TransactionManager.pager same]
  exact ⟨lay.start 4, laid, own⟩

/-- Before another rid: earlier in the chain, or an earlier slot of one page. -/
def Before (pages : List ℕ) (a b : Rid) : Prop :=
  pages.idxOf a.pageId < pages.idxOf b.pageId ∨ a.pageId = b.pageId ∧ a.slotId < b.slotId

theorem mem_liveOn {page : Page} :
    rid ∈ liveOn pid page ↔ rid.pageId = pid ∧ rid.slotId < slotCount page ∧ (slotAt page rid.slotId).flags ≠ 0 := by
  rw [liveOn, mem_map]
  constructor
  · rintro ⟨i, used, rfl⟩
    obtain ⟨inside, used⟩ := mem_filter.mp used
    exact ⟨rfl, mem_range.mp inside, of_decide_eq_true used⟩
  · rintro ⟨rfl, inside, used⟩
    exact ⟨rid.slotId, mem_filter.mpr ⟨mem_range.mpr inside, decide_eq_true used⟩, rfl⟩

theorem liveOn_pairwise (pages : List ℕ) (pid : ℕ) (page : Page) : (liveOn pid page).Pairwise (Before pages) := by
  rw [liveOn, pairwise_map]
  exact (pairwise_lt_range.filter _).imp fun earlier => .inr ⟨rfl, earlier⟩

theorem flatMap_liveOn_pairwise (file : ℕ → Page) (distinct : pages.Nodup) :
    (pages.flatMap fun q => liveOn q (file q)).Pairwise (Before pages) := by
  rw [pairwise_flatMap]
  refine ⟨fun q _ => liveOn_pairwise pages q (file q), ?_⟩
  refine pairwise_iff_getElem.mpr fun i j inside inside' earlier a live b live' => .inl ?_
  rw [(mem_liveOn.mp live).1, (mem_liveOn.mp live').1, distinct.idxOf_getElem i inside,
    distinct.idxOf_getElem j inside']
  exact earlier

theorem Before.irrefl (pages : List ℕ) (a : Rid) : ¬ Before pages a a := by
  rintro (earlier | ⟨-, earlier⟩) <;> exact Nat.lt_irrefl _ earlier

theorem used_read (used : Used mgr lay head rid) :
    recordAt (mgr.pager.file rid.pageId) rid.slotId = some record ↔ (rid, record) ∈ rows mgr lay head :=
  ⟨fun found => mem_rowsOf.mpr ⟨used.1, used.2, found⟩, fun live => (mem_rowsOf.mp live).2.2⟩

theorem returns_read_used (laid : Laid heads mgr.pager lay) (member : head ∈ heads)
    (used : Used mgr lay head rid) {content : Option Bytes}
    (content_iff : ∀ record, content = some record ↔ (rid, record) ∈ rows mgr lay head) :
    (read rid).Returns mgr content mgr := by
  have found := returns_read rid (laid.inside head member _ used.1).2 (laid.slotted head member _ used.1)
  rw [if_pos used.2] at found
  have same : recordAt (mgr.pager.file rid.pageId) rid.slotId = content :=
    Option.ext fun record => (used_read used).trans (content_iff record).symm
  rwa [same] at found

theorem mem_scanned (solid : SolidChain mgr lay head) :
    rid ∈ ((lay.chain head).flatMap fun q => liveOn q (mgr.pager.file q)) ↔
      ∃ record, (rid, record) ∈ rows mgr lay head := by
  rw [mem_flatMap]
  constructor
  · rintro ⟨q, here, live⟩
    obtain ⟨rfl, inside, used⟩ := mem_liveOn.mp live
    refine ⟨_, mem_rowsOf.mpr ⟨here, inside, if_neg ?_⟩⟩
    rintro (unused | empty)
    · exact used unused
    · exact solid rid.pageId here rid.slotId inside used empty
  · rintro ⟨record, live⟩
    obtain ⟨here, inside, found⟩ := mem_rowsOf.mp live
    refine ⟨rid.pageId, here, mem_liveOn.mpr ⟨rfl, inside, fun unused => ?_⟩⟩
    rw [recordAt, if_pos (.inl unused)] at found
    cases found

/-- Calls on the heap at `head`, each of which returned or raised, and the map they amount to. Deletes are on pages
of the heap. -/
inductive History (logs : Bool) (head : ℕ) : TransactionManager → Store → Prop
  | start {mgr mgr' : TransactionManager} {lay : Layout} (sound : Laid [] mgr.pager lay)
      (made : new.Returns mgr head mgr') : History logs head mgr' .empty
  | insert {mgr mgr' : TransactionManager} {store : Store} {record : Bytes} {rid : Rid}
      (history : History logs head mgr store) (sized : 1 ≤ record.length ∧ record.length ≤ 4078)
      (returned : (Heap.insert logs head record).Returns mgr rid mgr') :
      History logs head mgr' (store.insert rid record)
  | insertRaised {mgr mgr' : TransactionManager} {store : Store} {record : Bytes} {e : Exc}
      (history : History logs head mgr store) (sized : 1 ≤ record.length ∧ record.length ≤ 4078)
      (raised : (Heap.insert logs head record).Raises mgr e mgr') : History logs head mgr' store
  | delete {mgr mgr' : TransactionManager} {store : Store} {rid : Rid} {pages : List ℕ}
      (history : History logs head mgr store) (chain : Chain mgr.pager.file head pages) (own : rid.pageId ∈ pages)
      (returned : (Heap.delete logs rid).Returns mgr () mgr') : History logs head mgr' (store.delete rid)
  | deleteRaised {mgr mgr' : TransactionManager} {store : Store} {rid : Rid} {pages : List ℕ} {e : Exc}
      (history : History logs head mgr store) (chain : Chain mgr.pager.file head pages) (own : rid.pageId ∈ pages)
      (raised : (Heap.delete logs rid).Raises mgr e mgr') : History logs head mgr' store
  | read {mgr mgr' : TransactionManager} {store : Store} {rid : Rid} {value : Option Bytes}
      (history : History logs head mgr store) (returned : (Heap.read rid).Returns mgr value mgr') :
      History logs head mgr' store
  | readRaised {mgr mgr' : TransactionManager} {store : Store} {rid : Rid} {e : Exc}
      (history : History logs head mgr store) (raised : (Heap.read rid).Raises mgr e mgr') :
      History logs head mgr' store

/-- The pages of the heap hold what the store says. -/
structure Refines (head : ℕ) (mgr : TransactionManager) (store : Store) (lay : Layout) : Prop where
  laid : Laid [head] mgr.pager lay
  solid : SolidChain mgr lay head
  issued : ∀ rid ∈ store.issued, Used mgr lay head rid
  content : ∀ rid record, store.content rid = some record ↔ (rid, record) ∈ rows mgr lay head

def LogGrows (mgr mgr' : TransactionManager) : Prop := mgr.wal.nextLsn ≤ mgr'.wal.nextLsn

theorem logGrows_bind {β : Type} {f : α → TxM β} (first : p.Keeps LogGrows)
    (rest : ∀ a, (f a).Keeps LogGrows) : (p >>= f).Keeps LogGrows :=
  keeps_bind (R := LogGrows) (fun _ _ _ => Nat.le_trans) first rest

theorem logGrows_reads (reads : p.Reads) : p.Keeps LogGrows := fun mgr =>
  ⟨(reads mgr).1 ▸ Nat.le_refl _, fun t passed => (reads mgr).2 t passed ▸ Nat.le_refl _⟩

theorem logGrows_onPager (p : PagerM α) : (onPager p).Keeps LogGrows :=
  keeps_zoom (Q := fun _ _ => True) (fun _ => ⟨trivial, fun _ _ => trivial⟩) fun _ _ _ => Nat.le_refl _

theorem logGrows_logPageWrite (pid : ℕ) (before after : Bytes) : (logPageWrite pid before after).Keeps LogGrows := by
  refine logGrows_bind (logGrows_reads Program.reads_read) fun mgr => ?_
  refine logGrows_bind (logGrows_reads (reads_ofExcept _)) fun payload => logGrows_bind ?_ fun _ => ?_
  · refine keeps_zoom (Q := fun wal wal' => wal.nextLsn ≤ wal'.nextLsn) (fun wal => ?_) fun _ _ grows => grows
    by_cases fits : wal.Appendable RT_PAGE payload
    · rw [Wal.append_apply fits]
      exact ⟨Nat.le_succ _, by simp [Wal.push]⟩
    · rw [Wal.append_apply_of_not fits]
      exact ⟨Nat.le_refl _, by simp⟩
  · exact keeps_modify fun _ => Nat.le_refl _

theorem logGrows_writePageBy (pid : ℕ) (page : Bytes) : (writePageBy logs pid page).Keeps LogGrows := by
  rw [writePageBy]
  split
  · refine logGrows_bind (logGrows_onPager _) fun before => ?_
    exact logGrows_bind (logGrows_logPageWrite _ _ _) fun _ => logGrows_onPager _
  · exact logGrows_bind (logGrows_onPager _) fun _ => logGrows_onPager _

theorem logGrows_appendOverflowPage (tail : ℕ) : (appendOverflowPage logs tail).Keeps LogGrows := by
  refine logGrows_bind (logGrows_onPager _) fun new => logGrows_bind (logGrows_onPager _) fun page => ?_
  refine logGrows_bind (logGrows_reads (reads_ofExcept _)) fun data => ?_
  refine logGrows_bind (logGrows_writePageBy _ _) fun _ => logGrows_bind (logGrows_onPager _) fun fresh => ?_
  refine logGrows_bind (logGrows_reads (reads_ofExcept _)) fun freshData => ?_
  exact logGrows_bind (logGrows_writePageBy _ _) fun _ => logGrows_reads (reads_pure _)

theorem logGrows_findRoom (needed fuel pid : ℕ) : (findRoom logs needed fuel pid).Keeps LogGrows := by
  induction fuel generalizing pid with
  | zero => exact logGrows_reads (reads_raise _)
  | succ fuel ih =>
    refine logGrows_bind (logGrows_reads (reads_refreshFsm _)) fun free => ?_
    split
    · exact logGrows_reads (reads_pure _)
    · refine logGrows_bind (logGrows_onPager _) fun page => ?_
      split
      · refine logGrows_bind (logGrows_appendOverflowPage _) fun new => ?_
        refine logGrows_bind (logGrows_reads (reads_refreshFsm _)) fun _ => ?_
        exact logGrows_bind (logGrows_reads (reads_refreshFsm _)) fun _ => logGrows_reads (reads_pure _)
      · exact ih _

theorem logGrows_insert (record : Bytes) : (Heap.insert logs head record).Keeps LogGrows := by
  refine logGrows_bind (logGrows_reads Program.reads_read) fun mgr =>
    logGrows_bind (logGrows_findRoom _ _ _) fun pid => ?_
  refine logGrows_bind (logGrows_onPager _) fun page => logGrows_bind (logGrows_reads (reads_ofExcept _)) fun _ => ?_
  refine logGrows_bind (logGrows_reads (reads_ofExcept _)) fun _ => logGrows_bind (logGrows_writePageBy _ _) fun _ => ?_
  exact logGrows_bind (logGrows_reads (reads_refreshFsm _)) fun _ => logGrows_reads (reads_pure _)

theorem logGrows_delete (rid : Rid) : (Heap.delete logs rid).Keeps LogGrows := by
  refine logGrows_bind (logGrows_onPager _) fun page => ?_
  split
  · exact logGrows_reads (reads_pure _)
  · exact logGrows_bind (logGrows_reads (reads_ofExcept _)) fun _ => logGrows_writePageBy _ _

theorem Refines.new (sound : Laid [] mgr.pager lay) (made : new.Returns mgr head mgr') :
    ∃ lay', Refines head mgr' .empty lay' := by
  obtain ⟨pager, lay', rfl, took, fresh⟩ := (wp_new sound).returns made
  have own : (lay'.start head).chain head = [head] := update_self ..
  refine ⟨lay'.start head, ⟨fresh.laid took.laid (by simp), fun q here => ?_, by simp [Store.empty],
    fun rid record => ?_⟩⟩
  · rw [own, mem_singleton] at here
    rw [here, fresh.empty]
    exact solid_empty _ _
  · rw [rows, own]
    simp [Store.empty, rowsOf, fresh.empty, emptyPage, recordsOn_empty]

theorem Refines.kept (refines : Refines head mgr store lay) (kept : Kept logs [head] mgr lay head mgr' lay') :
    Refines head mgr' store lay' where
  laid := kept.laid
  solid := kept.solid refines.solid
  issued := fun rid given => kept.used rid (refines.issued rid given)
  content := fun rid record => by
    rw [kept.rows]
    exact refines.content rid record

theorem Refines.inserted (refines : Refines head mgr store lay)
    (inserted : Inserted logs [head] mgr lay head rid record mgr' lay') :
    rid ∉ store.issued ∧ Refines head mgr' (store.insert rid record) lay' := by
  have live : (rid, record) ∈ rows mgr' lay' head := inserted.rows.mem_iff.mpr (by simp)
  refine ⟨fun given => inserted.fresh (refines.issued rid given), inserted.laid, inserted.solid refines.solid, ?_, ?_⟩
  · intro other given
    rcases mem_cons.mp given with rfl | given
    · exact used_of_mem_rows live
    · exact inserted.used other (refines.issued other given)
  · intro other record'
    rw [inserted.rows.mem_iff, mem_cons, ← refines.content, Store.insert]
    by_cases same : other = rid
    · have unused : store.content rid ≠ some record' := fun found =>
        inserted.fresh (used_of_mem_rows ((refines.content _ _).mp found))
      subst same
      simp [unused, eq_comm]
    · simp [same]

theorem Refines.deleted (refines : Refines head mgr store lay)
    (deleted : Deleted logs [head] mgr lay head rid mgr' lay') : Refines head mgr' (store.delete rid) lay' where
  laid := deleted.laid
  solid := deleted.solid refines.solid
  issued := fun other given => deleted.used other (refines.issued other given)
  content := fun other record => by
    rw [deleted.rows, mem_filter, ← refines.content, Store.delete]
    by_cases same : other = rid
    · simp [same]
    · simp [same]

theorem not_overlaps (fits : record.length ≤ 4078) : ¬ Overlaps logs mgr pages record := by
  rintro ⟨-, -, -, -, beyond⟩
  unfold DATA_START HEADER_SIZE SLOT_SIZE PAGE_SIZE at beyond
  omega

theorem Refines.insertRaised {e : Exc} (refines : Refines head mgr store lay)
    (sized : 1 ≤ record.length ∧ record.length ≤ 4078) (raised : (Heap.insert logs head record).Raises mgr e mgr')
    (room : logs = true → Roomy mgr') : ∃ lay', Kept logs [head] mgr lay head mgr' lay' := by
  have nonempty : record ≠ [] := ne_nil_of_length_pos sized.1
  rcases (wp_insert refines.laid (by simp) nonempty).raises raised with ⟨-, kept⟩ | ⟨-, torn⟩ | ⟨overlaps, -⟩
  · exact kept
  · exact absurd torn.last (room torn.logging).ne
  · exact (not_overlaps sized.2 overlaps).elim

theorem Refines.own (refines : Refines head mgr store lay)
    (chain : Chain mgr.pager.file head pages) (own : rid.pageId ∈ pages) : rid.pageId ∈ lay.chain head :=
  (refines.laid.chain head (by simp)).unique chain ▸ own

theorem History.refines (history : History logs head mgr store) (room : logs = true → Roomy mgr) :
    ∃ lay, Refines head mgr store lay := by
  induction history with
  | start sound made => exact Refines.new sound made
  | insert _ sized returned ih =>
    obtain ⟨lay, refines⟩ := ih fun isLogging => ((logGrows_insert _).of_returns returned).trans_lt (room isLogging)
    have nonempty := ne_nil_of_length_pos sized.1
    obtain ⟨lay', inserted⟩ := (wp_insert refines.laid (by simp) nonempty).returns returned
    exact ⟨lay', (refines.inserted inserted).2⟩
  | insertRaised _ sized raised ih =>
    obtain ⟨lay, refines⟩ := ih fun isLogging => ((logGrows_insert _).of_raises raised).trans_lt (room isLogging)
    obtain ⟨lay', kept⟩ := refines.insertRaised sized raised room
    exact ⟨lay', refines.kept kept⟩
  | delete _ chain own returned ih =>
    obtain ⟨lay, refines⟩ := ih fun isLogging => ((logGrows_delete _).of_returns returned).trans_lt (room isLogging)
    have deleted := (wp_delete refines.laid (by simp) (refines.own chain own)).returns returned
    exact ⟨lay, refines.deleted deleted⟩
  | deleteRaised _ chain own raised ih =>
    obtain ⟨lay, refines⟩ := ih fun isLogging => ((logGrows_delete _).of_raises raised).trans_lt (room isLogging)
    obtain rfl := (wp_delete refines.laid (by simp) (refines.own chain own)).raises raised
    exact ⟨lay, refines⟩
  | read _ returned ih =>
    obtain rfl := (reads_read _).of_returns returned
    exact ih room
  | readRaised _ raised ih =>
    obtain rfl := (reads_read _).of_raises raised
    exact ih room

/-- The heap is a finite map: rids read what the map holds, a new rid was never given out before, the chain has no
cycle, and a scan finds the live rids in the order of the chain and of the slots. -/
theorem heap_is_finite_map (history : History logs head mgr store) (room : logs = true → Roomy mgr) :
    (∀ rid ∈ store.issued, (read rid).Returns mgr (store.content rid) mgr) ∧
    (∀ record rid mgr', 1 ≤ record.length → (Heap.insert logs head record).Returns mgr rid mgr' → rid ∉ store.issued) ∧
    ∃ pages rids, Chain mgr.pager.file head pages ∧ pages.Nodup ∧ (scan head).Returns mgr rids mgr ∧ rids.Nodup ∧
      (∀ rid, rid ∈ rids ↔ (store.content rid).isSome) ∧ rids.Pairwise (Before pages) := by
  obtain ⟨lay, refines⟩ := history.refines room
  have laid := refines.laid
  have member : head ∈ [head] := by simp
  refine ⟨fun rid given => ?_, fun record rid mgr' sized returned => ?_, ?_⟩
  · exact returns_read_used laid member (refines.issued rid given) (refines.content rid)
  · have nonempty := ne_nil_of_length_pos sized
    obtain ⟨lay', inserted⟩ := (wp_insert laid member nonempty).returns returned
    exact (refines.inserted inserted).1
  · have order := flatMap_liveOn_pairwise mgr.pager.file (laid.distinct head member)
    have once : ((lay.chain head).flatMap fun q => liveOn q (mgr.pager.file q)).Nodup := by
      refine order.imp fun {a b} before same => ?_
      rw [same] at before
      exact Before.irrefl _ b before
    refine ⟨lay.chain head, _, laid.chain head member, laid.distinct head member, returns_scan laid member,
      once, fun rid => ?_, order⟩
    rw [mem_scanned refines.solid, Option.isSome_iff_exists]
    exact exists_congr fun record => (refines.content rid record).symm

/-- A heap of two records. -/
def twoRecords : TransactionManager := (Heap.insert false 4 [8] (Heap.insert false 4 [7] firstHeap).state).state

/-- Of two records the first is deleted. -/
theorem heap_is_finite_map_delete : ∃ mgr, (Heap.delete false ⟨4, 0⟩).Returns twoRecords () mgr ∧
    (read ⟨4, 0⟩).Returns mgr none mgr ∧ (read ⟨4, 1⟩).Returns mgr (some [8]) mgr ∧
    (scan 4).Returns mgr [⟨4, 1⟩] mgr := by
  have first : (Heap.insert false 4 [7]).Returns firstHeap ⟨4, 0⟩ _ := ⟨by decide +kernel, rfl⟩
  have second : (Heap.insert false 4 [8]).Returns _ ⟨4, 1⟩ twoRecords := ⟨by decide +kernel, rfl⟩
  have ends : nextPid (twoRecords.pager.file 4) = NO_NEXT := by decide +kernel
  have chain : Chain twoRecords.pager.file 4 [4] := ⟨rfl, by decide, ends⟩
  have deleted : (Heap.delete false ⟨4, 0⟩).Returns twoRecords () _ := ⟨by decide +kernel, rfl⟩
  have stored := (History.start laid_initNew returns_firstHeap).insert (by decide) first
  obtain ⟨reads, -, pages, rids, -, -, scanned, once, live, -⟩ :=
    heap_is_finite_map ((stored.insert (by decide) second).delete chain (by decide) deleted) fun isLogging => by
      cases isLogging
  have only : rids = [⟨4, 1⟩] := by
    refine perm_singleton.mp ((perm_ext_iff_of_nodup once (nodup_singleton _)).mpr fun rid => ?_)
    rw [live, mem_singleton]
    by_cases isFirst : rid = ⟨4, 0⟩
    · simp [isFirst, Store.delete]
    · by_cases isSecond : rid = ⟨4, 1⟩ <;> simp [isFirst, isSecond, Store.delete, Store.insert, Store.empty]
  exact ⟨_, deleted, reads ⟨4, 0⟩ (by decide), reads ⟨4, 1⟩ (by decide), only ▸ scanned⟩

end Tinydb.Storage.Heap
