import Tinydb.Storage.HeapOps

/-! What writing to a heap does to the records of a file.

Rewriting one page of a chain changes the records of that page and no others, so
each operation is described by the heap it touches and what became of its
records. Deleting empties a slot; a new heap takes a page without a log record.
-/

namespace Tinydb.Storage.Heap

open Lib Program Tx TransactionManager List Pager

variable {page : Page} {other : ℕ} {rid : Rid} {record : Bytes} {pid : ℕ} {logs : Bool} {heads : List ℕ}
  {mgr mgr' : TransactionManager} {lay lay' : Layout} {head : ℕ}

section Rewrite

variable {pg : Pager} (laid : Laid heads pg lay) (member : head ∈ heads)
  (here : pid ∈ lay.chain head)

theorem rowsOf_put_outside {pages : List ℕ} (outside : pid ∉ pages) (page : Page) :
    rowsOf (pg.put pid page).file pages = rowsOf pg.file pages :=
  rowsOf_congr fun _ member => put_file_other pg page fun same => outside (same ▸ member)

include laid member here

theorem Laid.put (link : nextPid page = nextPid (pg.file pid)) (slotted : Slotted page) :
    Laid heads (pg.put pid page) lay := by
  have links (q : ℕ) : nextPid ((pg.put pid page).file q) = nextPid (pg.file q) := by
    by_cases same : q = pid
    · rw [same, put_file_same, link]
    · rw [put_file_other _ _ same]
  refine { laid with
    chain := fun other member' => (laid.chain other member').congr fun q _ => links q
    free := laid.free.congr fun q _ => links q
    slotted := fun other member' q here' => ?_
    magic := ?_ }
  · by_cases same : q = pid
    · rw [same, put_file_same]
      exact slotted
    · rw [put_file_other _ _ same]
      exact laid.slotted other member' q here'
  · rw [put_file_other _ _ (laid.nonzero member here).symm]
    exact laid.magic

theorem Laid.rowsOf_put :
    ∃ front back, (∀ entry ∈ front ++ back, entry.1.pageId ≠ pid) ∧
      rowsOf pg.file (lay.chain head) = front ++ recordsOn pid (pg.file pid) ++ back ∧
      ∀ page, rowsOf (pg.put pid page).file (lay.chain head) = front ++ recordsOn pid page ++ back := by
  obtain ⟨before, after, split⟩ := append_of_mem here
  have distinct := laid.distinct head member
  rw [split] at distinct
  have notBefore : pid ∉ before := fun again => (nodup_append.mp distinct).2.2 pid again pid (by simp) rfl
  have notAfter : pid ∉ after := (nodup_cons.mp (nodup_append.mp distinct).2.1).1
  refine ⟨rowsOf pg.file before, rowsOf pg.file after, ?_, ?_, fun page => ?_⟩
  · rintro ⟨rid, record⟩ found rfl
    rcases mem_append.mp found with found | found
    · exact notBefore (mem_rowsOf.mp found).1
    · exact notAfter (mem_rowsOf.mp found).1
  · rw [split]
    simp [rowsOf]
  · rw [split]
    have whole : rowsOf (pg.put pid page).file (before ++ pid :: after) = rowsOf (pg.put pid page).file before ++
        recordsOn pid page ++ rowsOf (pg.put pid page).file after := by simp [rowsOf]
    rw [whole, rowsOf_put_outside notBefore, rowsOf_put_outside notAfter]

theorem Laid.rowsOf_put_other (member' : other ∈ heads) (differs : other ≠ head) (page : Page) :
    rowsOf (pg.put pid page).file (lay.chain other) = rowsOf pg.file (lay.chain other) :=
  rowsOf_put_outside (fun here' => differs (laid.apart other member' head member pid here' here)) page

end Rewrite

/-- The records of the heap at `head`. -/
abbrev rows (mgr : TransactionManager) (lay : Layout) (head : ℕ) : List (Rid × Bytes) :=
  rowsOf mgr.pager.file (lay.chain head)

def Used (mgr : TransactionManager) (lay : Layout) (head : ℕ) (rid : Rid) : Prop :=
  rid.pageId ∈ lay.chain head ∧ rid.slotId < slotCount (mgr.pager.file rid.pageId)

theorem used_of_mem_rows (live : (rid, record) ∈ rows mgr lay head) : Used mgr lay head rid :=
    ⟨(mem_rowsOf.mp live).1, (mem_rowsOf.mp live).2.1⟩

def SolidChain (mgr : TransactionManager) (lay : Layout) (head : ℕ) : Prop :=
  ∀ pid ∈ lay.chain head, Solid (mgr.pager.file pid)

/-- One heap changed; the others did not. Slots are never given back. -/
structure Touches (logs : Bool) (heads : List ℕ) (mgr : TransactionManager) (lay : Layout) (head : ℕ)
    (mgr' : TransactionManager) (lay' : Layout) : Prop where
  laid : Laid heads mgr'.pager lay'
  moves : Moves logs mgr lay.free mgr' lay'.free
  others : ∀ other ∈ heads, other ≠ head → rows mgr' lay' other = rows mgr lay other
  used : ∀ rid, Used mgr lay head rid → Used mgr' lay' head rid
  solid : SolidChain mgr lay head → SolidChain mgr' lay' head

structure Kept (logs : Bool) (heads : List ℕ) (mgr : TransactionManager) (lay : Layout) (head : ℕ)
    (mgr' : TransactionManager) (lay' : Layout) : Prop extends Touches logs heads mgr lay head mgr' lay' where
  rows : rows mgr' lay' head = rows mgr lay head

structure Inserted (logs : Bool) (heads : List ℕ) (mgr : TransactionManager) (lay : Layout)
    (head : ℕ) (rid : Rid) (record : Bytes)
    (mgr' : TransactionManager) (lay' : Layout) : Prop extends Touches logs heads mgr lay head mgr' lay' where
  rows : (rows mgr' lay' head).Perm ((rid, record) :: Heap.rows mgr lay head)
  fresh : ¬ Used mgr lay head rid

structure Deleted (logs : Bool) (heads : List ℕ) (mgr : TransactionManager) (lay : Layout) (head : ℕ) (rid : Rid)
    (mgr' : TransactionManager) (lay' : Layout) : Prop extends Touches logs heads mgr lay head mgr' lay' where
  rows : rows mgr' lay' head = (Heap.rows mgr lay head).filter fun entry => entry.1 ≠ rid

theorem Kept.refl (laid : Laid heads mgr.pager lay) : Kept logs heads mgr lay head mgr lay :=
  ⟨⟨laid, .refl, fun _ _ _ => rfl, fun _ used => used, id⟩, rfl⟩

theorem Kept.of_took (laid : Laid heads mgr.pager lay) (member : head ∈ heads) {pager : Pager}
    (took : Took heads mgr.pager lay pager lay') : Kept logs heads mgr lay head { mgr with pager } lay' := by
  have same := took.chain_same laid member
  refine ⟨⟨took.laid, .of_took took, fun _ member' _ => took.rowsOf laid member', fun rid ⟨here, slot⟩ => ?_,
    fun solid q here => ?_⟩, took.rowsOf laid member⟩
  · rw [Used, took.chain, same _ here]
    exact ⟨here, slot⟩
  · rw [took.chain] at here
    exact (same q here).symm ▸ solid q here

theorem Kept.all (kept : Kept logs heads mgr lay head mgr' lay') (member : other ∈ heads) :
    Heap.rows mgr' lay' other = Heap.rows mgr lay other := by
  by_cases same : other = head
  · rw [same]
    exact kept.rows
  · exact kept.others other member same

theorem Kept.inserted (kept : Kept logs heads mgr lay head mgr' lay')
    {mgr'' : TransactionManager} {lay'' : Layout}
    (inserted : Inserted logs heads mgr' lay' head rid record mgr'' lay'') :
    Inserted logs heads mgr lay head rid record mgr'' lay'' where
  laid := inserted.laid
  moves := kept.moves.trans inserted.moves
  others := fun other member differs => (inserted.others other member differs).trans (kept.others other member differs)
  used := fun rid used => inserted.used rid (kept.used rid used)
  solid := fun solid => inserted.solid (kept.solid solid)
  rows := by
    rw [← kept.rows]
    exact inserted.rows
  fresh := fun used => inserted.fresh (kept.used rid used)

theorem Laid.touches_wrote (laid : Laid heads mgr.pager lay) (member : head ∈ heads)
    (here : pid ∈ lay.chain head) (link : nextPid page = nextPid (mgr.pager.file pid))
    (slotted : Slotted page) (slots : slotCount (mgr.pager.file pid) ≤ slotCount page)
    (solid : Solid (mgr.pager.file pid) → Solid page) (room : CanWrite logs mgr pid page) :
    Touches logs heads mgr lay head (wroteBy logs mgr pid page) lay where
  laid := by
    rw [wroteBy_pager]
    exact laid.put member here link slotted
  moves := Moves.refl.write page (laid.nonzero member here) (laid.inside head member pid here).2
    (laid.notFree head member pid here) room
  others := fun _ member' differs => by
    rw [rows, wroteBy_pager]
    exact laid.rowsOf_put_other member here member' differs page
  used := fun rid ⟨here', slot⟩ => by
    refine ⟨here', ?_⟩
    rw [wroteBy_pager]
    by_cases same : rid.pageId = pid
    · rw [same, put_file_same]
      exact lt_of_lt_of_le (same ▸ slot) slots
    · rwa [put_file_other _ _ same]
  solid := fun all q here' => by
    rw [wroteBy_pager]
    by_cases same : q = pid
    · rw [same, put_file_same]
      exact solid (all pid here)
    · rw [put_file_other _ _ same]
      exact all q here'

theorem wp_delete (laid : Laid heads mgr.pager lay) (member : head ∈ heads) (here : rid.pageId ∈ lay.chain head) :
    (delete logs rid).wp (fun _ mgr' => Deleted logs heads mgr lay head rid mgr' lay)
    (fun _ mgr' => mgr' = mgr) mgr := by
  have slotted := laid.slotted head member _ here
  rw [delete, wp_bind, wp_readPage (laid.inside head member _ here).2, wp_ite]
  refine ⟨fun beyond => ?_, fun inside => ?_⟩
  · refine (wp_pure _).mpr ⟨(Kept.refl laid : Kept logs heads mgr lay head mgr lay).toTouches, ?_⟩
    refine (filter_eq_self.mpr ?_).symm
    rintro ⟨rid', record⟩ found
    refine decide_eq_true fun same : rid' = rid => ?_
    exact Nat.not_lt.mpr beyond (same ▸ (mem_rowsOf.mp found).2.1)
  · have used : rid.slotId < slotCount (mgr.pager.file rid.pageId) := Nat.not_le.mp inside
    rw [writeSlot_eq _ (slotted.slotFits used) (by decide), wp_bind, wp_ofExcept_ok,
      wp_writePageBy (laid.nonzero member here) (laid.inside head member _ here).2]
    refine ⟨fun room => ⟨laid.touches_wrote member here (slotted.erased_fields used).1 (slotted.erased used)
      (slotted.erased_fields used).2.1.ge (slotted.solid_erased used) room, ?_⟩,
      fun _ => rfl⟩
    obtain ⟨front, back, elsewhere, split, written⟩ := laid.rowsOf_put member here
    have keeps {entries : List (Rid × Bytes)} (sub : entries ⊆ front ++ back) :
        (entries.filter fun entry => entry.1 ≠ rid) = entries := by
      refine filter_eq_self.mpr fun entry found => decide_eq_true fun same => ?_
      exact elsewhere entry (sub found) (congrArg Rid.pageId same)
    rw [rows, wroteBy_pager, written, rows, split, filter_append, filter_append, keeps (subset_append_left _ _),
      keeps (subset_append_right _ _)]
    congr 2
    exact slotted.recordsOn_erased used

def freeBytes (page : Page) : ℤ := slotsStart (slotCount page) - dataEnd page

theorem wp_refreshFsm {Q : ℕ → TransactionManager → Prop} {E : Exc → TransactionManager → Prop}
    (inside : pid < mgr.pager.numPages) : (refreshFsm pid).wp Q E mgr ↔
      (freeBytes (mgr.pager.file pid) < 0 → E ⟨.valueError, "free_bytes must be >= 0, got " ++
          toString (freeBytes (mgr.pager.file pid))⟩ mgr) ∧
        (0 ≤ freeBytes (mgr.pager.file pid) → Q (freeBytes (mgr.pager.file pid)).toNat mgr) := by
  rw [refreshFsm, wp_bind, wp_readPage inside]
  exact wp_ite.trans (and_congr Iff.rfl (imp_congr_left Int.not_lt))

def emptyPage : Page := withHeader zeroPage NO_NEXT 0 DATA_START

theorem emptyPage_fields : nextPid emptyPage = NO_NEXT ∧ slotCount emptyPage = 0 ∧ dataEnd emptyPage = DATA_START :=
  ⟨nextPid_withHeader _ (by decide), slotCount_withHeader _ (by decide), dataEnd_withHeader _ (by decide)⟩

theorem freeBytes_emptyPage : freeBytes emptyPage = 4084 := by
  obtain ⟨-, slots, data⟩ := emptyPage_fields
  rw [freeBytes, slots, data]
  decide

/-- The page a new heap starts at. -/
structure NewHead (heads : List ℕ) (lay : Layout) (pg : Pager) (pid : ℕ) : Prop where
  reserved : RESERVED_PAGES ≤ pid
  inside : pid < pg.numPages
  real : pid ≠ NO_NEXT
  owned : ∀ head ∈ heads, pid ∉ lay.chain head
  notFree : pid ∉ lay.free
  empty : pg.file pid = emptyPage

theorem Took.put {pg pg' : Pager} (took : Took heads pg lay pg' lay') (page : Page)
    (nonzero : pid ≠ 0) (owned : ∀ head ∈ heads, pid ∉ lay'.chain head) (notFree : pid ∉ lay'.free)
    (new : pid ∈ lay.free ∨ pg.numPages ≤ pid) : Took heads pg lay (pg'.put pid page) lay' := by
  have same (q : ℕ) (other : q ≠ pid) : (pg'.put pid page).file q = pg'.file q := put_file_other _ _ other
  refine ⟨{ took.laid with
    chain := fun head member => (took.laid.chain head member).congr fun q here => ?_
    free := took.laid.free.congr fun q here => ?_
    slotted := fun head member q here => ?_
    magic := ?_ }, took.chain, took.free, took.grows, fun q nonzero' inside outside => ?_⟩
  · rw [same q fun again => owned head member (again ▸ here)]
  · rw [same q fun again => notFree (again ▸ here)]
  · rw [same q fun again => owned head member (again ▸ here)]
    exact took.laid.slotted head member q here
  · rw [same 0 nonzero.symm]
    exact took.laid.magic
  · rw [same q fun again => ?_]
    · exact took.same q nonzero' inside outside
    · subst again
      exact new.elim outside (Nat.not_le.mpr inside)

theorem wp_new (laid : Laid heads mgr.pager lay) :
    new.wp
      (fun pid mgr' => ∃ pager lay', mgr' = { mgr with pager } ∧ Took heads mgr.pager lay pager lay' ∧
        NewHead heads lay' pager pid)
      (fun _ mgr' => ¬ CanAllocate mgr.pager ∧
        ∃ pager lay', mgr' = { mgr with pager } ∧ Took heads mgr.pager lay pager lay') mgr := by
  rw [new, wp_bind, onPager, wp_zoom]
  refine (wp_allocatePage laid).mono ?_ ?_
  rotate_left
  · rintro e pager ⟨-, cannot, -, lay', took⟩
    exact ⟨cannot, pager, lay', rfl, took⟩
  rintro pid pager ⟨-, lay', took, fresh, new, -⟩
  have nonzero : pid ≠ 0 := by
    have := fresh.reserved
    unfold RESERVED_PAGES at this
    omega
  have inside : pid < ({ mgr with pager } : TransactionManager).pager.numPages := fresh.inside
  rw [wp_bind, wp_readPage inside, wp_bind]
  simp only
  rw [fresh.zero, writeHeader_eq _ (by decide), wp_ofExcept_ok, wp_bind,
    wp_writePage _ nonzero inside, wp_bind]
  refine (wp_refreshFsm fresh.inside).mpr ?_
  have there : (pager.put pid emptyPage).file pid = emptyPage := put_file_same _ _ _
  have took' := took.put emptyPage nonzero fresh.owned fresh.notFree new
  refine ⟨fun beyond => ?_, fun _ => (wp_pure _).mpr ⟨_, lay', rfl, took', ?_⟩⟩
  · have free : freeBytes ((pager.put pid emptyPage).file pid) = 4084 := by rw [there, freeBytes_emptyPage]
    exact absurd (free.symm.trans_lt beyond) (by decide)
  exact ⟨fresh.reserved, fresh.inside, fresh.real, fresh.owned, fresh.notFree, there⟩

end Tinydb.Storage.Heap
