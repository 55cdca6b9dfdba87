import Tinydb.Tx.Manager

/-! The heap: records in slots of chained pages (`storage/heap.py`).

A page holds its header in front, records growing up from `DATA_START` and slots
growing down from its end. A heap with a callback logs every page it writes, one
without only writes; the head page of a new heap is set up without a log record
either way. Loops over the chain take the page count as fuel: a chain that is longer
has a cycle.
-/

namespace Tinydb.Storage

open Lib Program Tx TransactionManager Pager

namespace Heap

def HEADER_SIZE : ℕ := 12
def DATA_START : ℕ := HEADER_SIZE
def SLOT_SIZE : ℕ := 6
def NO_NEXT : ℕ := 0xFFFFFFFF

structure Rid where
  pageId : ℕ
  slotId : ℕ
  deriving DecidableEq, Repr

def nextPid (page : Page) : ℕ := unpackLE (slice page.bytes 0 4)

def slotCount (page : Page) : ℕ := unpackLE (slice page.bytes 4 2)

def dataEnd (page : Page) : ℕ := unpackLE (slice page.bytes 6 2)

/-- `_write_header`: three adjacent fields. -/
def writeHeader (buf : Bytes) (next slots data : ℕ) : Except Exc Bytes :=
  if U32 next ∧ slots < 2 ^ 16 ∧ data < 2 ^ 16 then
    .ok (splice buf 0 (packLE 4 next ++ packLE 2 slots ++ packLE 2 data))
  else
    .error .packRange

def slotOffset (slotId : ℕ) : ℤ := (PAGE_SIZE : ℤ) - (slotId + 1) * SLOT_SIZE

def slotsStart (slots : ℕ) : ℤ := (PAGE_SIZE : ℤ) - slots * SLOT_SIZE

/-- Where `struct` reads or writes `size` bytes of a buffer: a negative offset counts from its end. -/
def resolveOffset (length size : ℕ) (off : ℤ) : Except Exc ℕ :=
  if off < 0 then
    if 0 < off + size ∨ off + length < 0 then .error .unpackSize else .ok (off + length).toNat
  else if (length : ℤ) - off < size then .error .unpackSize
  else .ok off.toNat

/-- `(rec_offset, rec_length, flags)`, format `<HHB`. -/
structure Slot where
  offset : ℕ
  length : ℕ
  flags : ℕ
  deriving DecidableEq, Repr

def Slot.pack (slot : Slot) : Bytes := packLE 2 slot.offset ++ packLE 2 slot.length ++ packLE 1 slot.flags

def Slot.unpack (bs : Bytes) : Slot := ⟨unpackLE (slice bs 0 2), unpackLE (slice bs 2 2), unpackLE (slice bs 4 1)⟩

def readSlot (page : Page) (slotId : ℕ) : Except Exc Slot := do
  let off ← resolveOffset page.bytes.length 5 (slotOffset slotId)
  return Slot.unpack (slice page.bytes off 5)

def writeSlot (buf : Bytes) (slotId : ℕ) (slot : Slot) : Except Exc Bytes := do
  let off ← resolveOffset buf.length 5 (slotOffset slotId)
  if slot.offset < 2 ^ 16 ∧ slot.length < 2 ^ 16 ∧ slot.flags < 2 ^ 8 then
    return splice buf off slot.pack
  else
    throw .packRange

/-- `_write_page_logged`: the before-image is read first, the log comes before the page. -/
def writePageLogged (pid : ℕ) (page : Bytes) : TxM Unit := do
  let before ← onPager (readPage pid)
  logPageWrite pid before.bytes page
  onPager (writePage pid page)

/-- The same for a heap that has a callback (`logs`) or has none. -/
def writePageBy (logs : Bool) (pid : ℕ) (page : Bytes) : TxM Unit :=
  if logs then
    writePageLogged pid page
  else do
    let _ ← onPager (readPage pid)
    onPager (writePage pid page)

/-- `_refresh_fsm`: the free bytes of a page; the free-space map refuses a negative count. -/
def refreshFsm (pid : ℕ) : TxM ℕ := do
  let page ← onPager (readPage pid)
  let free := slotsStart (slotCount page) - dataEnd page
  if free < 0 then
    raise ⟨.valueError, "free_bytes must be >= 0, got " ++ toString free⟩
  else
    return free.toNat

def new : TxM ℕ := do
  let pid ← onPager allocatePage
  let page ← onPager (readPage pid)
  let data ← ofExcept (writeHeader page.bytes NO_NEXT 0 DATA_START)
  onPager (writePage pid data)
  let _ ← refreshFsm pid
  return pid

/-- `_append_overflow_page`: the tail is linked before the new page is set up. -/
def appendOverflowPage (logs : Bool) (tailPid : ℕ) : TxM ℕ := do
  let newPid ← onPager allocatePage
  let tail ← onPager (readPage tailPid)
  let tailData ← ofExcept (writeHeader tail.bytes newPid (slotCount tail) (dataEnd tail))
  writePageBy logs tailPid tailData
  let fresh ← onPager (readPage newPid)
  let freshData ← ofExcept (writeHeader fresh.bytes NO_NEXT 0 DATA_START)
  writePageBy logs newPid freshData
  return newPid

/-- The first page of the chain with room, or a fresh page behind its tail. -/
def findRoom (logs : Bool) (needed : ℕ) : (fuel : ℕ) → (pid : ℕ) → TxM ℕ
  | 0, _ => raise ⟨.nontermination, "heap chain"⟩
  | fuel + 1, pid => do
    let free ← refreshFsm pid
    if needed ≤ free then
      return pid
    else
      let page ← onPager (readPage pid)
      if nextPid page = NO_NEXT then
        let newPid ← appendOverflowPage logs pid
        let _ ← refreshFsm pid
        let _ ← refreshFsm newPid
        return newPid
      else
        findRoom logs needed fuel (nextPid page)

def placeRecord (logs : Bool) (pid : ℕ) (encoded : Bytes) : TxM Rid := do
  let page ← onPager (readPage pid)
  let slots := slotCount page
  let data := dataEnd page
  let buf := splice page.bytes data encoded
  let buf ← ofExcept (writeSlot buf slots ⟨data, encoded.length, 1⟩)
  let buf ← ofExcept (writeHeader buf (nextPid page) (slots + 1) (data + encoded.length))
  writePageBy logs pid buf
  let _ ← refreshFsm pid
  return ⟨pid, slots⟩

def insert (logs : Bool) (headPid : ℕ) (encoded : Bytes) : TxM Rid := do
  let mgr ← Program.read
  let pid ← findRoom logs (SLOT_SIZE + encoded.length) (mgr.pager.numPages + 1) headPid
  placeRecord logs pid encoded

/-- The bytes at `rid`; `none` for a slot that was never used or is empty. -/
def read (rid : Rid) : TxM (Option Bytes) := do
  let page ← onPager (readPage rid.pageId)
  if slotCount page ≤ rid.slotId then
    return none
  else
    let slot ← ofExcept (readSlot page rid.slotId)
    if slot.flags = 0 ∨ slot.length = 0 then
      return none
    else
      return some (slice page.bytes slot.offset slot.length)

def delete (logs : Bool) (rid : Rid) : TxM Unit := do
  let page ← onPager (readPage rid.pageId)
  if slotCount page ≤ rid.slotId then
    return
  else
    let buf ← ofExcept (writeSlot page.bytes rid.slotId ⟨0, 0, 0⟩)
    writePageBy logs rid.pageId buf

def liveSlots (pid : ℕ) (page : Page) : Except Exc (List Rid) :=
  (List.range (slotCount page)).foldlM (fun found slotId => do
    let slot ← readSlot page slotId
    return if slot.flags ≠ 0 then found ++ [⟨pid, slotId⟩] else found) []

def scanFrom : (fuel : ℕ) → (pid : ℕ) → TxM (List Rid)
  | 0, _ => raise ⟨.nontermination, "heap chain"⟩
  | fuel + 1, pid =>
    if pid = NO_NEXT then
      return []
    else do
      let page ← onPager (readPage pid)
      let here ← ofExcept (liveSlots pid page)
      let rest ← scanFrom fuel (nextPid page)
      return here ++ rest

def scan (headPid : ℕ) : TxM (List Rid) := do
  let mgr ← Program.read
  scanFrom (mgr.pager.numPages + 1) headPid

theorem reads_readPage (pid : ℕ) : (onPager (readPage pid)).Reads := by
  refine reads_zoom onPager_lawful (reads_bind Program.reads_read fun pg => ?_)
  split
  · exact reads_pure _
  · exact reads_raise _

theorem reads_read (rid : Rid) : (read rid).Reads := by
  refine reads_bind (reads_readPage _) fun page => ?_
  split
  · exact reads_pure _
  · refine reads_bind (reads_ofExcept _) fun slot => ?_
    split <;> exact reads_pure _

theorem reads_refreshFsm (pid : ℕ) : (refreshFsm pid).Reads := by
  refine reads_bind (reads_readPage _) fun page => ?_
  simp only
  split
  · exact reads_raise _
  · exact reads_pure _

theorem reads_scanFrom (fuel pid : ℕ) : (scanFrom fuel pid).Reads := by
  induction fuel generalizing pid with
  | zero => exact reads_raise _
  | succ fuel ih =>
    rw [scanFrom]
    split
    · exact reads_pure _
    · refine reads_bind (reads_readPage _) fun page => reads_bind (reads_ofExcept _) fun here => ?_
      exact reads_bind (ih _) fun rest => reads_pure _

theorem reads_scan (headPid : ℕ) : (scan headPid).Reads := reads_bind Program.reads_read fun _ => reads_scanFrom _ _

variable {mgr mgr' : TransactionManager} {pid : ℕ}

def wrote (mgr : TransactionManager) (pid : ℕ) (page : Page) : TransactionManager :=
  { mgr.logged pid (mgr.pager.file pid) page with pager := mgr.pager.put pid page }

/-- The entry a write of `page` is logged with now. -/
def writeEntry (mgr : TransactionManager) (pid : ℕ) (page : Page) : LogEntry :=
  .page (mgr.touching pid (mgr.pager.file pid) page)

def wroteBy (logs : Bool) (mgr : TransactionManager) (pid : ℕ) (page : Page) : TransactionManager :=
  if logs then wrote mgr pid page else { mgr with pager := mgr.pager.put pid page }

def CanWrite (logs : Bool) (mgr : TransactionManager) (pid : ℕ) (page : Page) : Prop :=
  logs = true → mgr.CanLog (writeEntry mgr pid page)

@[simp] theorem wroteBy_pager (logs : Bool) (mgr : TransactionManager) (pid : ℕ) (page : Page) :
    (wroteBy logs mgr pid page).pager = mgr.pager.put pid page := by cases logs <;> rfl

@[simp] theorem wroteBy_currentTxId (logs : Bool) (mgr : TransactionManager) (pid : ℕ) (page : Page) :
    (wroteBy logs mgr pid page).currentTxId = mgr.currentTxId := by cases logs <;> rfl

theorem wroteBy_nextLsn (logs : Bool) (mgr : TransactionManager) (pid : ℕ) (page : Page) :
    (wroteBy logs mgr pid page).wal.nextLsn = mgr.wal.nextLsn + if logs then 1 else 0 := by cases logs <;> rfl

theorem returns_writePageLogged_iff (page : Page) : (writePageLogged pid page.bytes).Returns mgr () mgr' ↔
    pid < mgr.pager.numPages ∧ mgr.CanLog (writeEntry mgr pid page) ∧
      ∃ pager, (writePage pid page.bytes).Returns mgr.pager () pager ∧
        mgr' = { mgr.logged pid (mgr.pager.file pid) page with pager } := by
  simp only [writePageLogged, returns_bind, onPager, returns_zoom]
  constructor
  · rintro ⟨before, _, ⟨pg, readBack, rfl⟩, _, logged', logs, pager, writes, rfl⟩
    by_cases inside : pid < mgr.pager.numPages
    · simp only [Program.Returns, readPage_apply inside, Except.ok.injEq] at readBack
      obtain ⟨rfl, rfl⟩ := readBack
      obtain ⟨room, rfl⟩ := returns_logPageWrite.mp logs
      exact ⟨inside, room, pager, writes, rfl⟩
    · simp [Program.Returns, readPage, bind_apply, inside] at readBack
  · rintro ⟨inside, room, pager, writes, rfl⟩
    refine ⟨mgr.pager.file pid, mgr, ⟨mgr.pager, ?_, rfl⟩, (), _, returns_logPageWrite.mpr ⟨room, rfl⟩,
      pager, writes, rfl⟩
    simp [Program.Returns, readPage_apply inside]

theorem returns_writePageLogged (nonzero : pid ≠ 0) (page : Page) :
    (writePageLogged pid page.bytes).Returns mgr () mgr' ↔
      pid < mgr.pager.numPages ∧ mgr.CanLog (writeEntry mgr pid page) ∧ mgr' = wrote mgr pid page := by
  rw [returns_writePageLogged_iff]
  refine and_congr_right fun inside => and_congr_right fun _ => ?_
  simp only [Program.Returns, writePage_inside nonzero inside, true_and, exists_eq_left']
  rfl

end Heap

end Tinydb.Storage
