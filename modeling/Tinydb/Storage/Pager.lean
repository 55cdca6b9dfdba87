import Tinydb.Errors
import Tinydb.Lib.Bytes
import Tinydb.Lib.Program

/-! The pager: fixed-size pages of one file (`storage/pager.py`).

The file is a function from page numbers to pages. Every write to it is marked,
so a crash can fall between any two of them. Pages at and beyond `numPages` may
hold anything: the pager zeroes a page before it hands it out.
-/

namespace Tinydb.Storage

open Lib Program

def PAGE_SIZE : ℕ := 4096

/-- ASCII `T1NYDB01`. -/
def MAGIC : Bytes := [0x54, 0x31, 0x4E, 0x59, 0x44, 0x42, 0x30, 0x31]

def HEADER_VERSION : ℕ := 1

def RESERVED_PAGES : ℕ := 4

def NO_FREE : ℕ := 0xFFFFFFFF

def HDR_MAGIC_OFF : ℕ := 0
def HDR_VERSION_OFF : ℕ := 8
def HDR_PAGE_SIZE_OFF : ℕ := 10
def HDR_NUM_PAGES_OFF : ℕ := 12
def HDR_FREE_HEAD_OFF : ℕ := 16
def HDR_LAST_LSN_OFF : ℕ := 20

/-- A page image: exactly `PAGE_SIZE` bytes. -/
structure Page where
  bytes : Bytes
  size : bytes.length = PAGE_SIZE

instance : DecidableEq Page := fun a b =>
  decidable_of_iff (a.bytes = b.bytes) ⟨fun same => by cases a; cases b; cases same; rfl, congrArg _⟩

def filled (byte : UInt8) : Page := ⟨List.replicate PAGE_SIZE byte, List.length_replicate⟩

def zeroPage : Page := filled 0

theorem filled_inj {a b : UInt8} : filled a = filled b ↔ a = b := by
  refine ⟨fun same => ?_, congrArg filled⟩
  have bytes : List.replicate PAGE_SIZE a = List.replicate PAGE_SIZE b := congrArg Page.bytes same
  exact (List.replicate_inj.mp bytes).2.resolve_left (by decide)

def Page.patch (p : Page) (off : ℕ) (bs : Bytes) (fits : off + bs.length ≤ PAGE_SIZE) : Page :=
  ⟨splice p.bytes off bs, by rw [splice_length _ _ _ (p.size ▸ fits), p.size]⟩

structure Pager where
  numPages : ℕ
  freeHead : ℕ
  lastLsn : ℕ
  file : ℕ → Page

abbrev PagerM := Program Exc Pager

/-- A number in the range of the `<I` format. -/
def U32 (n : ℕ) : Prop := n < 2 ^ 32

instance (n : ℕ) : Decidable (U32 n) := inferInstanceAs (Decidable (n < 2 ^ 32))

namespace Pager

def headerBytes (pg : Pager) : Bytes :=
  MAGIC ++ packLE 2 HEADER_VERSION ++ packLE 2 PAGE_SIZE ++ packLE 4 pg.numPages ++
    packLE 4 pg.freeHead ++ packLE 4 pg.lastLsn

theorem headerBytes_length (pg : Pager) : pg.headerBytes.length = 24 := by
  simp [headerBytes, MAGIC]

def HeaderFits (pg : Pager) : Prop := U32 pg.numPages ∧ U32 pg.freeHead ∧ U32 pg.lastLsn

instance (pg : Pager) : Decidable pg.HeaderFits :=
  inferInstanceAs (Decidable (U32 pg.numPages ∧ U32 pg.freeHead ∧ U32 pg.lastLsn))

def stamp (pg : Pager) (page : Page) : Page :=
  page.patch HDR_MAGIC_OFF pg.headerBytes (by rw [headerBytes_length]; decide)

theorem stamp_stamp (pg pg' : Pager) (page : Page) : pg.stamp (pg'.stamp page) = pg.stamp page := by
  have bytes : splice (splice page.bytes 0 pg'.headerBytes) 0 pg.headerBytes = splice page.bytes 0 pg.headerBytes := by
    simp [splice, headerBytes_length]
  cases page
  exact (Page.mk.injEq ..).mpr bytes

/-- `_protect_header`: the given page 0 with the pager's own header fields. -/
def protectHeader (data : Page) : PagerM Page := do
  let pg ← read
  if pg.HeaderFits then return pg.stamp data else raise .packRange

/-- The pager after the file's page `pid` was overwritten. -/
def put (pg : Pager) (pid : ℕ) (page : Page) : Pager := { pg with file := Function.update pg.file pid page }

/-- One `seek`, `write` and `flush` of a whole page. -/
def writeAt (pid : ℕ) (page : Page) : PagerM Unit := do
  modify fun pg => pg.put pid page
  mark

def writeHeader : PagerM Unit := do
  let pg ← read
  let header ← protectHeader (pg.file 0)
  writeAt 0 header

def extendTo (newNumPages : ℕ) : PagerM Unit := do
  let pg ← read
  if newNumPages ≤ pg.numPages then
    return
  -- the gap is written with one call, the count is raised in memory, then the header follows
  modify fun pg => { pg with
    file := fun pid => if pg.numPages ≤ pid ∧ pid < newNumPages then zeroPage else pg.file pid }
  mark
  modify fun pg => { pg with numPages := newNumPages }
  writeHeader

def readPage (pid : ℕ) : PagerM Page := do
  let pg ← read
  if pid < pg.numPages then return pg.file pid
  else raise ⟨.indexError, "page_id " ++ toString pid ++ " beyond allocated " ++ toString pg.numPages⟩

def writePage (pid : ℕ) (data : Bytes) : PagerM Unit := do
  if size : data.length = PAGE_SIZE then
    let pg ← read
    if pg.numPages ≤ pid then
      extendTo (pid + 1)
    let page ← if pid = 0 then protectHeader ⟨data, size⟩ else pure ⟨data, size⟩
    writeAt pid page
  else
    raise ⟨.valueError, "page payload must be exactly " ++ toString PAGE_SIZE ++ " bytes, got " ++
      toString data.length⟩

def allocatePage : PagerM ℕ := do
  let pg ← read
  if pg.freeHead ≠ NO_FREE then
    let pid := pg.freeHead
    let nextFree := unpackLE (slice (pg.file pid).bytes 0 4)
    modify fun pg => { pg with freeHead := nextFree }
    writeAt pid zeroPage
    writeHeader
    return pid
  else
    let pid := pg.numPages
    extendTo (pid + 1)
    return pid

def freePage (pid : ℕ) : PagerM Unit := do
  let pg ← read
  if pid < RESERVED_PAGES then
    raise ⟨.valueError, "page_id " ++ toString pid ++ " is reserved (0.." ++
      toString (RESERVED_PAGES - 1) ++ ")"⟩
  else if pg.numPages ≤ pid then
    raise ⟨.valueError, "page_id " ++ toString pid ++ " beyond allocated " ++ toString pg.numPages⟩
  else if U32 pg.freeHead then
    writeAt pid ((pg.file pid).patch 0 (packLE 4 pg.freeHead) (by rw [packLE_length]; decide))
    modify fun pg => { pg with freeHead := pid }
    writeHeader
  else
    raise .packRange

def setLastLsn (lsn : ℕ) : PagerM Unit := do
  let pg ← read
  if pg.lastLsn < lsn then
    modify fun pg => { pg with lastLsn := lsn }
    writeHeader

/-- `_read_header`: what opening an existing file finds. -/
def openFile (file : ℕ → Page) : Except Exc Pager :=
  let header := (file 0).bytes
  let version := unpackLE (slice header HDR_VERSION_OFF 2)
  let pageSize := unpackLE (slice header HDR_PAGE_SIZE_OFF 2)
  if slice header HDR_MAGIC_OFF 8 ≠ MAGIC then
    .error ⟨.valueError, "not a tinydb file: magic mismatch"⟩
  else if version ≠ HEADER_VERSION then
    .error ⟨.valueError, "unsupported header version: " ++ toString version⟩
  else if pageSize ≠ PAGE_SIZE then
    .error ⟨.valueError, "file page_size " ++ toString pageSize ++ " != runtime page_size " ++
      toString PAGE_SIZE⟩
  else
    .ok { numPages := unpackLE (slice header HDR_NUM_PAGES_OFF 4)
          freeHead := unpackLE (slice header HDR_FREE_HEAD_OFF 4)
          lastLsn := unpackLE (slice header HDR_LAST_LSN_OFF 4)
          file }

/-- `_init_new`: a file of the reserved pages. -/
def initNew : Pager :=
  let pg : Pager := { numPages := RESERVED_PAGES, freeHead := NO_FREE, lastLsn := 0, file := fun _ => zeroPage }
  { pg with file := Function.update pg.file 0 (pg.stamp zeroPage) }

variable (pg : Pager)

@[simp] theorem put_numPages (pid : ℕ) (page : Page) : (pg.put pid page).numPages = pg.numPages := rfl

@[simp] theorem put_freeHead (pid : ℕ) (page : Page) : (pg.put pid page).freeHead = pg.freeHead := rfl

@[simp] theorem put_lastLsn (pid : ℕ) (page : Page) : (pg.put pid page).lastLsn = pg.lastLsn := rfl

@[simp] theorem put_file_same (pid : ℕ) (page : Page) : (pg.put pid page).file pid = page := by simp [put]

theorem put_file_other {pid q : ℕ} (page : Page) (other : q ≠ pid) : (pg.put pid page).file q = pg.file q := by
  simp [put, other]

def headed : Pager := pg.put 0 (pg.stamp (pg.file 0))

/-- The pager after the pages up to `n` were zeroed and before they were counted. -/
def zeroed (n : ℕ) : Pager := { pg with file :=
    fun pid => if pg.numPages ≤ pid ∧ pid < n then zeroPage else pg.file pid }

/-- The pager after it was extended to `n` pages. -/
def extended (n : ℕ) : Pager := headed { pg.zeroed n with numPages := n }

variable {pg}

theorem writeAt_apply (pid : ℕ) (page : Page) :
    writeAt pid page pg = ⟨.ok (), pg.put pid page, [pg.put pid page]⟩ := by simp [writeAt, bind_apply]

theorem writeHeader_apply (fits : pg.HeaderFits) : writeHeader pg = ⟨.ok (), pg.headed, [pg.headed]⟩ := by
  simp [writeHeader, protectHeader, fits, writeAt_apply, headed, bind_apply]

theorem extendTo_apply {n : ℕ} (grows : pg.numPages < n) (fits : HeaderFits { pg with numPages := n }) :
    extendTo n pg = ⟨.ok (), pg.extended n, [pg.zeroed n, pg.extended n]⟩ := by
  have header : writeHeader { pg.zeroed n with numPages := n } = ⟨.ok (), pg.extended n, [pg.extended n]⟩ :=
    writeHeader_apply fits
  rw [zeroed] at header
  simp only [extendTo, bind_apply, read_apply, if_neg (Nat.not_le.mpr grows),
    modify_apply, mark_apply, header, zeroed, List.nil_append, List.cons_append]

theorem readPage_apply {pid : ℕ} (inside : pid < pg.numPages) :
    readPage pid pg = ⟨.ok (pg.file pid), pg, []⟩ := by simp [readPage, inside, bind_apply]

theorem writePage_inside {pid : ℕ} (nonzero : pid ≠ 0) (inside : pid < pg.numPages) (page : Page) :
    writePage pid page.bytes pg = ⟨.ok (), pg.put pid page, [pg.put pid page]⟩ := by
  simp [writePage, page.size, nonzero, Nat.not_le.mpr inside, writeAt_apply, bind_apply]

theorem setLastLsn_frame (lsn : ℕ) :
    (setLastLsn lsn pg).state.numPages = pg.numPages ∧ (setLastLsn lsn pg).state.freeHead = pg.freeHead ∧
      ∀ pid, pid ≠ 0 → (setLastLsn lsn pg).state.file pid = pg.file pid := by
  by_cases newer : pg.lastLsn < lsn
  · by_cases fits : HeaderFits { pg with lastLsn := lsn }
    · have stamped : (setLastLsn lsn pg).state = headed { pg with lastLsn := lsn } := by
        simp [setLastLsn, bind_apply, newer, writeHeader_apply fits]
      rw [stamped]
      exact ⟨rfl, rfl, fun pid nonzero => put_file_other _ _ nonzero⟩
    · have kept : (setLastLsn lsn pg).state = { pg with lastLsn := lsn } := by
        simp [setLastLsn, bind_apply, newer, writeHeader, protectHeader, fits]
      rw [kept]
      exact ⟨rfl, rfl, fun _ _ => rfl⟩
  · have kept : (setLastLsn lsn pg).state = pg := by simp [setLastLsn, bind_apply, newer]
    rw [kept]
    exact ⟨rfl, rfl, fun _ _ => rfl⟩

/-- A page write as its callers see it, in bounds or past the end of the file. -/
structure Wrote (pg : Pager) (pid : ℕ) (page : Page) (pg' : Pager) : Prop where
  fits : pg'.HeaderFits
  same : pg'.file pid = page
  inside : pid < pg'.numPages
  grows : pg.numPages ≤ pg'.numPages
  other : ∀ q, q ≠ 0 → q ≠ pid → q < pg.numPages → pg'.file q = pg.file q

theorem writePage_returns (fits : pg.HeaderFits) {pid : ℕ} (nonzero : pid ≠ 0) (room : U32 (pid + 1))
    (page : Page) : ∃ pg', (writePage pid page.bytes).Returns pg () pg' ∧ Wrote pg pid page pg' := by
  by_cases inside : pid < pg.numPages
  · refine ⟨pg.put pid page, ?_, fits, put_file_same .., inside, le_refl _, ?_⟩
    · rw [Program.Returns, writePage_inside nonzero inside]
      exact ⟨rfl, rfl⟩
    · intro q _ other _
      exact put_file_other _ _ other
  · have grown : HeaderFits { pg with numPages := pid + 1 } := ⟨room, fits.2⟩
    have extends' := extendTo_apply (by omega : pg.numPages < pid + 1) grown
    refine ⟨(pg.extended (pid + 1)).put pid page, ?_, grown, put_file_same .., ?_, ?_, ?_⟩
    · simp [Program.Returns, writePage, page.size, nonzero, Nat.not_lt.mp inside, extends', writeAt_apply,
        bind_apply]
    · show pid < pid + 1
      omega
    · show pg.numPages ≤ pid + 1
      omega
    · intro q notHeader other old
      rw [put_file_other _ _ other, extended, headed, put_file_other _ _ notHeader, zeroed]
      exact if_neg (by omega)

theorem openFile_fits {file : ℕ → Page} {pg : Pager} (opened : openFile file = .ok pg) : pg.HeaderFits := by
  have u32 (off : ℕ) : U32 (unpackLE (slice (file 0).bytes off 4)) := by
    refine (unpackLE_lt _).trans_le (Nat.pow_le_pow_right (by decide) ?_ : _ ≤ 256 ^ 4)
    simp [slice]
  simp only [openFile] at opened
  split_ifs at opened
  cases opened
  exact ⟨u32 _, u32 _, u32 _⟩

theorem openFile_of_stamped (pg : Pager) (page : Page) (fits : pg.HeaderFits) (header : pg.file 0 = pg.stamp page) :
    openFile pg.file = .ok pg := by
  obtain ⟨numPages, freeHead, lastLsn⟩ := fits
  have field (off n : ℕ) (inside : off + n ≤ 24) :
      slice (pg.file 0).bytes off n = slice pg.headerBytes off n := by
    rw [header]
    exact slice_splice_within _ _ _ _ _ (Nat.zero_le _) (Nat.zero_le _)
      (by rw [headerBytes_length]; simpa [HDR_MAGIC_OFF] using inside)
  have layout : pg.headerBytes = MAGIC ++ (packLE 2 HEADER_VERSION ++ (packLE 2 PAGE_SIZE ++
      (packLE 4 pg.numPages ++ (packLE 4 pg.freeHead ++ packLE 4 pg.lastLsn)))) := by simp [headerBytes]
  have magic : MAGIC.length = 8 := rfl
  have two (n : ℕ) : (packLE 2 n).length = 2 := packLE_length 2 n
  have four (n : ℕ) : (packLE 4 n).length = 4 := packLE_length 4 n
  have atMagic : slice (pg.file 0).bytes HDR_MAGIC_OFF 8 = MAGIC := by
    rw [field _ _ (by decide), layout]
    exact slice_front magic
  have atVersion : slice (pg.file 0).bytes HDR_VERSION_OFF 2 = packLE 2 HEADER_VERSION := by
    rw [field _ _ (by decide), layout, slice_skip _ 8 magic]
    exact slice_front (two _)
  have atPageSize : slice (pg.file 0).bytes HDR_PAGE_SIZE_OFF 2 = packLE 2 PAGE_SIZE := by
    rw [field _ _ (by decide), layout, slice_skip _ 8 magic, slice_skip _ 2 (two _)]
    exact slice_front (two _)
  have atNumPages : slice (pg.file 0).bytes HDR_NUM_PAGES_OFF 4 = packLE 4 pg.numPages := by
    rw [field _ _ (by decide), layout, slice_skip _ 8 magic, slice_skip _ 2 (two _),
      slice_skip _ 2 (two _)]
    exact slice_front (four _)
  have atFreeHead : slice (pg.file 0).bytes HDR_FREE_HEAD_OFF 4 = packLE 4 pg.freeHead := by
    rw [field _ _ (by decide), layout, slice_skip _ 8 magic, slice_skip _ 2 (two _),
      slice_skip _ 2 (two _), slice_skip _ 4 (four _)]
    exact slice_front (four _)
  have atLastLsn : slice (pg.file 0).bytes HDR_LAST_LSN_OFF 4 = packLE 4 pg.lastLsn := by
    rw [field _ _ (by decide), layout, slice_skip _ 8 magic, slice_skip _ 2 (two _),
      slice_skip _ 2 (two _), slice_skip _ 4 (four _), slice_skip _ 4 (four _)]
    exact slice_all (four _)
  simp only [openFile, atMagic, atVersion, atPageSize, atNumPages, atFreeHead, atLastLsn,
    unpackLE_packLE (show pg.numPages < 256 ^ 4 from numPages),
    unpackLE_packLE (show pg.freeHead < 256 ^ 4 from freeHead),
    unpackLE_packLE (show pg.lastLsn < 256 ^ 4 from lastLsn)]
  rfl

theorem openFile_initNew : openFile initNew.file = .ok initNew := openFile_of_stamped initNew zeroPage (by decide) rfl

end Pager

end Tinydb.Storage
