import Tinydb.Storage.HeapChain

/-! The pages the pager hands out.

A page is handed out once until it is given back, and reads as zeros then. The free list
runs through the free pages themselves and its head is in the header of the file, so a
pager closed and opened again hands out the same pages. A file of `2 ^ 32 - 1` pages is
full: taking one more raises, and from then on no header can be written until the file
is opened again.
-/

namespace Tinydb.Storage.Pager

open Lib Program Storage.Heap List

/-- `close`, which writes the header if it can, and a new pager on the file. -/
def reopen (pg : Pager) : Except Exc Pager := openFile (writeHeader pg).state.file

/-- Calls on a new file, and the pages in use after them. A page given to `free_page` is no longer used, also if
the header could not be written. -/
inductive Run : Pager → List ℕ → Prop where
  | new : Run initNew []
  | allocate {pg pg' : Pager} {used : List ℕ} {pid : ℕ} : Run pg used → allocatePage.Returns pg pid pg' →
      Run pg' (pid :: used)
  | full {pg pg' : Pager} {used : List ℕ} {e : Exc} : Run pg used → allocatePage.Raises pg e pg' → Run pg' used
  | free {pg : Pager} {used : List ℕ} {pid : ℕ} : Run pg used → pid ∈ used →
      Run (freePage pid pg).state (used.erase pid)
  | write {pg : Pager} {used : List ℕ} {pid : ℕ} {data : Bytes} : Run pg used → pid ∈ used →
      Run (writePage pid data pg).state used
  | reopen {pg pg' : Pager} {used : List ℕ} : Run pg used → reopen pg = .ok pg' → Run pg' used

def InStep (pg : Pager) : Prop := pg.HeaderFits ∧ ∃ page, pg.file 0 = pg.stamp page

def fullFile (pg : Pager) : Pager := { pg with numPages := 2 ^ 32 - 1, freeHead := NO_FREE }

/-- The page count has left its field; the header is that of the full file. -/
def Overrun (pg : Pager) : Prop := ¬ U32 pg.numPages ∧ ∃ page, pg.file 0 = pg.fullFile.stamp page

variable {pg : Pager} {used : List ℕ} {lay : Layout} {pid : ℕ}

theorem inStep_headed (fits : pg.HeaderFits) : pg.headed.InStep := ⟨fits, pg.file 0, put_file_same ..⟩

theorem InStep.headed_eq (inStep : pg.InStep) : pg.headed = pg := by
  obtain ⟨-, page, header⟩ := inStep
  rw [headed, put, header, stamp_stamp, ← header, Function.update_eq_self]

theorem fits_fullFile (lsn : U32 pg.lastLsn) : pg.fullFile.HeaderFits :=
  ⟨show U32 (2 ^ 32 - 1) by decide, show U32 NO_FREE by decide, lsn⟩

theorem Overrun.openFile (overrun : pg.Overrun) (lsn : U32 pg.lastLsn) : openFile pg.file = .ok pg.fullFile := by
  obtain ⟨-, page, header⟩ := overrun
  exact openFile_of_stamped pg.fullFile page (fits_fullFile lsn) header

theorem wp_allocatePage_header (positive : 0 < pg.numPages) (nonzero : pg.freeHead ≠ 0) (lsn : U32 pg.lastLsn)
    (header : pg.InStep ∨ pg.Overrun) :
    allocatePage.wp (fun _ pg' => pg'.InStep ∧ pg'.lastLsn = pg.lastLsn)
    (fun _ pg' => pg'.Overrun ∧ pg'.lastLsn = pg.lastLsn) pg := by
  rw [allocatePage, wp_bind, wp_read]
  split
  case isTrue some =>
    simp only [wp_bind, wp_modify, writeAt, wp_mark, wp_writeHeader, wp_pure]
    refine ⟨fun fits => ⟨inStep_headed fits, rfl⟩, fun large => ⟨?_, rfl⟩⟩
    have count : ¬ U32 pg.numPages := fun count => large ⟨count, nextPid_u32 _, lsn⟩
    obtain ⟨-, page, onDisk⟩ := header.resolve_left fun inStep => count inStep.1.1
    exact ⟨count, page, (put_file_other _ _ nonzero.symm).trans onDisk⟩
  case isFalse none =>
    rw [not_not] at none
    rw [wp_bind, wp_extendTo (Nat.lt_succ_self _)]
    refine ⟨fun fits => ⟨inStep_headed fits, rfl⟩, fun large => ⟨?_, rfl⟩⟩
    have count : ¬ U32 (pg.numPages + 1) := fun count => large ⟨count, by rw [none]; decide, lsn⟩
    have zero : (pg.zeroed (pg.numPages + 1)).file 0 = pg.file 0 :=
      if_neg fun outside => Nat.not_le.mpr positive outside.1
    rcases header with ⟨⟨fits, -, -⟩, page, onDisk⟩ | ⟨-, page, onDisk⟩
    · have last : pg.numPages = 2 ^ 32 - 1 := by
        unfold U32 at fits count
        omega
      refine ⟨count, page, zero.trans (onDisk.trans ?_)⟩
      rw [stamp, stamp]
      simp only [headerBytes, fullFile, last, none]
      rfl
    · exact ⟨count, page, zero.trans onDisk⟩

/-- No page is both in use and free. -/
structure Owned (pg : Pager) (used : List ℕ) (lay : Layout) : Prop where
  laid : Laid [] pg lay
  distinct : used.Nodup
  inUse : ∀ pid ∈ used, RESERVED_PAGES ≤ pid ∧ pid < pg.numPages ∧ pid < NO_FREE
  apart : ∀ pid ∈ used, pid ∉ lay.free
  free : ∀ pid ∈ lay.free, pid < NO_FREE
  lsn : U32 pg.lastLsn

structure Kept (pg : Pager) (used : List ℕ) (lay : Layout) : Prop extends Owned pg used lay where
  header : pg.InStep ∨ pg.Overrun

theorem Owned.positive (kept : Owned pg used lay) : 0 < pg.numPages := lt_of_lt_of_le (by decide) kept.laid.reserved

theorem Owned.nonzero (kept : Owned pg used lay) (inUse : pid ∈ used) : pid ≠ 0 := by
  have := (kept.inUse pid inUse).1
  unfold RESERVED_PAGES at this
  omega

theorem Owned.freeHead (kept : Owned pg used lay) : pg.freeHead ≠ 0 ∧ U32 pg.freeHead := by
  have chain := kept.laid.free
  cases isFree : lay.free with
  | nil =>
    rw [isFree] at chain
    rw [show pg.freeHead = NO_NEXT from chain]
    decide
  | cons pid rest =>
    have among : pid ∈ lay.free := by rw [isFree]; exact mem_cons_self
    have low := (kept.laid.freeInside pid among).1
    have high := kept.free pid among
    rw [isFree] at chain
    rw [show pg.freeHead = pid from chain.1]
    unfold RESERVED_PAGES at low
    unfold NO_FREE at high
    unfold U32
    omega

theorem kept_new : Kept initNew [] ⟨fun _ => [], []⟩ :=
  ⟨⟨laid_initNew, nodup_nil, by simp, by simp, by simp, by decide⟩, .inl ⟨by decide, zeroPage, rfl⟩⟩

theorem Kept.wp_allocatePage (kept : Kept pg used lay) :
    allocatePage.wp (fun pid pg' => RESERVED_PAGES ≤ pid ∧ pid ∉ used ∧ pid < pg'.numPages ∧ pg'.file pid = zeroPage ∧
        ∃ lay', Kept pg' (pid :: used) lay') (fun _ pg' => ∃ lay', Kept pg' used lay') pg := by
  refine ((Heap.wp_allocatePage kept.laid).and
    (wp_allocatePage_header kept.positive kept.freeHead.1 kept.lsn kept.header)).mono ?_ ?_
  · rintro pid pg' ⟨⟨-, lay', took, fresh, source, -⟩, inStep, lsn⟩
    have new : pid ∉ used := fun old =>
      source.elim (kept.apart pid old) fun behind => Nat.not_lt.mpr behind (kept.inUse pid old).2.1
    have small : pid < NO_FREE := by
      have u32 := fresh.u32
      have real := fresh.real
      unfold U32 at u32
      unfold NO_NEXT at real
      unfold NO_FREE
      omega
    refine ⟨fresh.reserved, new, fresh.inside, fresh.zero, lay', ⟨took.laid, nodup_cons.mpr ⟨new, kept.distinct⟩,
      forall_mem_cons.mpr ⟨⟨fresh.reserved, fresh.inside, small⟩, fun q old => ?_⟩,
      forall_mem_cons.mpr ⟨fresh.notFree, fun q old free => kept.apart q old (took.free.subset free)⟩,
      fun q free => kept.free q (took.free.subset free), lsn ▸ kept.lsn⟩, .inl inStep⟩
    obtain ⟨low, inside, high⟩ := kept.inUse q old
    exact ⟨low, inside.trans_le took.grows, high⟩
  · rintro e pg' ⟨⟨-, -, -, lay', took⟩, overrun, lsn⟩
    refine ⟨lay', ⟨took.laid, kept.distinct, fun q old => ?_, fun q old free =>
      kept.apart q old (took.free.subset free),
      fun q free => kept.free q (took.free.subset free), lsn ▸ kept.lsn⟩, .inr overrun⟩
    obtain ⟨low, inside, high⟩ := kept.inUse q old
    exact ⟨low, inside.trans_le took.grows, high⟩

theorem Kept.written (kept : Kept pg used lay) (inUse : pid ∈ used) (page : Page) :
    Kept (pg.put pid page) used lay := by
  have zero : (pg.put pid page).file 0 = pg.file 0 := put_file_other _ _ (kept.nonzero inUse).symm
  refine ⟨⟨laid_put kept.laid (kept.nonzero inUse) (kept.apart pid inUse) page, kept.distinct,
    kept.inUse, kept.apart, kept.free, kept.lsn⟩, kept.header.imp ?_ ?_⟩
  · rintro ⟨fits, old, header⟩
    exact ⟨fits, old, zero.trans header⟩
  · rintro ⟨large, old, header⟩
    exact ⟨large, old, zero.trans header⟩

theorem Owned.headed (owned : Owned pg used lay) (fits : pg.HeaderFits) : Kept pg.headed used lay := by
  have took := owned.laid.took pg.headed suffix_rfl
    (owned.laid.free.congr fun q free => by
      have := (owned.laid.freeInside q free).1
      unfold RESERVED_PAGES at this
      rw [show pg.headed.file q = pg.file q from put_file_other _ _ (by omega)])
    (le_refl _) (magic_headed pg) fun q nonzero _ _ => put_file_other _ _ nonzero
  exact ⟨⟨took.laid, owned.distinct, owned.inUse, owned.apart, owned.free, owned.lsn⟩, .inl (inStep_headed fits)⟩

theorem link_fits (next : ℕ) : 0 + (packLE 4 next).length ≤ PAGE_SIZE := by
  rw [packLE_length]
  decide

def relink (page : Page) (next : ℕ) : Page := page.patch 0 (packLE 4 next) (link_fits next)

/-- The pager after a page was linked in front of the free list and before the header was written. -/
def linked (pg : Pager) (pid : ℕ) : Pager := { pg.put pid (relink (pg.file pid) pg.freeHead) with freeHead := pid }

theorem Owned.laid_linked (kept : Owned pg used lay) (inUse : pid ∈ used) :
    Laid [] (pg.linked pid) { lay with free := pid :: lay.free } := by
  obtain ⟨low, inside, small⟩ := kept.inUse pid inUse
  have laid := laid_put kept.laid (kept.nonzero inUse) (kept.apart pid inUse)
    (relink (pg.file pid) pg.freeHead)
  have next : nextPid ((pg.linked pid).file pid) = pg.freeHead := by
    have link : slice ((pg.linked pid).file pid).bytes 0 4 = packLE 4 pg.freeHead := by
      rw [linked, put_file_same]
      have same := slice_splice_same (pg.file pid).bytes 0 (packLE 4 pg.freeHead) (Nat.zero_le _)
      rwa [packLE_length] at same
    rw [nextPid, link, unpackLE_packLE kept.freeHead.2]
  refine ⟨by simp, ⟨rfl, small.ne, ?_⟩, by simp, by simp,
    nodup_cons.mpr ⟨kept.apart pid inUse, kept.laid.freeDistinct⟩, by simp,
    by simp, by simp, forall_mem_cons.mpr ⟨⟨low, inside⟩, laid.freeInside⟩, by simp, laid.reserved, laid.magic⟩
  rw [next]
  exact laid.free

theorem Kept.wp_freePage (kept : Kept pg used lay) (inUse : pid ∈ used) :
    (freePage pid).wp (fun _ pg' => ∃ lay', Kept pg' (used.erase pid) lay')
    (fun _ pg' => ∃ lay', Kept pg' (used.erase pid) lay')
      pg := by
  obtain ⟨low, inside, small⟩ := kept.inUse pid inUse
  have others (q : ℕ) (left : q ∈ used.erase pid) : q ∈ used ∧ q ≠ pid :=
    ⟨mem_of_mem_erase left, ((Nodup.mem_erase_iff kept.distinct).mp left).1⟩
  have apart (q : ℕ) (left : q ∈ used.erase pid) : q ∉ pid :: lay.free := by
    obtain ⟨old, different⟩ := others q left
    exact fun free => (mem_cons.mp free).elim different (kept.apart q old)
  have zero : (pg.linked pid).file 0 = pg.file 0 := put_file_other _ _ (kept.nonzero inUse).symm
  have owned : Owned (pg.linked pid) (used.erase pid) { lay with free := pid :: lay.free } :=
    ⟨kept.laid_linked inUse, kept.distinct.erase pid, fun q left => kept.inUse q (others q left).1, apart,
      forall_mem_cons.mpr ⟨small, kept.free⟩, kept.lsn⟩
  rw [freePage, wp_bind, wp_read, if_neg (Nat.not_lt.mpr low), if_neg (Nat.not_le.mpr inside),
    if_pos kept.freeHead.2]
  simp only [wp_bind, writeAt, wp_modify, wp_mark, wp_writeHeader]
  refine ⟨fun fits => ⟨_, owned.headed fits⟩, fun large => ⟨_, owned, .inr ?_⟩⟩
  have count : ¬ U32 pg.numPages := fun count => large ⟨count, small.trans (by decide), kept.lsn⟩
  obtain ⟨-, page, header⟩ := kept.header.resolve_left fun inStep => count inStep.1.1
  exact ⟨count, page, zero.trans header⟩

theorem Kept.wp_writePage (kept : Kept pg used lay) (inUse : pid ∈ used) (data : Bytes) :
    (writePage pid data).wp (fun _ pg' => Kept pg' used lay) (fun _ pg' => Kept pg' used lay) pg := by
  by_cases size : data.length = PAGE_SIZE
  · have written := writePage_inside (kept.nonzero inUse) (kept.inUse pid inUse).2.1 ⟨data, size⟩
    have returned : (writePage pid data).Returns pg () (pg.put pid ⟨data, size⟩) := by
      rw [Program.Returns, written]
      exact ⟨rfl, rfl⟩
    exact (wp_of_returns returned).mpr (kept.written inUse _)
  · rw [writePage, dif_neg size]
    exact kept

theorem Kept.reopen (kept : Kept pg used lay) : ∃ pg' lay', Pager.reopen pg = .ok pg' ∧ Kept pg' used lay' ∧
      (pg' = pg ∨ (¬ CanAllocate pg ∧ ¬ CanAllocate pg' ∧ Laid [] pg lay ∧ Laid [] pg' lay')) := by
  rcases kept.header with inStep | overrun
  · refine ⟨pg, lay, ?_, kept, .inl rfl⟩
    obtain ⟨page, header⟩ := inStep.2
    rw [Pager.reopen, writeHeader_apply inStep.1, show pg.headed.file = pg.file by rw [inStep.headed_eq]]
    exact openFile_of_stamped pg page inStep.1 header
  · have unwritten : (writeHeader pg).state = pg := by
      have raises : ¬ pg.HeaderFits := fun fits => overrun.1 fits.1
      simp [writeHeader, protectHeader, raises, Program.bind_apply]
    have small (q : ℕ) (inUse : q ∈ used) : q < pg.fullFile.numPages := (kept.inUse q inUse).2.2
    have laid : Laid [] pg.fullFile { lay with free := [] } :=
      ⟨by simp, rfl, by simp, by simp, nodup_nil, by simp, by simp, by simp, by simp, by simp,
        show 4 ≤ 2 ^ 32 - 1 by decide,
        kept.laid.magic⟩
    refine ⟨pg.fullFile, { lay with free := [] }, ?_,
      ⟨⟨laid, kept.distinct, fun q inUse => ?_, by simp, by simp, kept.lsn⟩, .inl ?_⟩,
      .inr ⟨not_canAllocate_of_numPages overrun.1, ?_, kept.laid, laid⟩⟩
    · rw [Pager.reopen, unwritten]
      exact overrun.openFile kept.lsn
    · exact ⟨(kept.inUse q inUse).1, small q inUse, (kept.inUse q inUse).2.2⟩
    · obtain ⟨page, header⟩ := overrun.2
      exact ⟨fits_fullFile kept.lsn, page, header⟩
    · rw [CanAllocate, if_pos (show pg.fullFile.freeHead = NO_FREE from rfl)]
      exact fun fits => absurd fits.1 (show ¬ U32 (2 ^ 32 - 1 + 1) by decide)

theorem Run.kept (run : Run pg used) : ∃ lay, Kept pg used lay := by
  induction run with
  | new => exact ⟨_, kept_new⟩
  | allocate _ returned ih =>
    obtain ⟨lay, kept⟩ := ih
    exact (kept.wp_allocatePage.returns returned).2.2.2.2
  | full _ raised ih =>
    obtain ⟨lay, kept⟩ := ih
    exact kept.wp_allocatePage.raises raised
  | free _ inUse ih =>
    obtain ⟨lay, kept⟩ := ih
    exact wp_state (kept.wp_freePage inUse)
  | write _ inUse ih =>
    obtain ⟨lay, kept⟩ := ih
    exact ⟨lay, wp_state (kept.wp_writePage inUse _)⟩
  | reopen _ opened ih =>
    obtain ⟨lay, kept⟩ := ih
    obtain ⟨pg', lay', same, kept', -⟩ := kept.reopen
    cases same.symm.trans opened
    exact ⟨lay', kept'⟩

/-- What `n` calls of `allocate_page` in a row return or raise. -/
def allocations : (n : ℕ) → Pager → List (Except Exc ℕ)
  | 0, _ => []
  | n + 1, pg => (allocatePage pg).result :: allocations n (allocatePage pg).state

theorem allocations_refused (laid : Laid [] pg lay) (cannot : ¬ CanAllocate pg) (n : ℕ) :
    allocations n pg = replicate n (.error .packRange) := by
  induction n generalizing pg lay with
  | zero => rfl
  | succ n ih =>
    have ends := Heap.wp_allocatePage laid
    rcases returns_or_raises allocatePage pg with ⟨pid, pg', returned⟩ | ⟨e, pg', raised⟩
    · exact (cannot (ends.returns returned).1).elim
    · obtain ⟨rfl, -, still, lay', took⟩ := ends.raises raised
      rw [allocations, raised.1, raised.2, ih took.laid still, replicate_succ]

/-- A page handed out is not reserved, not in use and all zero; the free list ends, has no page twice and none that is
in use; a pager closed and opened again hands out the same pages. -/
theorem allocator_safe (run : Run pg used) :
    (∀ pid pg', allocatePage.Returns pg pid pg' → RESERVED_PAGES ≤ pid ∧ pid ∉ used ∧
      (readPage pid).Returns pg' zeroPage pg') ∧
      (∃ free, Chain pg.file pg.freeHead free ∧ free.Nodup ∧ ∀ pid ∈ free, pid ∉ used) ∧
      ∃ pg', reopen pg = .ok pg' ∧ ∀ n, allocations n pg' = allocations n pg := by
  obtain ⟨lay, kept⟩ := run.kept
  refine ⟨fun pid pg' returned => ?_, ⟨lay.free, kept.laid.free, kept.laid.freeDistinct, fun pid free inUse =>
    kept.apart pid inUse free⟩, ?_⟩
  · obtain ⟨reserved, new, inside, zero, -⟩ := kept.wp_allocatePage.returns returned
    refine ⟨reserved, new, ?_⟩
    rw [Program.Returns, readPage_apply inside, zero]
    exact ⟨rfl, rfl⟩
  · obtain ⟨pg', lay', opened, -, rfl | ⟨cannot, cannot', laid, laid'⟩⟩ := kept.reopen
    · exact ⟨pg', opened, fun _ => rfl⟩
    · exact ⟨pg', opened, fun n => (allocations_refused laid' cannot' n).trans (allocations_refused laid cannot n).symm⟩

/-- Two pages taken from a new file, and the first of them given back. -/
theorem allocator_safe_two :
    ∃ pg, Run pg [5] ∧ ∃ pg', reopen pg = .ok pg' ∧ ∀ n, allocations n pg' = allocations n pg := by
  have first : allocatePage.Returns initNew 4 (allocatePage initNew).state := ⟨by decide +kernel, rfl⟩
  have second : allocatePage.Returns (allocatePage initNew).state 5 _ := ⟨by decide +kernel, rfl⟩
  have taken : Run _ [5, 4] := .allocate (.allocate .new first) second
  have run : Run _ [5] := taken.free (mem_cons_of_mem 5 mem_cons_self)
  exact ⟨_, run, (allocator_safe run).2.2⟩

end Tinydb.Storage.Pager
