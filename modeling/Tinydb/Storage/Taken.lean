import Tinydb.Storage.Allocator
import Tinydb.Storage.HeapInsert

/-! Pages that were taken stay taken.

The pager only ever moves the end of the file or the head of the free list forward while
pages are taken, and both are written to the header. So a file in which a page was taken
is not the file it was, whatever was taken after it.
-/

namespace Tinydb.Storage.Heap

open Lib Program Tx TransactionManager Pager

def SamePages (pg pg' : Pager) : Prop := pg'.numPages = pg.numPages ∧ ∀ pid < pg.numPages, pg'.file pid = pg.file pid

theorem SamePages.refl (pg : Pager) : SamePages pg pg := ⟨rfl, fun _ _ => rfl⟩

def Fewer (pg : Pager) (lay : Layout) (pg' : Pager) (lay' : Layout) : Prop :=
  pg.numPages < pg'.numPages ∨ lay'.free.length < lay.free.length

variable {heads : List ℕ} {lay : Layout} {heads' : List ℕ} {pg pg' pg'' : Pager} {lay' lay'' : Layout}
  {mgr : TransactionManager}

theorem Laid.forget (laid : Laid heads pg lay) : Laid [] pg lay :=
  { laid with
    chain := nofun, nonempty := nofun, distinct := nofun, apart := nofun, notFree := nofun, inside := nofun,
    slotted := nofun }

theorem freeHead_ne_of_shorter (laid : Laid heads pg lay) (laid' : Laid heads' pg' lay')
    (suffix : lay'.free <:+ lay.free)
    (shorter : lay'.free.length < lay.free.length) : pg'.freeHead ≠ pg.freeHead := by
  have chain := laid.free
  have chain' := laid'.free
  have distinct := laid.freeDistinct
  cases isFree : lay.free with
  | nil => simp [isFree] at shorter
  | cons first rest =>
    rw [isFree] at chain distinct suffix shorter
    obtain ⟨starts, real, -⟩ := chain
    rcases List.suffix_cons_iff.mp suffix with whole | later
    · rw [whole] at shorter
      exact (lt_irrefl _ shorter).elim
    · cases isFree' : lay'.free with
      | nil =>
        rw [isFree'] at chain'
        rw [show pg'.freeHead = NO_NEXT from chain', starts]
        exact real.symm
      | cons first' rest' =>
        rw [isFree'] at chain' later
        rw [chain'.1, starts]
        rintro rfl
        exact (List.nodup_cons.mp distinct).1 (later.subset List.mem_cons_self)

theorem Fewer.pager (fewer : Fewer pg lay pg' lay') (laid : Laid heads pg lay) (laid' : Laid heads' pg' lay')
    (suffix : lay'.free <:+ lay.free) : pg.numPages < pg'.numPages ∨ pg'.freeHead ≠ pg.freeHead :=
  fewer.imp_right (freeHead_ne_of_shorter laid laid' suffix)

theorem Fewer.later (fewer : Fewer pg lay pg' lay') (grows : pg'.numPages ≤ pg''.numPages)
    (suffix : lay''.free <:+ lay'.free) :
    Fewer pg lay pg'' lay'' := fewer.imp (·.trans_le grows) suffix.length_le.trans_lt

theorem Moves.forward {logs : Bool} {mgr mgr' : TransactionManager} {free free' : List ℕ}
    (moves : Moves logs mgr free mgr' free') :
    mgr.pager.numPages ≤ mgr'.pager.numPages ∧ free' <:+ free := by
  induction moves with
  | refl => exact ⟨le_refl _, List.suffix_rfl⟩
  | write _ page _ _ _ _ ih =>
    rw [wroteBy_pager, put_numPages]
    exact ih
  | take _ suffix grows _ ih => exact ⟨ih.1.trans grows, suffix.trans ih.2⟩

theorem freeHead_of_inStep (inStep : pg.InStep) :
    pg.freeHead = unpackLE (slice (pg.file 0).bytes HDR_FREE_HEAD_OFF 4) := by
  obtain ⟨fits, page, header⟩ := inStep
  have opened := openFile_of_stamped pg page fits header
  simp only [openFile] at opened
  split_ifs at opened
  exact (congrArg freeHead (Except.ok.inj opened)).symm

/-- Pages were taken, one at least, and the header is in step if the file did not grow. -/
structure Advanced (pg : Pager) (lay : Layout) (pg' : Pager) (lay' : Layout) : Prop where
  took : Took [] pg lay pg' lay'
  fewer : Fewer pg lay pg' lay'
  header : pg.numPages < pg'.numPages ∨ pg'.InStep

theorem Advanced.not_samePages (advanced : Advanced pg lay pg' lay') (laid : Laid [] pg lay)
    (inStep : pg.InStep) : ¬ SamePages pg pg' := by
  rintro ⟨count, content⟩
  have inStep' := advanced.header.resolve_left count.le.not_gt
  have shorter := advanced.fewer.resolve_left count.le.not_gt
  refine freeHead_ne_of_shorter laid advanced.took.laid advanced.took.free shorter ?_
  rw [freeHead_of_inStep inStep, freeHead_of_inStep inStep', content 0 (lt_of_lt_of_le (by decide) laid.reserved)]

theorem wp_new_of_allocated {P E : Pager → Prop} (allocated : allocatePage.wp
    (fun pid pg' => pid ≠ 0 ∧ pid < pg'.numPages ∧ pg'.file pid = zeroPage ∧ P (pg'.put pid emptyPage))
    (fun _ => E) mgr.pager) :
    new.wp (fun _ mgr' => ∃ pager, mgr' = { mgr with pager } ∧ P pager)
    (fun _ mgr' => ∃ pager, mgr' = { mgr with pager } ∧ E pager)
      mgr := by
  rw [new, wp_bind, onPager, wp_zoom]
  refine allocated.mono ?_ fun _ pager holds => ⟨pager, rfl, holds⟩
  rintro pid pager ⟨nonzero, inside, zero, holds⟩
  have inside' : pid < ({ mgr with pager } : TransactionManager).pager.numPages := inside
  rw [wp_bind, wp_readPage inside', wp_bind]
  simp only
  rw [zero, writeHeader_eq _ (by decide), wp_ofExcept_ok, wp_bind, wp_writePage _ nonzero inside', wp_bind]
  have free : freeBytes ((pager.put pid emptyPage).file pid) = 4084 := by rw [put_file_same, freeBytes_emptyPage]
  exact (wp_refreshFsm inside).mpr ⟨fun beyond => absurd (free.symm.trans_lt beyond) (by decide),
    fun _ => ⟨_, rfl, holds⟩⟩

theorem fewer_of_fresh {pid : ℕ} (took : Took heads pg lay pg' lay')
    (fresh : Fresh heads lay' pg' pid) (source : pid ∈ lay.free ∨ pg.numPages ≤ pid) : Fewer pg lay pg' lay' := by
  rcases source with free | behind
  · refine .inr (lt_of_le_of_ne took.free.length_le fun same => fresh.notFree ?_)
    rwa [took.free.eq_of_length same]
  · exact .inl (behind.trans_lt fresh.inside)

theorem wp_new_fewer (laid : Laid heads mgr.pager lay) :
    new.wp (fun _ mgr' => ∃ pager, mgr' = { mgr with pager } ∧ ∃ lay',
      Took heads mgr.pager lay pager lay' ∧ Fewer mgr.pager lay pager lay')
      (fun _ mgr' => ∃ pager, mgr' = { mgr with pager } ∧ True) mgr := by
  refine wp_new_of_allocated (P := fun pager => ∃ lay', Took heads mgr.pager lay pager lay' ∧
    Fewer mgr.pager lay pager lay') (E := fun _ => True) ((wp_allocatePage laid).mono ?_ fun _ _ _ => trivial)
  rintro pid pg' ⟨-, lay', took, fresh, source, -⟩
  exact ⟨fresh.nonzero, fresh.inside, fresh.zero, lay',
    took.put emptyPage fresh.nonzero fresh.owned fresh.notFree source,
    (fewer_of_fresh took fresh source).later le_rfl List.suffix_rfl⟩

theorem wp_allocatePage_advances (laid : Laid [] pg lay) (inStep : pg.InStep) : allocatePage.wp
    (fun pid pg' => pid ≠ 0 ∧ pid < pg'.numPages ∧ pg'.file pid = zeroPage ∧ ∃ lay',
      Advanced pg lay (pg'.put pid emptyPage) lay')
    (fun _ pg' => ∃ lay', Advanced pg lay pg' lay') pg := by
  have small (pid : ℕ) (free : pid ∈ lay.free) : pid < NO_FREE := by
    have inside := (laid.freeInside pid free).2
    have count : pg.numPages < 2 ^ 32 := inStep.1.1
    unfold NO_FREE
    omega
  have owned : Pager.Owned pg [] lay := ⟨laid, List.nodup_nil, nofun, nofun, small, inStep.1.2.2⟩
  refine ((wp_allocatePage laid).and (wp_allocatePage_header owned.positive owned.freeHead.1
    owned.lsn (.inl inStep))).mono ?_ ?_
  · rintro pid pg' ⟨⟨-, lay', took, fresh, source, -⟩, ⟨fits, page, header⟩, -⟩
    refine ⟨fresh.nonzero, fresh.inside, fresh.zero, lay', took.put emptyPage fresh.nonzero nofun fresh.notFree source,
      (fewer_of_fresh took fresh source).later le_rfl List.suffix_rfl, .inr ⟨fits, page, ?_⟩⟩
    rw [put_file_other _ _ fresh.nonzero.symm]
    exact header
  · rintro e pg' ⟨⟨-, -, -, lay', took⟩, overrun, -⟩
    have grew : pg.numPages < pg'.numPages := lt_of_le_of_ne took.grows fun same => overrun.1 (same ▸ inStep.1.1)
    exact ⟨lay', took, .inl grew, .inl grew⟩

theorem wp_new_advances (laid : Laid [] mgr.pager lay) (inStep : mgr.pager.InStep) :
    new.wp (fun _ mgr' => ∃ lay', Advanced mgr.pager lay mgr'.pager lay')
    (fun _ mgr' => ∃ lay', Advanced mgr.pager lay mgr'.pager lay')
      mgr := by
  refine (wp_new_of_allocated (P := fun pager => ∃ lay', Advanced mgr.pager lay pager lay')
    (wp_allocatePage_advances laid inStep)).mono ?_ ?_
  all_goals
    rintro _ _ ⟨pager, rfl, advanced⟩
    exact advanced

theorem Advanced.wp_new (advanced : Advanced pg lay mgr.pager lay') :
    new.wp (fun _ mgr' => ∃ lay', Advanced pg lay mgr'.pager lay')
    (fun _ mgr' => ∃ lay', Advanced pg lay mgr'.pager lay') mgr := by
  have took := advanced.took
  rcases advanced.header with grew | inStep
  · have later {pager : Pager} {lay'' : Layout} (next : Took [] mgr.pager lay' pager lay'') :
        ∃ lay'', Advanced pg lay pager lay'' :=
      ⟨lay'', took.trans next, .inl (grew.trans_le next.grows), .inl (grew.trans_le next.grows)⟩
    refine (Heap.wp_new took.laid).mono ?_ ?_
    · rintro _ _ ⟨pager, lay'', rfl, next, -⟩
      exact later next
    · rintro _ _ ⟨-, pager, lay'', rfl, next⟩
      exact later next
  · have later {pager : Pager} (next : ∃ lay'', Advanced mgr.pager lay' pager lay'') : ∃ lay'',
      Advanced pg lay pager lay'' := by
      obtain ⟨lay'', next⟩ := next
      exact ⟨lay'', took.trans next.took, advanced.fewer.later next.took.grows next.took.free,
        next.header.imp_left took.grows.trans_lt⟩
    exact (wp_new_advances took.laid inStep).mono (fun _ _ => later) fun _ _ => later

end Tinydb.Storage.Heap
