import Tinydb.Storage.Allocator

/-! The number of the last commit in the header of the file.

The log numbers its records with 64 bits, the header has 32 for the number that a commit stamps
into it. A number that does not fit stays in memory, where every later header carries it.
-/

namespace Tinydb.Tx

open Lib Program Storage Pager TransactionManager

/-- A later call on the pager that changes which pages are in use. -/
inductive PageCall where
  | allocate
  | free (pid : ℕ)

def PageCall.run : PageCall → PagerM Unit
  | allocate => do
    let _ ← allocatePage
  | free pid => freePage pid

/-- The file has the stamp, with and without closing the pager first, and calls that succeeded still do. -/
structure Stamped (before : Pager) (lsn : ℕ) (after : Pager) : Prop where
  reopens : ∃ opened, openFile after.file = .ok opened ∧ reopen after = .ok opened ∧
  opened.lastLsn = max before.lastLsn lsn
  later : ∀ calls pg, (forEach calls PageCall.run).Returns before () pg →
  ∃ pg', (forEach calls PageCall.run).Returns after () pg'

/-- Two pagers that hand out the same pages. -/
structure Alike (pg pg' : Pager) : Prop where
  numPages : pg'.numPages = pg.numPages
  freeHead : pg'.freeHead = pg.freeHead
  lsn : U32 pg'.lastLsn
  file : ∀ pid, pid ≠ 0 → pg'.file pid = pg.file pid
  magic : slice (pg'.file 0).bytes 0 8 = slice (pg.file 0).bytes 0 8

variable {pg pg' pg₁ : Pager} {lsn : ℕ} {mgr mgr' : TransactionManager} {tx : TransactionContext}

/-- The pager when a call comes to writing the header. -/
def PageCall.changed (pg : Pager) : PageCall → Pager
  | allocate =>
    if pg.freeHead = NO_FREE then { pg.zeroed (pg.numPages + 1) with numPages := pg.numPages + 1 }
    else { pg.put pg.freeHead zeroPage with freeHead := unpackLE (slice (pg.file pg.freeHead).bytes 0 4) }
  | free pid => pg.linked pid

def PageCall.Allowed (pg : Pager) : PageCall → Prop
  | allocate => True
  | free pid => RESERVED_PAGES ≤ pid ∧ pid < pg.numPages ∧ U32 pg.freeHead

theorem wp_writeHeader_eq :
    writeHeader.wp (fun _ t => pg' = t) (fun _ _ => False) pg ↔ pg.HeaderFits ∧ pg' = pg.headed := by
  rw [Heap.wp_writeHeader]
  exact ⟨fun ends => ⟨not_not.mp ends.2, ends.1 (not_not.mp ends.2)⟩,
    fun ends => ⟨fun _ => ends.2, fun large => large ends.1⟩⟩

theorem PageCall.returns_run {call : PageCall} : call.run.Returns pg () pg' ↔
    call.Allowed pg ∧ (call.changed pg).HeaderFits ∧ pg' = (call.changed pg).headed := by
  simp only [returns_iff_wp, true_and]
  cases call with
  | allocate =>
    rw [run, wp_bind, allocatePage, wp_bind, wp_read, changed, Allowed, true_and]
    by_cases none : pg.freeHead = NO_FREE
    · have grows : ¬ pg.numPages + 1 ≤ pg.numPages := by omega
      rw [if_neg (not_not.mpr none), if_pos none, wp_bind, extendTo, wp_bind, wp_read, if_neg grows]
      exact wp_writeHeader_eq
    · rw [if_pos none, if_neg none]
      simp only [wp_bind, wp_modify, writeAt, wp_mark]
      exact wp_writeHeader_eq
  | free pid =>
    rw [run, freePage, wp_bind, wp_read, changed, Allowed]
    split_ifs with reserved beyond small
    · exact iff_of_false id fun ends => Nat.not_le.mpr reserved ends.1.1
    · exact iff_of_false id fun ends => Nat.not_le.mpr ends.1.2.1 beyond
    · rw [and_iff_right ⟨Nat.not_lt.mp reserved, Nat.not_le.mp beyond, small⟩]
      exact wp_writeHeader_eq
    · exact iff_of_false id fun ends => small ends.1.2.2

theorem alike_headed (numPages : pg'.numPages = pg.numPages) (freeHead : pg'.freeHead = pg.freeHead)
    (lsn : U32 pg'.lastLsn) (file : ∀ pid, pid ≠ 0 → pg'.file pid = pg.file pid) : Alike pg.headed pg'.headed where
  numPages := numPages
  freeHead := freeHead
  lsn := lsn
  file := fun pid nonzero => by
    rw [headed, headed, put_file_other _ _ nonzero, put_file_other _ _ nonzero, file pid nonzero]
  magic := (Heap.magic_headed pg').trans (Heap.magic_headed pg).symm

theorem Alike.next (alike : Alike pg pg') (pid : ℕ) :
    unpackLE (slice (pg'.file pid).bytes 0 4) = unpackLE (slice (pg.file pid).bytes 0 4) := by
  by_cases zero : pid = 0
  · have front : ∀ page : Page, slice page.bytes 0 4 = (slice page.bytes 0 8).take 4 :=
      fun page => by simp [slice, List.take_take]
    rw [zero, front, front, alike.magic]
  · rw [alike.file pid zero]

theorem Alike.run (alike : Alike pg pg') {call : PageCall} (returned : call.run.Returns pg () pg₁) :
    ∃ pg₁', call.run.Returns pg' () pg₁' ∧ Alike pg₁ pg₁' := by
  obtain ⟨allowed, ⟨count, head, -⟩, rfl⟩ := PageCall.returns_run.mp returned
  have changed : (call.changed pg').numPages = (call.changed pg).numPages ∧
    (call.changed pg').freeHead = (call.changed pg).freeHead ∧
      U32 (call.changed pg').lastLsn ∧ ∀ pid, pid ≠ 0 → (call.changed pg').file pid = (call.changed pg).file pid := by
    have next := alike.next pg.freeHead
    cases call with
    | allocate =>
      rw [PageCall.changed, PageCall.changed, alike.freeHead]
      split_ifs
      · refine ⟨congrArg (· + 1) alike.numPages, alike.freeHead, alike.lsn, fun pid nonzero => ?_⟩
        simp only [zeroed, alike.numPages, alike.file pid nonzero]
      · refine ⟨alike.numPages, next, alike.lsn, fun pid nonzero => ?_⟩
        simp only [put, Function.update_apply, alike.file pid nonzero]
    | free freed =>
      refine ⟨alike.numPages, rfl, alike.lsn, fun pid nonzero => ?_⟩
      by_cases same : pid = freed
      · simp only [PageCall.changed, linked, same, put_file_same, alike.freeHead, alike.file freed (same ▸ nonzero)]
      · simp only [PageCall.changed, linked, put_file_other _ _ same, alike.file pid nonzero]
  obtain ⟨sameCount, sameHead, lsn, file⟩ := changed
  refine ⟨_, PageCall.returns_run.mpr ⟨?_, ⟨sameCount ▸ count, sameHead ▸ head, lsn⟩, rfl⟩,
    alike_headed sameCount sameHead lsn file⟩
  cases call with
  | allocate => trivial
  | free pid =>
    rw [PageCall.Allowed, alike.numPages, alike.freeHead]
    exact allowed

theorem Alike.later (alike : Alike pg pg') {calls : List PageCall}
    (returned : (forEach calls PageCall.run).Returns pg () pg₁) :
    ∃ pg₁', (forEach calls PageCall.run).Returns pg' () pg₁' := by
  induction calls generalizing pg pg' with
  | nil => exact ⟨pg', returns_forEach_nil.mpr rfl⟩
  | cons call rest ih =>
    obtain ⟨mid, first, others⟩ := returns_forEach_cons.mp returned
    obtain ⟨mid', first', alike⟩ := alike.run first
    obtain ⟨pg₁', others'⟩ := ih alike others
    exact ⟨pg₁', returns_forEach_cons.mpr ⟨mid', first', others'⟩⟩

theorem setLastLsn_state (inStep : pg.InStep) (small : U32 lsn) :
    (setLastLsn lsn pg).state = headed { pg with lastLsn := max pg.lastLsn lsn } := by
  by_cases newer : pg.lastLsn < lsn
  · have fits : HeaderFits { pg with lastLsn := lsn } := ⟨inStep.1.1, inStep.1.2.1, small⟩
    simp [setLastLsn, bind_apply, newer, writeHeader_apply fits, max_eq_right newer.le]
  · have same : max pg.lastLsn lsn = pg.lastLsn := max_eq_left (Nat.not_lt.mp newer)
    rw [same]
    simp [setLastLsn, bind_apply, newer, inStep.headed_eq]

theorem commit_stamped_iff (inStep : mgr.pager.InStep) (committed : (commit tx).Returns mgr () mgr') :
    Stamped mgr.pager mgr.wal.nextLsn mgr'.pager ↔ U32 mgr.wal.nextLsn := by
  obtain ⟨-, -, rfl⟩ := returns_commit.mp committed
  show Stamped _ _ (setLastLsn mgr.wal.nextLsn mgr.pager).state ↔ _
  constructor
  · rintro ⟨⟨opened, read, -, same⟩, -⟩
    have fits := (openFile_fits read).2.2
    rw [same] at fits
    exact (le_max_right _ _).trans_lt fits
  · intro small
    rw [setLastLsn_state inStep small]
    have lsn : U32 (max mgr.pager.lastLsn mgr.wal.nextLsn) := max_lt inStep.1.2.2 small
    have fits : HeaderFits { mgr.pager with lastLsn := max mgr.pager.lastLsn mgr.wal.nextLsn } :=
      ⟨inStep.1.1, inStep.1.2.1, lsn⟩
    have opens := openFile_of_stamped _ _ (inStep_headed fits).1 (inStep_headed fits).2.choose_spec
    refine ⟨⟨_, opens, ?_, rfl⟩, fun calls pg returned => ?_⟩
    · rw [reopen, writeHeader_apply (inStep_headed fits).1, (inStep_headed fits).headed_eq, opens]
    · rw [← inStep.headed_eq] at returned
      have alike : Alike mgr.pager.headed
        (headed { mgr.pager with lastLsn := max mgr.pager.lastLsn mgr.wal.nextLsn }) :=
        alike_headed rfl rfl lsn fun _ _ => rfl
      exact alike.later returned

/-- A manager that has logged `n` records. -/
def numberedUpTo (n : ℕ) : TransactionManager :=
  { new initNew ⟨(List.range n).map fun i => ⟨i + 1, RT_BEGIN, packBE 8 1⟩, n + 1⟩ with activeTx := some ⟨1, 1, 0⟩ }

theorem returns_commit_numbered {n : ℕ} (room : n + 1 < 2 ^ 64) :
    ∃ mgr', (commit ⟨1, 1, 0⟩).Returns (numberedUpTo n) () mgr' :=
  ⟨_, returns_commit.mpr ⟨rfl, canLog_of_fits (show 1 < 2 ^ 64 by decide) room, rfl⟩⟩

theorem commit_stamped_first :
    ∃ mgr', (commit ⟨1, 1, 0⟩).Returns (numberedUpTo 1) () mgr' ∧ Stamped initNew 2 mgr'.pager := by
  obtain ⟨mgr', committed⟩ := returns_commit_numbered (n := 1) (by decide)
  exact ⟨mgr', committed, (commit_stamped_iff ⟨by decide, zeroPage, rfl⟩ committed).mpr (show U32 2 by decide)⟩

theorem large_commit_unstamped : ¬ ∀ (mgr mgr' : TransactionManager) (tx : TransactionContext), mgr.pager.InStep →
    mgr.wal.InSequence →
    (commit tx).Returns mgr () mgr' → Stamped mgr.pager mgr.wal.nextLsn mgr'.pager := by
  intro claim
  have sequence (n : ℕ) : (numberedUpTo n).wal.InSequence :=
    ⟨fun i inside => by simp [numberedUpTo, new], by simp [numberedUpTo, new]⟩
  obtain ⟨mgr', committed⟩ := returns_commit_numbered (n := 2 ^ 32 - 1) (by decide)
  obtain ⟨⟨opened, read, -, same⟩, -⟩ := claim _ mgr' _ ⟨by decide, zeroPage, rfl⟩ (sequence _) committed
  have fits := (openFile_fits read).2.2
  rw [same] at fits
  exact absurd fits (by decide : ¬ U32 (2 ^ 32))

end Tinydb.Tx
