import Tinydb.Storage.HeapChain

/-! Rollback in the process.

`rollback` writes the logged images back, the last one first. Taking a write back right after it was made
gives the pager before it, so the pager a rollback would leave stays the same over every logged write. Only
an extension of the file is left.
-/

namespace Tinydb.Storage.Pager

open Lib Program List Function

variable {pg pg' : Pager} {pid n : ℕ} {page : Page} {log : List (ℕ × Page)}

/-- What is on page 0 has the pager's own header fields, as long as they fit there. -/
def HeaderStored (pg : Pager) : Prop := pg.HeaderFits → pg.stamp (pg.file 0) = pg.file 0

theorem headerStored_headed (pg : Pager) : pg.headed.HeaderStored := by
  intro _
  rw [headed, put_file_same]
  exact stamp_stamp ..

theorem HeaderStored.put (stored : pg.HeaderStored) (nonzero : pid ≠ 0) : (pg.put pid page).HeaderStored := by
  intro fits
  rw [put_file_other _ _ nonzero.symm]
  exact stored fits

theorem wp_writeHeader_stored :
    writeHeader.wp (fun _ => HeaderStored) (fun _ => HeaderStored) pg :=
  Heap.wp_writeHeader.mpr ⟨fun _ => headerStored_headed pg, fun unfit fits => absurd fits unfit⟩

/-- Pagers of new and opened files, after any calls. -/
inductive Reached : Pager → Prop where
  | created : Reached initNew
  | opened {file : ℕ → Page} {pg : Pager} : openFile file = .ok pg → Reached pg
  | wrote {pg : Pager} {pid : ℕ} {data : Bytes} : Reached pg → Reached (writePage pid data pg).state
  | extended {pg : Pager} {n : ℕ} : Reached pg → Reached (extendTo n pg).state
  | allocated {pg : Pager} : Reached pg → Reached (allocatePage pg).state
  | freed {pg : Pager} {pid : ℕ} : Reached pg → Reached (freePage pid pg).state
  | stamped {pg : Pager} {lsn : ℕ} : Reached pg → Reached (setLastLsn lsn pg).state

theorem HeaderStored.extendTo (stored : pg.HeaderStored) :
    (Pager.extendTo n).wp (fun _ => HeaderStored) (fun _ => HeaderStored) pg := by
  simp only [Pager.extendTo, wp_bind, wp_read, wp_ite]
  simp [stored, wp_writeHeader_stored]

theorem HeaderStored.wp_writeAt (stored : pg.HeaderStored) (pid : ℕ) (page : Page) :
    (do let page ← if pid = 0 then protectHeader page else pure page
        writeAt pid page : PagerM Unit).wp (fun _ => HeaderStored) (fun _ => HeaderStored) pg := by
  split_ifs with zero
  · subst zero
    simp only [protectHeader, writeAt, wp_bind, wp_read, wp_ite, wp_pure, wp_raise, wp_modify, wp_mark]
    refine ⟨fun _ _ => ?_, fun _ => stored⟩
    rw [put_file_same]
    exact stamp_stamp ..
  · exact stored.put zero

theorem headerStored_of_openFile {file : ℕ → Page} (opened : openFile file = .ok pg) : pg.HeaderStored := by
  intro _
  have field (off n : ℕ) (inside : off + n ≤ PAGE_SIZE) :
      packLE n (unpackLE (slice (file 0).bytes off n)) = slice (file 0).bytes off n := by
    have same := packLE_unpackLE (slice (file 0).bytes off n)
    rwa [slice_length _ _ _ ((file 0).size ▸ inside)] at same
  simp only [openFile] at opened
  split_ifs at opened with magic version size
  cases opened
  rw [not_not] at magic version size
  have header : (file 0).bytes.take (8 + 2 + 2 + 4 + 4 + 4) =
    headerBytes ⟨unpackLE (slice (file 0).bytes HDR_NUM_PAGES_OFF 4),
      unpackLE (slice (file 0).bytes HDR_FREE_HEAD_OFF 4),
      unpackLE (slice (file 0).bytes HDR_LAST_LSN_OFF 4), file⟩ := by
    rw [headerBytes, ← magic, ← version, ← size]
    rw [field HDR_VERSION_OFF 2 (by decide), field HDR_PAGE_SIZE_OFF 2 (by decide),
      field HDR_NUM_PAGES_OFF 4 (by decide),
      field HDR_FREE_HEAD_OFF 4 (by decide), field HDR_LAST_LSN_OFF 4 (by decide)]
    simp only [take_add]
    rfl
  have bytes : splice (file 0).bytes 0 ((file 0).bytes.take (8 + 2 + 2 + 4 + 4 + 4)) = (file 0).bytes := by
    simp [splice, (file 0).size, PAGE_SIZE]
  rw [header] at bytes
  exact (Page.mk.injEq ..).mpr bytes

theorem Reached.stored (reached : Reached pg) : pg.HeaderStored := by
  induction reached with
  | created => exact fun _ => stamp_stamp ..
  | opened opened => exact headerStored_of_openFile opened
  | @wrote pg pid data _ stored =>
    apply wp_state
    rw [writePage]
    by_cases size : data.length = PAGE_SIZE
    · rw [dif_pos size, wp_bind, wp_read, wp_ite, wp_bind]
      have rest {pg : Pager} (stored : pg.HeaderStored) := stored.wp_writeAt pid ⟨data, size⟩
      exact ⟨fun _ => stored.extendTo.mono (fun _ _ => rest) fun _ _ => id, fun _ => rest stored⟩
    · rw [dif_neg size]
      exact stored
  | extended _ stored => exact wp_state stored.extendTo
  | allocated _ stored =>
    apply wp_state
    simp only [allocatePage, wp_bind, wp_read, wp_ite, writeAt, wp_modify, wp_mark, wp_pure]
    exact ⟨fun _ => wp_writeHeader_stored, fun _ => stored.extendTo⟩
  | @freed pg pid _ stored =>
    apply wp_state
    simp only [freePage, wp_bind, wp_read, wp_ite, writeAt, wp_modify, wp_mark, wp_raise]
    exact ⟨fun _ => stored, fun _ => ⟨fun _ => stored, fun _ => ⟨fun _ => wp_writeHeader_stored, fun _ => stored⟩⟩⟩
  | stamped _ stored =>
    apply wp_state
    simp only [setLastLsn, wp_bind, wp_read, wp_ite, wp_modify, wp_pure]
    exact ⟨fun _ => wp_writeHeader_stored, fun _ => stored⟩

/-- However its calls ended, a pager is opened from its file as it is, if its counters fit the header. -/
theorem reopens_iff (reached : Reached pg) : openFile pg.file = .ok pg ↔ pg.HeaderFits :=
  ⟨openFile_fits, fun fits => openFile_of_stamped pg (pg.file 0) fits (reached.stored fits).symm⟩

theorem reopens_stamped : openFile (setLastLsn 7 initNew).state.file = .ok (setLastLsn 7 initNew).state :=
  (reopens_iff (.stamped .created)).mpr (by decide)

def wrote (pg : Pager) (pid : ℕ) (page : Page) : Pager := pg.put pid (if pid = 0 then pg.stamp page else page)

theorem HeaderStored.wrote (stored : pg.HeaderStored) : (pg.wrote pid page).HeaderStored := by
  intro fits
  by_cases zero : 0 = pid
  · subst zero
    rw [Pager.wrote, put_file_same, if_pos rfl]
    exact stamp_stamp ..
  · rw [Pager.wrote, put_file_other _ _ zero]
    exact stored fits

theorem HeaderStored.wrote_back (stored : pg.HeaderStored) (header : pid = 0 → pg.HeaderFits) :
    (pg.wrote pid page).wrote pid (pg.file pid) = pg := by
  have image : (if pid = 0 then pg.stamp (pg.file pid) else pg.file pid) = pg.file pid := by
    split_ifs with zero
    · rw [zero, stored (header zero)]
    · rfl
  have again : (pg.wrote pid page).wrote pid (pg.file pid) = pg.put pid (pg.file pid) := by
    show { pg with file := update (update pg.file pid _) pid _ } = _
    rw [update_idem]
    exact congrArg (pg.put pid) image
  rw [again, Pager.put, update_eq_self]

theorem wrote_extended (inside : pid < pg.numPages) :
    (pg.extended n).wrote pid page = (pg.wrote pid page).extended n := by
  have file : ((pg.extended n).wrote pid page).file = ((pg.wrote pid page).extended n).file := by
    funext q
    by_cases zero : q = 0
    · subst zero
      have first : ¬ (pg.numPages ≤ 0 ∧ 0 < n) := by omega
      by_cases header : pid = 0
      · subst header
        show stamp _ page = stamp _ (if pg.numPages ≤ 0 ∧ 0 < n then zeroPage else (pg.wrote 0 page).file 0)
        rw [if_neg first, wrote, put_file_same, if_pos rfl, stamp_stamp]
        rfl
      · have same : (pg.wrote pid page).file 0 = pg.file 0 := put_file_other _ _ (Ne.symm header)
        rw [wrote, put_file_other _ _ (Ne.symm header)]
        show stamp _ (if pg.numPages ≤ 0 ∧ 0 < n then zeroPage else pg.file 0) =
          stamp _ (if pg.numPages ≤ 0 ∧ 0 < n then zeroPage else (pg.wrote pid page).file 0)
        rw [same]
        rfl
    · by_cases same : q = pid
      · subst same
        simp [wrote, extended, headed, zeroed, put, zero, Nat.not_le.mpr inside]
      · simp [wrote, extended, headed, zeroed, put, zero, same]
  exact (Pager.mk.injEq ..).mpr ⟨rfl, rfl, rfl, file⟩

theorem returns_writePage (inside : pid < pg.numPages) :
    (writePage pid page.bytes).Returns pg () pg' ↔ (pid = 0 → pg.HeaderFits) ∧ pg' = pg.wrote pid page := by
  by_cases zero : pid = 0
  · subst zero
    by_cases fits : pg.HeaderFits <;>
      simp [Program.Returns, writePage, page.size, Nat.ne_of_gt inside, protectHeader, fits, writeAt_apply,
        bind_apply, wrote, eq_comm]
  · rw [Program.Returns, writePage_inside zero inside]
    simp [wrote, zero, eq_comm]

theorem returns_extendTo (returned : (extendTo n).Returns pg () pg') :
    pg' = pg ∧ n ≤ pg.numPages ∨ pg.numPages < n ∧ pg'.HeaderFits ∧ pg' = pg.extended n := by
  by_cases grows : pg.numPages < n
  · by_cases fits : HeaderFits { pg with numPages := n }
    · rw [Program.Returns, extendTo_apply grows fits] at returned
      exact .inr ⟨grows, returned.2 ▸ fits, returned.2.symm⟩
    · have refused : ¬ HeaderFits { pg.zeroed n with numPages := n } := fits
      simp [Program.Returns, extendTo, bind_apply, Nat.not_le.mpr grows, writeHeader, protectHeader,
        zeroed] at returned refused
      simp [refused] at returned
  · simp [Program.Returns, extendTo, bind_apply, Nat.not_lt.mp grows] at returned
    exact .inl ⟨returned.symm, Nat.not_lt.mp grows⟩

/-- The pager after logged images were written back, the last one first. -/
def restored (pg : Pager) (log : List (ℕ × Page)) : Pager := log.foldr (fun entry pg => pg.wrote entry.1 entry.2) pg

theorem restored_append (entry : ℕ × Page) :
    pg.restored (log ++ [entry]) = (pg.wrote entry.1 entry.2).restored log := by simp [restored]

theorem restored_counters (pg : Pager) (log : List (ℕ × Page)) :
    (pg.restored log).numPages = pg.numPages ∧ ((pg.restored log).HeaderFits ↔ pg.HeaderFits) := by
  induction log with
  | nil => exact ⟨rfl, Iff.rfl⟩
  | cons entry log ih => exact ih

theorem restored_extended (inside : ∀ entry ∈ log, entry.1 < pg.numPages) :
    (pg.extended n).restored log = (pg.restored log).extended n := by
  induction log with
  | nil => rfl
  | cons entry log ih =>
    obtain ⟨here, later⟩ := List.forall_mem_cons.mp inside
    show ((pg.extended n).restored log).wrote entry.1 entry.2 = ((pg.restored log).wrote entry.1 entry.2).extended n
    rw [ih later]
    exact wrote_extended ((restored_counters pg log).1.symm ▸ here)

theorem file_restored_of_not_mem (pg : Pager) (absent : pid ∉ log.map Prod.fst) :
    (pg.restored log).file pid = pg.file pid := by
  induction log with
  | nil => rfl
  | cons entry log ih =>
    obtain ⟨other, later⟩ := not_or.mp (mem_cons.not.mp absent)
    exact (put_file_other _ _ other).trans (ih later)

end Tinydb.Storage.Pager

namespace Tinydb.Tx

open Lib Program Storage TransactionManager

def imagesBytes (log : List (ℕ × Page)) : List (ℕ × Bytes) := log.map fun entry => (entry.1, entry.2.bytes)

theorem returns_restore {pg pg' : Pager} {log : List (ℕ × Page)} (inside : ∀ entry ∈ log, entry.1 < pg.numPages)
    (header : 0 ∈ log.map Prod.fst → pg.HeaderFits) :
    (restore (imagesBytes log)).Returns pg () pg' ↔ pg' = pg.restored log := by
  induction log generalizing pg' with
  | nil => simp [restore, Pager.restored, imagesBytes, eq_comm]
  | cons entry log ih =>
    obtain ⟨here, later⟩ := List.forall_mem_cons.mp inside
    have earlier {pg' : Pager} : (restore (imagesBytes log)).Returns pg () pg' ↔ pg' = pg.restored log :=
      ih later fun zero => header (List.mem_cons_of_mem _ zero)
    have counters := pg.restored_counters log
    simp only [restore, imagesBytes] at earlier
    rw [restore, imagesBytes, List.map_cons, List.reverse_cons, returns_forEach_append]
    simp only [earlier, exists_eq_left, returns_forEach_cons, returns_forEach_nil]
    rw [exists_eq_right, Pager.returns_writePage (counters.1.symm ▸ here), counters.2]
    exact and_iff_right fun zero => header (by simp [zero])

/-- What a transaction does to the file: a logged write of a page, or more pages for it. -/
inductive TxStep where
  | write (pid : ℕ) (after : Page)
  | extend (numPages : ℕ)

namespace TxStep

def run : TxStep → TxM Unit
  | write pid after => Heap.writePageLogged pid after.bytes
  | extend numPages => onPager (Pager.extendTo numPages)

def pages : TxStep → List ℕ
  | write pid _ => [pid]
  | extend _ => []

def grow (pg : Pager) : TxStep → Pager
  | write _ _ => pg
  | extend numPages => if pg.numPages < numPages then pg.extended numPages else pg

end TxStep

variable {mgr mgr' last : TransactionManager} {log : List (ℕ × Page)} {steps : List TxStep} {pid : ℕ}

/-- The manager holds the images `log` and can write them back. -/
structure Undoable (mgr : TransactionManager) (log : List (ℕ × Page)) : Prop where
  logged : mgr.loggedPages = imagesBytes log
  inside : ∀ entry ∈ log, entry.1 < mgr.pager.numPages
  header : 0 ∈ log.map Prod.fst → mgr.pager.HeaderFits
  stored : mgr.pager.HeaderStored

theorem Undoable.step {step : TxStep} (undoable : Undoable mgr log) (ran : step.run.Returns mgr () mgr') :
    ∃ new, Undoable mgr' (log ++ new) ∧ new.map Prod.fst = step.pages ∧ mgr'.activeTx = mgr.activeTx ∧
      mgr'.pager.restored (log ++ new) = step.grow (mgr.pager.restored log) := by
  cases step with
  | write pid after =>
    obtain ⟨inside, -, pager, wrote, rfl⟩ := (Heap.returns_writePageLogged_iff after).mp ran
    obtain ⟨header, rfl⟩ := (Pager.returns_writePage inside).mp wrote
    refine ⟨[(pid, mgr.pager.file pid)], ⟨?_, ?_, ?_, undoable.stored.wrote⟩, rfl, rfl, ?_⟩
    · show mgr.loggedPages ++ _ = _
      simp [undoable.logged, imagesBytes]
    · intro entry member
      obtain old | new := List.mem_append.mp member
      · exact undoable.inside entry old
      · rw [List.mem_singleton.mp new]
        exact inside
    · intro zero
      rw [List.map_append, List.mem_append] at zero
      exact zero.elim undoable.header fun new => header (List.mem_singleton.mp new).symm
    · rw [Pager.restored_append]
      exact congrArg (Pager.restored · log) (undoable.stored.wrote_back header)
  | extend numPages =>
    simp only [TxStep.run, onPager, returns_zoom] at ran
    obtain ⟨pager, ran, rfl⟩ := ran
    refine ⟨[], ?_⟩
    rw [List.append_nil, TxStep.grow]
    obtain ⟨rfl, small⟩ | ⟨grows, fits, rfl⟩ := Pager.returns_extendTo ran
    · refine ⟨⟨undoable.logged, undoable.inside, undoable.header, undoable.stored⟩, rfl, rfl, ?_⟩
      rw [if_neg ((mgr.pager.restored_counters log).1.symm ▸ Nat.not_lt.mpr small)]
    · refine ⟨⟨undoable.logged, ?_, fun _ => fits, Pager.headerStored_headed _⟩, rfl, rfl, ?_⟩
      · intro entry member
        exact (undoable.inside entry member).trans grows
      · rw [if_pos ((mgr.pager.restored_counters log).1.symm ▸ grows)]
        exact Pager.restored_extended undoable.inside

theorem Undoable.run (undoable : Undoable mgr log) (ran : (forEach steps TxStep.run).Returns mgr () last) :
    ∃ new, Undoable last (log ++ new) ∧ new.map Prod.fst = steps.flatMap TxStep.pages ∧ last.activeTx = mgr.activeTx ∧
      last.pager.restored (log ++ new) = steps.foldl TxStep.grow (mgr.pager.restored log) := by
  induction steps generalizing mgr log with
  | nil =>
    obtain rfl := returns_forEach_nil.mp ran
    exact ⟨[], by rwa [List.append_nil], rfl, rfl, by rw [List.append_nil]; rfl⟩
  | cons step rest ih =>
    obtain ⟨middle, first, others⟩ := returns_forEach_cons.mp ran
    obtain ⟨new, here, pages, active, left⟩ := undoable.step first
    obtain ⟨newer, there, morePages, sameActive, allLeft⟩ := ih here others
    refine ⟨new ++ newer, by rwa [← List.append_assoc], ?_, sameActive.trans active, ?_⟩
    · rw [List.map_append, pages, morePages, List.flatMap_cons]
    · rw [← List.append_assoc, allLeft, left, List.foldl_cons]

theorem file_grown {pg : Pager} (inside : pid < pg.numPages) (kept : pid = 0 → ∀ n, .extend n ∉ steps) :
    (steps.foldl TxStep.grow pg).file pid = pg.file pid := by
  induction steps generalizing pg with
  | nil => rfl
  | cons step rest ih =>
    have later := fun zero n => List.not_mem_of_not_mem_cons (kept zero n)
    rw [List.foldl_cons]
    cases step with
    | write _ _ => exact ih inside later
    | extend n =>
      have nonzero : pid ≠ 0 := fun zero => kept zero n (by simp)
      rw [TxStep.grow]
      split_ifs with grows
      · rw [ih (inside.trans grows) later, Pager.extended, Pager.headed, Pager.put_file_other _ _ nonzero]
        exact if_neg (by omega)
      · exact ih inside later

/-- Rollback returns if its record can be logged. Each page then holds what it held before the transaction's first write
to it, and a page that was there at BEGIN what it held then; the header counts the pages the file was extended by. -/
theorem rollback_restores_pages {first : TransactionManager} {tx : TransactionContext} (reached : mgr.pager.Reached)
    (began : begin.Returns mgr tx first) (ran : (forEach steps TxStep.run).Returns first () last) :
    ((∃ mgr', (rollback tx).Returns last () mgr') ↔ last.CanLog (.rolledBack tx.txId)) ∧
      ∀ mgr', (rollback tx).Returns last () mgr' →
        (∀ pid < mgr.pager.numPages, (pid = 0 → ∀ n, .extend n ∉ steps) → mgr'.pager.file pid = mgr.pager.file pid) ∧
        ∀ early pid after late, steps = early ++ .write pid after :: late → (∀ image, .write pid image ∉ early) →
          (pid = 0 → ∀ n, .extend n ∉ late) → ∀ middle, (forEach early TxStep.run).Returns first () middle →
            mgr'.pager.file pid = middle.pager.file pid := by
  obtain ⟨-, -, rfl, rfl⟩ := returns_begin.mp began
  have none : Undoable mgr.begun [] := ⟨rfl, by simp, by simp, reached.stored⟩
  obtain ⟨log, undoable, -, active, left⟩ := none.run ran
  rw [List.nil_append] at undoable left
  have rolls {mgr' : TransactionManager} : (rollback mgr.opening).Returns last () mgr' ↔
      last.CanLog (.rolledBack mgr.opening.txId) ∧ mgr' = last.ended (.rolledBack mgr.opening.txId) mgr.opening.txId
        (steps.foldl TxStep.grow mgr.pager) := by
    rw [returns_rollback, undoable.logged]
    simp only [returns_restore undoable.inside undoable.header, left, exists_eq_left]
    exact and_iff_right active
  refine ⟨⟨fun ⟨_, returned⟩ => (rolls.mp returned).1, fun room => ⟨_, rolls.mpr ⟨room, rfl⟩⟩⟩, fun mgr' returned => ?_⟩
  obtain ⟨-, rfl⟩ := rolls.mp returned
  refine ⟨fun pid inside kept => file_grown inside kept, ?_⟩
  rintro early pid after late rfl unwritten kept middle ranEarly
  obtain ⟨middle', again, ranLate⟩ := (returns_forEach_append ..).mp ran
  obtain ⟨-, rfl⟩ := again.unique ranEarly
  obtain ⟨_, wrote, -⟩ := returns_forEach_cons.mp ranLate
  have inside := ((Heap.returns_writePageLogged_iff after).mp wrote).1
  obtain ⟨earlyLog, -, pages, -, earlyLeft⟩ := none.run ranEarly
  rw [List.nil_append] at earlyLeft
  have absent : pid ∉ earlyLog.map Prod.fst := by
    rw [pages, List.mem_flatMap]
    rintro ⟨step, member, touched⟩
    cases step with
    | write q image => exact unwritten image (List.mem_singleton.mp touched ▸ member)
    | extend n => cases touched
  have before : (early.foldl TxStep.grow mgr.pager).file pid = middle'.pager.file pid := by
    rw [← middle'.pager.file_restored_of_not_mem absent, earlyLeft]
    rfl
  have there : pid < (early.foldl TxStep.grow mgr.pager).numPages := by
    have counters := middle'.pager.restored_counters earlyLog
    rw [earlyLeft] at counters
    exact counters.1 ▸ inside
  show ((early ++ .write pid after :: late).foldl TxStep.grow mgr.pager).file pid = _
  rw [List.foldl_append, List.foldl_cons, ← before]
  exact file_grown there kept

theorem rollback_restores_pages_twice :
    let steps : List TxStep := [.write 1 (filled 7), .write 1 (filled 9)]
    ∃ first last, begin.Returns (.new .initNew ⟨[], 1⟩) ⟨1, 1, 0⟩ first ∧
    (forEach steps TxStep.run).Returns first () last ∧
      ∃ mgr', (rollback ⟨1, 1, 0⟩).Returns last () mgr' ∧ mgr'.pager.file 1 = zeroPage := by
  intro steps
  let first : TransactionManager := begun (.new .initNew ⟨[], 1⟩)
  have small : 1 < 2 ^ 64 := by decide
  have began : begin.Returns (.new .initNew ⟨[], 1⟩) ⟨1, 1, 0⟩ first :=
    returns_begin.mpr ⟨rfl, canLog_of_fits small (by decide), rfl, rfl⟩
  have ran : (forEach steps TxStep.run).Returns first () _ := returns_of_isOk (by decide +kernel)
  obtain ⟨returns, restores⟩ := rollback_restores_pages .created began ran
  obtain ⟨mgr', returned⟩ := returns.mpr (canLog_of_fits small (by decide +kernel))
  exact ⟨first, _, began, ran, mgr', returned, (restores mgr' returned).1 1 (by decide) (by simp)⟩

end Tinydb.Tx
