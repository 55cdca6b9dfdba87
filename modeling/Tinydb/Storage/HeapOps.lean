import Tinydb.Storage.HeapChain

/-! What the operations of a heap do to the pages of a file.

Each operation is a sequence of moves: a page is taken from outside the heaps,
without a log record, or a page that belongs to no free list is written, behind
its log record if the heap logs. What holds of every move holds of every operation, also of one
that raises. The heaps stay laid out unless the log ran full between the two
records of a spill.
-/

namespace Tinydb.Storage.Heap

open Lib Program Tx TransactionManager List Pager

inductive Moves (logs : Bool) (mgr : TransactionManager) (free : List ℕ) : TransactionManager → List ℕ → Prop
  | refl : Moves logs mgr free mgr free
  | write {mgr' : TransactionManager} {free' : List ℕ} (moves : Moves logs mgr free mgr' free') {pid : ℕ} (page : Page)
      (nonzero : pid ≠ 0) (inside : pid < mgr'.pager.numPages) (outside : pid ∉ free')
      (room : CanWrite logs mgr' pid page) : Moves logs mgr free (wroteBy logs mgr' pid page) free'
  | take {mgr' : TransactionManager} {free' : List ℕ} (moves : Moves logs mgr free mgr' free') {pager : Pager}
      {free'' : List ℕ} (suffix : free'' <:+ free') (grows : mgr'.pager.numPages ≤ pager.numPages)
      (same : ∀ q, q ≠ 0 → q < mgr'.pager.numPages → q ∉ free' → pager.file q = mgr'.pager.file q) :
      Moves logs mgr free { mgr' with pager } free''

variable {logs : Bool} {mgr : TransactionManager} {pid : ℕ} {page : Page} {E : Exc → TransactionManager → Prop}
  {Q : Unit → TransactionManager → Prop} {heads : List ℕ} {lay : Layout} {head : ℕ}

theorem Moves.trans {mgr' mgr'' : TransactionManager} {free free' free'' : List ℕ}
    (first : Moves logs mgr free mgr' free') (second : Moves logs mgr' free' mgr'' free'') :
    Moves logs mgr free mgr'' free'' := by
  induction second with
  | refl => exact first
  | write _ page nonzero inside outside room ih => exact ih.write page nonzero inside outside room
  | take _ suffix grows same ih => exact ih.take suffix grows same

theorem Moves.of_took {lay lay' : Layout} {pager : Pager}
    (took : Took heads mgr.pager lay pager lay') : Moves logs mgr lay.free { mgr with pager } lay'.free :=
  Moves.refl.take took.free took.grows took.same

def Roomy (mgr : TransactionManager) : Prop := mgr.wal.nextLsn < 2 ^ 64

theorem canWrite_iff : CanWrite logs mgr pid page ↔ (logs = true → Roomy mgr ∧ mgr.currentTxId < 2 ^ 64 ∧ U32 pid) :=
  imp_congr_right fun _ => ⟨fun ⟨fits, room⟩ => ⟨room.1, fits⟩, fun ⟨room, fits⟩ => canLog_of_fits fits room⟩

theorem returns_readPage (inside : pid < mgr.pager.numPages) :
    (onPager (readPage pid)).Returns mgr (mgr.pager.file pid) mgr := by
  refine (returns_zoom ..).mpr ⟨mgr.pager, ?_, rfl⟩
  rw [Program.Returns, readPage_apply inside]
  exact ⟨rfl, rfl⟩

theorem wp_readPage {Q : Page → TransactionManager → Prop} (inside : pid < mgr.pager.numPages) :
    (onPager (readPage pid)).wp Q E mgr ↔ Q (mgr.pager.file pid) mgr := wp_of_returns (returns_readPage inside)

theorem wp_writePage (mgr : TransactionManager) (nonzero : pid ≠ 0)
    (inside : pid < mgr.pager.numPages) (page : Page) :
    (onPager (writePage pid page.bytes)).wp Q E mgr ↔ Q () { mgr with pager := mgr.pager.put pid page } := by
  rw [onPager, wp_zoom, Program.wp, writePage_inside nonzero inside]

theorem wp_logPageWrite (before after : Page) : (logPageWrite pid before.bytes after.bytes).wp Q E mgr ↔
      (mgr.CanLog (.page (mgr.touching pid before after)) → Q () (mgr.logged pid before after)) ∧
        (¬ mgr.CanLog (.page (mgr.touching pid before after)) → E .packRange mgr) := by
  by_cases room : mgr.CanLog (.page (mgr.touching pid before after))
  · simp only [wp_of_returns (returns_logPageWrite.mpr ⟨room, rfl⟩), room, true_imp_iff, not_true, false_imp_iff,
      and_true]
  · have raised : (logPageWrite pid before.bytes after.bytes).Raises mgr .packRange mgr := by
      have sizes : ¬ (before.bytes.length ≠ PAGE_SIZE ∨ after.bytes.length ≠ PAGE_SIZE) := by
        simp [before.size, after.size]
      rw [logPageWrite, raises_read_bind, raises_bind]
      by_cases fits : mgr.currentTxId < 2 ^ 64 ∧ U32 pid
      · refine .inr ⟨(LogEntry.page (mgr.touching pid before after)).payload, mgr, ?_, ?_⟩
        · rw [returns_ofExcept, encodePageRecord, if_neg sizes, if_pos fits]
          exact ⟨rfl, rfl⟩
        · rw [raises_bind, onWal, raises_zoom]
          have refused := Wal.append_apply_of_not fun appendable => room ⟨fits, appendable⟩
          exact .inl ⟨mgr.wal, ⟨congrArg Outcome.result refused, congrArg Outcome.state refused⟩, rfl⟩
      · refine .inl ?_
        rw [raises_ofExcept, encodePageRecord, if_neg sizes, if_neg fits]
        exact ⟨rfl, rfl⟩
    simp only [wp_of_raises raised, room, false_imp_iff, not_false_iff, true_imp_iff, true_and]

theorem wp_writePageLogged (nonzero : pid ≠ 0)
    (inside : pid < mgr.pager.numPages) (page : Page) : (writePageLogged pid page.bytes).wp Q E mgr ↔
      (mgr.CanLog (writeEntry mgr pid page) → Q () (wrote mgr pid page)) ∧
        (¬ mgr.CanLog (writeEntry mgr pid page) → E .packRange mgr) := by
  rw [writePageLogged, wp_bind, wp_readPage inside, wp_bind, wp_logPageWrite]
  refine and_congr (imp_congr_right fun room => ?_) Iff.rfl
  exact wp_writePage (mgr.logged pid (mgr.pager.file pid) page) nonzero inside page

theorem wp_writePageBy (nonzero : pid ≠ 0)
    (inside : pid < mgr.pager.numPages) (page : Page) : (writePageBy logs pid page.bytes).wp Q E mgr ↔
      (CanWrite logs mgr pid page → Q () (wroteBy logs mgr pid page)) ∧
        (¬ CanWrite logs mgr pid page → E .packRange mgr) := by
  cases logs with
  | true => simpa [writePageBy, CanWrite, wroteBy] using wp_writePageLogged nonzero inside page
  | false =>
    have quiet : (writePageBy false pid page.bytes).wp Q E mgr ↔ Q () { mgr with pager := mgr.pager.put pid page } := by
      rw [writePageBy, if_neg (by decide), wp_bind, wp_readPage inside]
      exact wp_writePage mgr nonzero inside page
    simpa [CanWrite, wroteBy] using quiet

def liveRows (headPid : ℕ) : TxM (List (Rid × Bytes)) := do
  let rids ← scan headPid
  Program.collect rids fun rid => do return (← read rid).map (rid, ·)

def liveOn (pid : ℕ) (page : Page) : List Rid :=
  ((List.range (slotCount page)).filter fun i => (slotAt page i).flags ≠ 0).map fun i => ⟨pid, i⟩

theorem liveSlots_eq (slotted : Slotted page) : liveSlots pid page = .ok (liveOn pid page) := by
  have walk (slots : List ℕ) (fits : ∀ i ∈ slots, SlotFits i) (found : List Rid) :
      slots.foldlM (fun found slotId => do
        let slot ← readSlot page slotId
        return if slot.flags ≠ 0 then found ++ [⟨pid, slotId⟩] else found) found =
      (.ok (found ++ (slots.filter fun i => (slotAt page i).flags ≠ 0).map fun i => ⟨pid, i⟩) :
        Except Exc (List Rid)) := by
    induction slots generalizing found with
    | nil => simp [pure, Except.pure]
    | cons i rest ih =>
      rw [foldlM_cons, readSlot_eq page (fits i (by simp))]
      refine (ih (fun j member => fits j (mem_cons_of_mem _ member)) _).trans ?_
      by_cases used : (slotAt page i).flags = 0 <;> simp [used]
  exact walk _ (fun i member => slotted.slotFits (mem_range.mp member)) []

theorem returns_scanFrom {pages : List ℕ} {fuel : ℕ} (chain : Chain mgr.pager.file pid pages)
    (enough : pages.length < fuel) (inside : ∀ q ∈ pages, q < mgr.pager.numPages)
    (slotted : ∀ q ∈ pages, Slotted (mgr.pager.file q)) :
    (scanFrom fuel pid).Returns mgr (pages.flatMap fun q => liveOn q (mgr.pager.file q)) mgr := by
  induction pages generalizing fuel pid with
  | nil =>
    obtain ⟨fuel, rfl⟩ := Nat.exists_eq_add_of_lt enough
    have ends : pid = NO_NEXT := chain
    rw [scanFrom, if_pos ends]
    exact returns_pure.mpr ⟨rfl, rfl⟩
  | cons here rest ih =>
    obtain ⟨rfl, real, later⟩ := chain
    obtain ⟨fuel, rfl⟩ : ∃ more, fuel = more + 1 := ⟨fuel - 1, by simp at enough; omega⟩
    have next := ih later (by simpa using enough) (fun q member => inside q (mem_cons_of_mem _ member))
      fun q member => slotted q (mem_cons_of_mem _ member)
    rw [scanFrom, if_neg real, returns_bind]
    refine ⟨_, mgr, returns_readPage (inside pid (by simp)), ?_⟩
    rw [returns_bind]
    refine ⟨_, mgr, returns_ofExcept.mpr ⟨liveSlots_eq (slotted pid (by simp)), rfl⟩, ?_⟩
    rw [returns_bind]
    exact ⟨_, mgr, next, returns_pure.mpr ⟨rfl, rfl⟩⟩

theorem Laid.chain_length (laid : Laid heads mgr.pager lay) (member : head ∈ heads) :
    (lay.chain head).length ≤ mgr.pager.numPages := by
  have sub : lay.chain head ⊆ List.range mgr.pager.numPages := fun pid here =>
    mem_range.mpr (laid.inside head member pid here).2
  have := (subperm_of_subset (laid.distinct head member) sub).length_le
  rwa [length_range] at this

theorem returns_scan (laid : Laid heads mgr.pager lay) (member : head ∈ heads) :
    (scan head).Returns mgr ((lay.chain head).flatMap fun q => liveOn q (mgr.pager.file q)) mgr := by
  rw [scan, returns_read_bind]
  exact returns_scanFrom (laid.chain head member) (Nat.lt_succ_of_le (laid.chain_length member))
    (fun q here => (laid.inside head member q here).2) (laid.slotted head member)

theorem returns_read (rid : Rid) (inside : rid.pageId < mgr.pager.numPages)
    (slotted : Slotted (mgr.pager.file rid.pageId)) :
    (read rid).Returns mgr (if rid.slotId < slotCount (mgr.pager.file rid.pageId)
      then recordAt (mgr.pager.file rid.pageId) rid.slotId else none) mgr := by
  rw [read, returns_bind]
  refine ⟨_, mgr, returns_readPage inside, ?_⟩
  by_cases used : rid.slotId < slotCount (mgr.pager.file rid.pageId)
  · rw [if_neg (Nat.not_le.mpr used), if_pos used, returns_bind]
    refine ⟨_, mgr, returns_ofExcept.mpr ⟨readSlot_eq _ (slotted.slotFits used), rfl⟩, ?_⟩
    rw [recordAt]
    split <;> exact returns_pure.mpr ⟨rfl, rfl⟩
  · rw [if_pos (Nat.not_lt.mp used), if_neg used]
    exact returns_pure.mpr ⟨rfl, rfl⟩

theorem filterMap_liveOn (pid : ℕ) (page : Page) :
    ((liveOn pid page).filterMap fun rid => (recordAt page rid.slotId).map (rid, ·)) = recordsOn pid page := by
  rw [liveOn, recordsOn, filterMap_map, filterMap_filter]
  refine filterMap_congr fun i _ => ?_
  by_cases used : (slotAt page i).flags = 0
  · simp [used, recordAt]
  · simp [used]

theorem returns_liveRows (laid : Laid heads mgr.pager lay) (member : head ∈ heads) :
    (liveRows head).Returns mgr (rowsOf mgr.pager.file (lay.chain head)) mgr := by
  rw [liveRows, returns_bind]
  refine ⟨_, mgr, returns_scan laid member, ?_⟩
  have rows : rowsOf mgr.pager.file (lay.chain head) =
      ((lay.chain head).flatMap fun q => liveOn q (mgr.pager.file q)).filterMap
        fun rid => (recordAt (mgr.pager.file rid.pageId) rid.slotId).map (rid, ·) := by
    rw [rowsOf, filterMap_flatMap]
    refine flatMap_congr fun pid _ => ?_
    rw [← filterMap_liveOn]
    refine filterMap_congr fun rid live => ?_
    obtain ⟨i, _, rfl⟩ := mem_map.mp live
    rfl
  rw [rows]
  refine returns_collect_of_reads fun rid live => ?_
  obtain ⟨pid, here, live⟩ := mem_flatMap.mp live
  obtain ⟨i, used, rfl⟩ := mem_map.mp live
  have inside := mem_range.mp (mem_filter.mp used).1
  rw [returns_bind]
  have found := returns_read ⟨pid, i⟩ (laid.inside head member pid here).2 (laid.slotted head member pid here)
  rw [if_pos inside] at found
  exact ⟨_, mgr, found, returns_pure.mpr ⟨rfl, rfl⟩⟩

end Tinydb.Storage.Heap
