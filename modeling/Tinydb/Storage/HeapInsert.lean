import Tinydb.Storage.HeapWrite

/-! What inserting a record does to a heap.

A record is placed on the first page of the chain with room. A chain without such
a page spills: a fresh page is linked behind its tail, then set up, then written,
each step with a log record of its own. A spill whose second record the log
refuses leaves a chain that ends in page 0 of the file, which no scan survives.
-/

namespace Tinydb.Storage.Heap

open Lib Program Tx TransactionManager List Function Pager

variable {front : List ℕ} {new : ℕ} {lay' lay₁ : Layout} {mgr₁ : TransactionManager} {logs : Bool} {heads : List ℕ}
  {mgr mgr' : TransactionManager} {lay : Layout} {head q : ℕ} {pg : Pager} {tail pid : ℕ}
  {page : Page} {encoded : Bytes} {pages : List ℕ} {Q : Rid → TransactionManager → Prop}

def CanLink (logs : Bool) (mgr : TransactionManager) : Prop :=
  CanAllocate mgr.pager ∧ (logs = true → Roomy mgr ∧ mgr.currentTxId < 2 ^ 64)

/-- The chain of `head` was extended by an empty page. -/
structure Spilled (logs : Bool) (heads : List ℕ) (mgr : TransactionManager) (lay : Layout) (head new : ℕ)
    (mgr' : TransactionManager) (lay' : Layout) : Prop extends Kept logs heads mgr lay head mgr' lay' where
  can : CanLink logs mgr
  chain : lay'.chain head = lay.chain head ++ [new]
  linked : new ∈ lay'.chain head
  empty : mgr'.pager.file new = emptyPage
  lsn : mgr'.wal.nextLsn = mgr.wal.nextLsn + if logs then 2 else 0
  room : logs = true → mgr.wal.nextLsn + 1 < 2 ^ 64
  tx : mgr'.currentTxId = mgr.currentTxId
  u32 : U32 new
  grows : mgr.pager.numPages ≤ mgr'.pager.numPages
  counts : ∀ pid ∈ lay.chain head, freeBytes (mgr'.pager.file pid) = freeBytes (mgr.pager.file pid)

/-- No page was linked: the file cannot grow or the log is full. The heaps are as before. -/
structure Unlinked (logs : Bool) (heads : List ℕ) (mgr : TransactionManager) (lay : Layout) (e : Exc)
    (mgr' : TransactionManager) : Prop where
  range : e = .packRange
  cannot : ¬ CanLink logs mgr
  took : ∃ pager lay', mgr' = { mgr with pager } ∧ Took heads mgr.pager lay pager lay' ∧
    (¬ CanAllocate mgr.pager → ¬ CanAllocate pager)

theorem Unlinked.kept {e : Exc} (unlinked : Unlinked logs heads mgr lay e mgr') (laid : Laid heads mgr.pager lay)
    (member : head ∈ heads) : ∃ lay', Kept logs heads mgr lay head mgr' lay' := by
  obtain ⟨pager, lay', rfl, took, -⟩ := unlinked.took
  exact ⟨lay', .of_took laid member took⟩

/-- The tail of `head` was linked to a page that the log did not let be set up. -/
structure Torn (logs : Bool) (mgr mgr' : TransactionManager) : Prop where
  can : CanLink logs mgr
  logging : logs = true
  full : mgr.wal.nextLsn + 1 = 2 ^ 64
  last : mgr'.wal.nextLsn = 2 ^ 64

def Layout.extend (lay : Layout) (head new : ℕ) : Layout :=
  { lay with chain := update lay.chain head (lay.chain head ++ [new]) }

theorem Fresh.nonzero {pager : Pager} (fresh : Fresh heads lay' pager new) : new ≠ 0 := by
  have := fresh.reserved
  unfold RESERVED_PAGES at this
  omega

def linkedFile (pg : Pager) (tail new : ℕ) : Pager := (pg.put tail (Heap.linked (pg.file tail) new)).put new emptyPage

theorem linkedFile_new : (linkedFile pg tail new).file new = emptyPage := put_file_same _ _ _

theorem linkedFile_other (notTail : q ≠ tail) (notNew : q ≠ new) : (linkedFile pg tail new).file q = pg.file q := by
  rw [linkedFile, put_file_other _ _ notNew, put_file_other _ _ notTail]

section Link

variable (laid : Laid heads pg lay) (member : head ∈ heads)
  (chain : lay.chain head = front ++ [tail]) (fresh : Fresh heads lay pg new) {other : ℕ}

include member chain fresh

theorem tail_ne_new : tail ≠ new := fun same => fresh.owned head member (by rw [chain, ← same]; simp)

theorem linkedFile_tail : (linkedFile pg tail new).file tail = Heap.linked (pg.file tail) new := by
  rw [linkedFile, put_file_other _ _ (tail_ne_new member chain fresh), put_file_same]

include laid

theorem linkedFile_elsewhere (member' : other ∈ heads) (differs : other ≠ head)
    (here : q ∈ lay.chain other) : (linkedFile pg tail new).file q = pg.file q := by
  refine linkedFile_other (fun same => ?_) fun same => fresh.owned other member' (same ▸ here)
  exact differs (laid.apart other member' head member q here (by rw [same, chain]; simp))

theorem linkedFile_front (here : q ∈ front) : (linkedFile pg tail new).file q = pg.file q := by
  have distinct := laid.distinct head member
  rw [chain] at distinct
  refine linkedFile_other (fun same => ?_) fun same => ?_
  · exact (nodup_append.mp distinct).2.2 q here tail (by simp) same
  · exact fresh.owned head member (by rw [chain, ← same]; simp [here])

theorem laid_linkedFile : Laid heads (linkedFile pg tail new) (lay.extend head new) := by
  have tailHere : tail ∈ lay.chain head := by rw [chain]; simp
  have slotted := laid.slotted head member tail tailHere
  have own : (lay.extend head new).chain head = lay.chain head ++ [new] := update_self ..
  have others {other : ℕ} (differs : other ≠ head) : (lay.extend head new).chain other = lay.chain other :=
    update_of_ne differs ..
  have mem {other q : ℕ} (here : q ∈ (lay.extend head new).chain other) :
      q ∈ lay.chain other ∨ other = head ∧ q = new := by
    by_cases same : other = head
    · rw [same, own, mem_append, mem_singleton] at here
      rw [same]
      exact here.imp id fun new => ⟨rfl, new⟩
    · rw [others same] at here
      exact .inl here
  refine ⟨fun other member' => ?_, ?_, fun other member' => ?_, fun other member' => ?_, laid.freeDistinct,
    fun other member' another member'' q here here' => ?_, fun other member' q here =>
      ?_, fun other member' q here => ?_,
    laid.freeInside, fun other member' q here => ?_, laid.reserved, ?_⟩
  · by_cases same : other = head
    · rw [same, own, chain, append_assoc]
      have whole := laid.chain head member
      rw [chain] at whole
      refine whole.extend fresh.real (fun q here => ?_) ?_ ?_
      · rw [linkedFile_front laid member chain fresh here]
      · rw [linkedFile_tail member chain fresh]
        exact (slotted.linked_fields fresh.u32).1
      · rw [linkedFile_new]
        exact emptyPage_fields.1
    · rw [others same]
      exact (laid.chain other member').congr fun q here => by
        rw [linkedFile_elsewhere laid member chain fresh member' same here]
  · refine laid.free.congr fun q here => ?_
    have notTail : q ≠ tail := fun same => laid.notFree head member tail tailHere (same ▸ here)
    have notNew : q ≠ new := fun same => fresh.notFree (same ▸ here)
    rw [linkedFile_other notTail notNew]
  · by_cases same : other = head
    · rw [same, own]
      simp
    · rw [others same]
      exact laid.nonempty other member'
  · by_cases same : other = head
    · rw [same, own]
      exact nodup_append.mpr ⟨laid.distinct head member, by simp, fun q here new' isNew =>
        by rw [mem_singleton.mp isNew]; exact fun same => fresh.owned head member (same ▸ here)⟩
    · rw [others same]
      exact laid.distinct other member'
  · rcases mem here with old | ⟨rfl, rfl⟩ <;> rcases mem here' with old' | ⟨rfl, isNew⟩
    · exact laid.apart other member' another member'' q old old'
    · exact (fresh.owned other member' (isNew ▸ old)).elim
    · exact (fresh.owned another member'' old').elim
    · rfl
  · rcases mem here with old | ⟨rfl, rfl⟩
    · exact laid.notFree other member' q old
    · exact fresh.notFree
  · rcases mem here with old | ⟨rfl, rfl⟩
    · exact laid.inside other member' q old
    · exact ⟨fresh.reserved, fresh.inside⟩
  · rcases mem here with old | ⟨rfl, rfl⟩
    · by_cases isTail : q = tail
      · rw [isTail, linkedFile_tail member chain fresh]
        exact slotted.linked fresh.u32
      · have notNew : q ≠ new := fun same => fresh.owned other member' (same ▸ old)
        rw [linkedFile_other isTail notNew]
        exact laid.slotted other member' q old
    · rw [linkedFile_new]
      exact slotted_empty _ _
  · rw [linkedFile_other (laid.nonzero member tailHere).symm fresh.nonzero.symm]
    exact laid.magic

theorem rowsOf_linkedFile (member' : other ∈ heads) :
    rowsOf (linkedFile pg tail new).file ((lay.extend head new).chain other) = rowsOf pg.file (lay.chain other) := by
  by_cases same : other = head
  · have slotted := laid.slotted head member tail (by rw [chain]; simp)
    have own : (lay.extend head new).chain head = front ++ [tail] ++ [new] := by
      rw [← chain]
      exact update_self ..
    have old : rowsOf (linkedFile pg tail new).file front = rowsOf pg.file front :=
      rowsOf_congr fun q here => linkedFile_front laid member chain fresh here
    have split (file : ℕ → Page) (more : List ℕ) : rowsOf file (front ++ more) = rowsOf file front ++
      rowsOf file more :=
      flatMap_append
    rw [same, own, chain, append_assoc, split, split, old]
    congr 1
    simp only [rowsOf, cons_append, nil_append, flatMap_cons, flatMap_nil, append_nil]
    rw [linkedFile_tail member chain fresh, linkedFile_new, slotted.recordsOn_linked fresh.u32, emptyPage,
      recordsOn_empty, append_nil]
  · have others : (lay.extend head new).chain other = lay.chain other := update_of_ne same ..
    rw [others]
    exact rowsOf_congr fun q here => linkedFile_elsewhere laid member chain fresh member' same here

end Link

theorem counts_linkedFile (laid : Laid heads pg lay)
    (member : head ∈ heads) (chain : lay.chain head = front ++ [tail]) (fresh : Fresh heads lay pg new)
    (here : q ∈ lay.chain head) : slotCount ((linkedFile pg tail new).file q) = slotCount (pg.file q) ∧
      dataEnd ((linkedFile pg tail new).file q) = dataEnd (pg.file q) := by
  by_cases same : q = tail
  · obtain ⟨-, slots, data⟩ := (laid.slotted head member q here).linked_fields fresh.u32
    rw [same, linkedFile_tail member chain fresh, ← same, slots, data]
    exact ⟨rfl, rfl⟩
  · rw [chain] at here
    rcases mem_append.mp here with early | late
    · rw [linkedFile_front laid member chain fresh early]
      exact ⟨rfl, rfl⟩
    · exact (same (mem_singleton.mp late)).elim

theorem solid_linkedFile (laid : Laid heads pg lay)
    (member : head ∈ heads) (chain : lay.chain head = front ++ [tail]) (fresh : Fresh heads lay pg new)
    (solid : ∀ q ∈ lay.chain head, Solid (pg.file q)) (here : q ∈ (lay.extend head new).chain head) :
    Solid ((linkedFile pg tail new).file q) := by
  have own : (lay.extend head new).chain head = lay.chain head ++ [new] := update_self ..
  rw [own, mem_append, mem_singleton] at here
  rcases here with old | rfl
  · by_cases same : q = tail
    · rw [same, linkedFile_tail member chain fresh, ← same]
      exact (laid.slotted head member q old).solid_linked fresh.u32 (solid q old)
    · have early : q ∈ front := by simpa [chain, same] using old
      rw [linkedFile_front laid member chain fresh early]
      exact solid q old
  · rw [linkedFile_new]
    exact solid_empty _ _

theorem spilled_wroteBy {mgr₂ : TransactionManager}
    (laid : Laid heads mgr.pager lay) (member : head ∈ heads) (chain : lay.chain head = front ++ [tail])
    (took : Took heads mgr.pager lay mgr₁.pager lay₁) (same : mgr₁ = { mgr with pager := mgr₁.pager })
    (fresh : Fresh heads lay₁ mgr₁.pager new) (can : CanLink logs mgr)
    (first : CanWrite logs mgr₁ tail (Heap.linked (mgr₁.pager.file tail) new))
    (linked : mgr₂ = wroteBy logs mgr₁ tail (Heap.linked (mgr₁.pager.file tail) new))
    (second : CanWrite logs mgr₂ new emptyPage) :
    Spilled logs heads mgr lay head new (wroteBy logs mgr₂ new emptyPage) (lay₁.extend head new) := by
  have kept₁ : Kept logs heads mgr lay head mgr₁ lay₁ := by
    rw [same]
    exact .of_took laid member took
  have laid₁ := kept₁.laid
  have chain₁ : lay₁.chain head = front ++ [tail] := by rw [took.chain, chain]
  have tailHere : tail ∈ lay₁.chain head := by rw [chain₁]; simp
  have tailIn := (laid₁.inside head member tail tailHere).2
  have file : (wroteBy logs mgr₂ new emptyPage).pager = linkedFile mgr₁.pager tail new := by
    rw [wroteBy_pager, linked, wroteBy_pager, linkedFile]
  have newIn : new < mgr₂.pager.numPages := by
    rw [linked, wroteBy_pager]
    exact fresh.inside
  have moves₂ : Moves logs mgr lay.free mgr₂ lay₁.free := linked ▸ kept₁.moves.write _ (laid₁.nonzero member tailHere)
    tailIn (laid₁.notFree head member tail tailHere) first
  have rowsOther {q : ℕ} (member' : q ∈ heads) :
      rows (wroteBy logs mgr₂ new emptyPage) (lay₁.extend head new) q = rows mgr lay q := by
    rw [rows, file, rowsOf_linkedFile laid₁ member chain₁ fresh member']
    exact kept₁.all member'
  have lsn₁ : mgr₁.wal.nextLsn = mgr.wal.nextLsn := by rw [same]
  have lsn₂ : mgr₂.wal.nextLsn = mgr.wal.nextLsn + if logs then 1 else 0 := by rw [linked, wroteBy_nextLsn, lsn₁]
  have tx : mgr₂.currentTxId = mgr.currentTxId := by
    rw [linked, wroteBy_currentTxId, same]
    rfl
  have counts {q : ℕ} (here : q ∈ lay₁.chain head) := counts_linkedFile laid₁ member chain₁ fresh here
  refine ⟨⟨⟨file ▸ laid_linkedFile laid₁ member chain₁ fresh, moves₂.write _ fresh.nonzero newIn fresh.notFree second,
    fun q member' _ => rowsOther member', fun rid used => ?_, fun solid q here => ?_⟩, rowsOther member⟩, can, ?_, by
      simp [Layout.extend], ?_, ?_, fun isLogging => ?_,
    ?_, fresh.u32, ?_, fun q here => ?_⟩
  · obtain ⟨here, slot⟩ := kept₁.used rid used
    refine ⟨by simp [Layout.extend, here], ?_⟩
    rw [file, (counts here).1]
    exact slot
  · rw [file]
    exact solid_linkedFile laid₁ member chain₁ fresh (kept₁.solid solid) here
  · rw [← took.chain]
    exact update_self ..
  · rw [wroteBy_pager, put_file_same]
  · rw [wroteBy_nextLsn, lsn₂]
    cases logs <;> rfl
  · have room := (canWrite_iff.mp second isLogging).1
    rwa [Roomy, lsn₂, if_pos isLogging] at room
  · rw [wroteBy_currentTxId, tx]
  · rw [file]
    exact took.grows
  · have here₁ : q ∈ lay₁.chain head := by rw [took.chain]; exact here
    rw [file, freeBytes, (counts here₁).1, (counts here₁).2, ← freeBytes, took.same q (laid.nonzero member here)
      (laid.inside head member q here).2 (laid.notFree head member q here)]

theorem wp_appendOverflowPage (laid : Laid heads mgr.pager lay) (member : head ∈ heads)
    (chain : lay.chain head = front ++ [tail]) :
    (appendOverflowPage logs tail).wp (fun new mgr' => ∃ lay', Spilled logs heads mgr lay head new mgr' lay')
      (fun e mgr' => Unlinked logs heads mgr lay e mgr' ∨ Torn logs mgr mgr') mgr := by
  rw [appendOverflowPage, wp_bind, onPager, wp_zoom]
  refine (wp_allocatePage laid).mono ?_ ?_
  rotate_left
  · rintro e pager ⟨range, cannot, still, lay', took⟩
    exact .inl ⟨range, fun can => cannot can.1, pager, lay', rfl, took, fun _ => still⟩
  rintro new pager ⟨can, lay₁, took, fresh, -, fits⟩
  -- the page was taken: from here on the manager is `mgr` with another pager
  obtain ⟨mgr₁, same⟩ : ∃ mgr₁ : TransactionManager, mgr₁ = { mgr with pager } := ⟨_, rfl⟩
  obtain rfl : pager = mgr₁.pager := by rw [same]
  have laid₁ := took.laid
  have tailHere : tail ∈ lay₁.chain head := by rw [took.chain, chain]; simp
  have tailIn := (laid₁.inside head member tail tailHere).2
  have slotted := laid₁.slotted head member tail tailHere
  have log₁ : Roomy mgr₁ ∧ mgr₁.currentTxId < 2 ^ 64 ↔ Roomy mgr ∧ mgr.currentTxId < 2 ^ 64 := by rw [same]; rfl
  rw [← same, wp_bind, wp_readPage tailIn, writeHeader_eq _ ⟨fresh.u32, slotted.counts_lt⟩, wp_bind,
    wp_ofExcept_ok, wp_bind, wp_writePageBy (laid₁.nonzero member tailHere) tailIn]
  refine ⟨fun room => ?_, fun full => .inl ⟨rfl, fun can => full (canWrite_iff.mpr fun isLogging => ?_), mgr₁.pager,
    lay₁, same, took, fun cannot => (cannot can).elim⟩⟩
  rotate_left
  · have log := log₁.mpr (can.2 isLogging)
    exact ⟨log.1, log.2, tailIn.trans fits.1⟩
  have link : CanLink logs mgr := ⟨can, fun isLogging =>
    log₁.mp ⟨(canWrite_iff.mp room isLogging).1, (canWrite_iff.mp room isLogging).2.1⟩⟩
  -- the tail is linked, the new page still all zero
  obtain ⟨mgr₂, linked⟩ : ∃ mgr₂, mgr₂ = wroteBy logs mgr₁ tail (Heap.linked (mgr₁.pager.file tail) new) := ⟨_, rfl⟩
  have chain₁ : lay₁.chain head = front ++ [tail] := by rw [took.chain, chain]
  have other := (tail_ne_new member chain₁ fresh).symm
  have newIn : new < mgr₂.pager.numPages := by
    rw [linked, wroteBy_pager]
    exact fresh.inside
  have zero : mgr₂.pager.file new = zeroPage := by
    rw [linked, wroteBy_pager, put_file_other _ _ other, fresh.zero]
  rw [← Heap.linked, ← linked, wp_bind, wp_readPage newIn, zero, writeHeader_eq _ (by decide), wp_bind,
    wp_ofExcept_ok, wp_bind, wp_writePageBy fresh.nonzero newIn]
  refine ⟨fun room₂ => ?_, fun full => .inr ?_⟩
  · exact (wp_pure _).mpr
      ⟨_, spilled_wroteBy laid member chain took same fresh link room linked room₂⟩
  · have isLogging : logs = true := by
      by_contra quiet
      exact full fun isLogging => (quiet isLogging).elim
    have lsn₂ : mgr₂.wal.nextLsn = mgr.wal.nextLsn + 1 := by
      rw [linked, wroteBy_nextLsn, if_pos isLogging, same]
    have log := link.2 isLogging
    have tx₂ : mgr₂.currentTxId < 2 ^ 64 := by
      rw [linked, wroteBy_currentTxId]
      exact (log₁.mpr log).2
    have large : ¬ Roomy mgr₂ := fun room₂ => full (canWrite_iff.mpr fun _ => ⟨room₂, tx₂, fresh.u32⟩)
    have lsn : mgr.wal.nextLsn + 1 = 2 ^ 64 := by
      have small := log.1
      unfold Roomy at small large
      omega
    exact ⟨link, isLogging, lsn, lsn₂.trans lsn⟩

def Full (page : Page) (encoded : Bytes) : Prop :=
  0 ≤ freeBytes page ∧ freeBytes page < ((SLOT_SIZE + encoded.length : ℕ) : ℤ)

def Spills (mgr : TransactionManager) (pages : List ℕ) (encoded : Bytes) : Prop :=
  ∀ pid ∈ pages, Full (mgr.pager.file pid) encoded

def Reaches (mgr : TransactionManager) (pages : List ℕ) (encoded : Bytes) (pid : ℕ) : Prop :=
  ∃ front back, pages = front ++ pid :: back ∧ Spills mgr front encoded

def HasRoom (page : Page) (encoded : Bytes) : Prop := ((SLOT_SIZE + encoded.length : ℕ) : ℤ) ≤ freeBytes page

/-- What the free-space map says of a page whose records run into its slots. -/
def overfull (page : Page) : Exc := ⟨.valueError, "free_bytes must be >= 0, got " ++ toString (freeBytes page)⟩

theorem Reaches.mem (reaches : Reaches mgr pages encoded pid) : pid ∈ pages := by
  obtain ⟨front, back, rfl, -⟩ := reaches
  simp

theorem HasRoom.not_full (room : HasRoom page encoded) : ¬ Full page encoded :=
  fun full => absurd full.2 (Int.not_lt.mpr room)

theorem not_full_of_over (beyond : freeBytes page < 0) : ¬ Full page encoded :=
  fun full => absurd full.1 (Int.not_le.mpr beyond)

theorem Reaches.unique {pid' : ℕ} (reaches : Reaches mgr pages encoded pid)
    (reaches' : Reaches mgr pages encoded pid') (stops : ¬ Full (mgr.pager.file pid) encoded)
    (stops' : ¬ Full (mgr.pager.file pid') encoded) : pid = pid' := by
  obtain ⟨front, back, rfl, full⟩ := reaches
  obtain ⟨front', back', same, full'⟩ := reaches'
  rcases append_eq_append_iff.mp same with ⟨more, rfl, rest⟩ | ⟨more, rfl, rest⟩
  · cases more with
    | nil => simpa using (List.cons.inj rest).1
    | cons here more =>
      cases rest
      exact (stops (full' pid (by simp))).elim
  · cases more with
    | nil => simpa using (List.cons.inj rest).1.symm
    | cons here more =>
      cases rest
      exact (stops' (full pid' (by simp))).elim

theorem Reaches.not_spills (reaches : Reaches mgr pages encoded pid)
    (stops : ¬ Full (mgr.pager.file pid) encoded) : ¬ Spills mgr pages encoded := fun spills =>
  stops (spills pid reaches.mem)

theorem Reaches.not_over {pid' : ℕ} (reaches : Reaches mgr pages encoded pid)
    (room : HasRoom (mgr.pager.file pid) encoded)
    (reaches' : Reaches mgr pages encoded pid') : ¬ freeBytes (mgr.pager.file pid') < 0 := fun beyond => by
  obtain rfl := reaches.unique reaches' room.not_full (not_full_of_over beyond)
  exact absurd room (Int.not_le.mpr (beyond.trans_le (Int.natCast_nonneg _)))

theorem wp_findRoom (laid : Laid heads mgr.pager lay) (member : head ∈ heads) {rest : List ℕ} {fuel : ℕ}
    (split : lay.chain head = front ++ rest) (chain : Chain mgr.pager.file pid rest) (nonempty : rest ≠ [])
    (enough : rest.length < fuel) (full : Spills mgr front encoded) :
    (findRoom logs (SLOT_SIZE + encoded.length) fuel pid).wp
      (fun found mgr' =>
        (mgr' = mgr ∧ Reaches mgr (lay.chain head) encoded found ∧ HasRoom (mgr.pager.file found) encoded) ∨
        (Spills mgr (lay.chain head) encoded ∧ ∃ lay', Spilled logs heads mgr lay head found mgr' lay'))
      (fun e mgr' =>
        (mgr' = mgr ∧ ∃ pid, Reaches mgr (lay.chain head) encoded pid ∧ freeBytes (mgr.pager.file pid) < 0 ∧
          e = overfull (mgr.pager.file pid)) ∨
        (Spills mgr (lay.chain head) encoded ∧ Unlinked logs heads mgr lay e mgr') ∨
        (Spills mgr (lay.chain head) encoded ∧ Torn logs mgr mgr')) mgr := by
  induction rest generalizing front fuel pid with
  | nil => exact (nonempty rfl).elim
  | cons here rest ih =>
    obtain ⟨rfl, -, later⟩ := chain
    obtain ⟨fuel, rfl⟩ : ∃ more, fuel = more + 1 := ⟨fuel - 1, by simp at enough; omega⟩
    have reaches : Reaches mgr (lay.chain head) encoded pid := ⟨front, rest, split, full⟩
    have hereIn : pid ∈ lay.chain head := reaches.mem
    have inside := (laid.inside head member pid hereIn).2
    rw [findRoom, wp_bind, wp_refreshFsm inside]
    refine ⟨fun beyond => .inl ⟨rfl, pid, reaches, beyond, rfl⟩, fun known => ?_⟩
    by_cases fits : SLOT_SIZE + encoded.length ≤ (freeBytes (mgr.pager.file pid)).toNat
    · have room : HasRoom (mgr.pager.file pid) encoded := by
        unfold HasRoom
        omega
      rw [if_pos fits]
      exact .inl ⟨rfl, reaches, room⟩
    have fullHere : Full (mgr.pager.file pid) encoded := ⟨known, by omega⟩
    rw [if_neg fits, wp_bind, wp_readPage inside]
    by_cases last : nextPid (mgr.pager.file pid) = NO_NEXT
    · obtain rfl : rest = [] := by
        rw [last] at later
        exact later.unique (show Chain mgr.pager.file NO_NEXT [] from rfl)
      have spills : Spills mgr (lay.chain head) encoded := by
        rw [split]
        exact fun q isHere => (mem_append.mp isHere).elim (full q) fun isPid =>
          mem_singleton.mp isPid ▸ fullHere
      rw [if_pos last, wp_bind]
      refine (wp_appendOverflowPage laid member split).mono ?_ fun e mgr' raised => ?_
      · rintro new mgr' ⟨lay', spilled⟩
        have newIn := (spilled.laid.inside head member new spilled.linked).2
        have tailFree := spilled.counts pid hereIn
        have newFree : freeBytes (mgr'.pager.file new) = 4084 := by rw [spilled.empty, freeBytes_emptyPage]
        rw [wp_bind, wp_refreshFsm (inside.trans_le spilled.grows)]
        refine ⟨fun beyond => by omega, fun _ => ?_⟩
        rw [wp_bind, wp_refreshFsm newIn]
        exact ⟨fun beyond => by omega, fun _ => .inr ⟨spills, lay', spilled⟩⟩
      · exact .inr (raised.imp (fun unlinked => ⟨spills, unlinked⟩) fun torn => ⟨spills, torn⟩)
    · rw [if_neg last]
      have split' : lay.chain head = (front ++ [pid]) ++ rest := by simp [split]
      refine ih split' later ?_ (by simpa using enough) ?_
      · rintro rfl
        exact last later
      · exact fun q isHere => (mem_append.mp isHere).elim (full q) fun isPid =>
          mem_singleton.mp isPid ▸ fullHere

theorem wp_placeRecord {E : Exc → TransactionManager → Prop} (nonzero : pid ≠ 0)
    (inside : pid < mgr.pager.numPages) (slotted : Slotted (mgr.pager.file pid))
    (takes : Takes (mgr.pager.file pid) encoded) : (placeRecord logs pid encoded).wp Q E mgr ↔
      (CanWrite logs mgr pid (placed (mgr.pager.file pid) encoded takes.1) →
        (freeBytes (placed (mgr.pager.file pid) encoded takes.1) < 0 →
          E ⟨.valueError, "free_bytes must be >= 0, got " ++
            toString (freeBytes (placed (mgr.pager.file pid) encoded takes.1))⟩
            (wroteBy logs mgr pid (placed (mgr.pager.file pid) encoded takes.1))) ∧
        (0 ≤ freeBytes (placed (mgr.pager.file pid) encoded takes.1) → Q ⟨pid, slotCount (mgr.pager.file pid)⟩
          (wroteBy logs mgr pid (placed (mgr.pager.file pid) encoded takes.1)))) ∧
      (¬ CanWrite logs mgr pid (placed (mgr.pager.file pid) encoded takes.1) → E .packRange mgr) := by
  have fits := takes.slotFits slotted
  have counts := slotted.counts_lt
  have data := takes.1
  have slots : slotCount (mgr.pager.file pid) + 1 < 2 ^ 16 := by
    unfold SlotFits HEADER_SIZE SLOT_SIZE PAGE_SIZE at fits
    omega
  unfold PAGE_SIZE at data
  have edited : splice (mgr.pager.file pid).bytes (dataEnd (mgr.pager.file pid)) encoded =
    (withRecord (mgr.pager.file pid) (dataEnd (mgr.pager.file pid)) encoded takes.1).bytes := rfl
  rw [placeRecord, wp_bind, wp_readPage inside]
  dsimp only
  rw [edited, writeSlot_eq _ fits ⟨counts.2, by simp only; omega, by simp only; decide⟩, wp_bind, wp_ofExcept_ok,
    writeHeader_eq _ ⟨nextPid_u32 _, slots, by omega⟩, wp_bind, wp_ofExcept_ok, wp_bind,
    wp_writePageBy nonzero inside]
  refine and_congr (imp_congr_right fun room => ?_) Iff.rfl
  have there : (wroteBy logs mgr pid (placed (mgr.pager.file pid) encoded takes.1)).pager.file pid =
      placed (mgr.pager.file pid) encoded takes.1 := by rw [wroteBy_pager, put_file_same]
  have inside' : pid < (wroteBy logs mgr pid (placed (mgr.pager.file pid) encoded takes.1)).pager.numPages := by
    rw [wroteBy_pager]
    exact inside
  rw [← placed, wp_bind, wp_refreshFsm inside', there]
  rfl

theorem length_le_splice (buf : Bytes) (off : ℕ) (bs : Bytes) : buf.length ≤ (splice buf off bs).length := by
  simp only [splice, length_append, length_take, length_drop]
  omega

theorem wp_placeRecord_oversize (inside : pid < mgr.pager.numPages)
    (large : PAGE_SIZE < dataEnd (mgr.pager.file pid) + encoded.length)
    (slotted : Slotted (mgr.pager.file pid)) : (placeRecord logs pid encoded).wp Q (fun _ mgr' => mgr' = mgr) mgr := by
  rw [placeRecord, wp_bind, wp_readPage inside]
  dsimp only
  have grown : PAGE_SIZE < (splice (mgr.pager.file pid).bytes (dataEnd (mgr.pager.file pid)) encoded).length := by
    have data := slotted.dataEnd_le
    have size := (mgr.pager.file pid).size
    rw [splice_length_grow _ _ _ (by omega) (by omega)]
    exact large
  rw [wp_bind, wp_ofExcept]
  refine ⟨fun buf₂ edited => ?_, fun _ _ => rfl⟩
  have grown₂ : PAGE_SIZE < buf₂.length := by
    obtain ⟨off, -, edited⟩ := bind_ok_iff.mp edited
    split at edited
    · cases edited
      exact grown.trans_le (length_le_splice _ _ _)
    · cases edited
  rw [wp_bind, wp_ofExcept]
  refine ⟨fun buf₃ edited => ?_, fun _ _ => rfl⟩
  have grown₃ : PAGE_SIZE < buf₃.length := by
    unfold writeHeader at edited
    split at edited
    · cases edited
      exact grown₂.trans_le (length_le_splice _ _ _)
    · cases edited
  rw [wp_bind, writePageBy]
  cases logs with
  | true =>
    rw [if_pos rfl, writePageLogged, wp_bind, wp_readPage inside, wp_bind, logPageWrite,
      wp_bind, wp_read, wp_bind, encodePageRecord, if_pos (.inr (by omega))]
    rfl
  | false =>
    rw [if_neg (by decide), wp_bind, wp_readPage inside, onPager, wp_zoom, writePage,
      dif_neg (by omega)]
    rfl

theorem inserted_wrote (laid : Laid heads mgr.pager lay) (member : head ∈ heads) (here : pid ∈ lay.chain head)
    (takes : Takes (mgr.pager.file pid) encoded) (nonempty : encoded ≠ [])
    (room : CanWrite logs mgr pid (placed (mgr.pager.file pid) encoded takes.1)) :
    ∃ record, Inserted logs heads mgr lay head ⟨pid, slotCount (mgr.pager.file pid)⟩ record
        (wroteBy logs mgr pid (placed (mgr.pager.file pid) encoded takes.1)) lay ∧
      (0 ≤ freeBytes (placed (mgr.pager.file pid) encoded takes.1) → record = encoded) := by
  have slotted := laid.slotted head member pid here
  obtain ⟨link, slots, data⟩ := takes.placed_fields slotted
  obtain ⟨record, records, exact'⟩ := takes.recordsOn_placed slotted pid nonempty
  obtain ⟨front, back, elsewhere, split, written⟩ := laid.rowsOf_put member here
  refine ⟨record, ⟨laid.touches_wrote member here link (takes.slotted_placed slotted) (by omega)
    (takes.solid_placed slotted nonempty) room, ?_,
    fun used => Nat.lt_irrefl _ used.2⟩, fun known => ?_⟩
  · rw [rows, wroteBy_pager, written, records, rows, split, ← append_assoc, append_assoc]
    exact perm_middle
  · refine exact' ?_
    rw [freeBytes, slots, data, slotsStart] at known
    unfold SLOT_SIZE PAGE_SIZE at *
    push_cast at known
    omega

/-- The log takes the record of the link and no other: the chain is torn. -/
def Tears (logs : Bool) (mgr : TransactionManager) (pages : List ℕ) (encoded : Bytes) : Prop :=
  Spills mgr pages encoded ∧ CanLink logs mgr ∧ logs = true ∧ mgr.wal.nextLsn + 1 = 2 ^ 64

/-- The record needs a page for itself and its own slot lies over its end. -/
def Overlaps (logs : Bool) (mgr : TransactionManager) (pages : List ℕ) (encoded : Bytes) : Prop :=
  Spills mgr pages encoded ∧ CanLink logs mgr ∧ (logs = true → mgr.wal.nextLsn + 2 < 2 ^ 64) ∧
    DATA_START + encoded.length ≤ PAGE_SIZE ∧ PAGE_SIZE < DATA_START + encoded.length + SLOT_SIZE

def LeavesTrace (logs : Bool) (mgr : TransactionManager) (pages : List ℕ) (encoded : Bytes) : Prop :=
  Tears logs mgr pages encoded ∨ Overlaps logs mgr pages encoded

theorem HasRoom.takes (room : HasRoom page encoded) :
    ∃ takes : Takes page encoded, Slotted page → 0 ≤ freeBytes (placed page encoded takes.1) := by
  rw [HasRoom, freeBytes, slotsStart] at room
  have takes : Takes page encoded := by
    unfold Takes
    unfold SLOT_SIZE PAGE_SIZE at *
    push_cast at room
    omega
  refine ⟨takes, fun slotted => ?_⟩
  obtain ⟨-, slots, data⟩ := takes.placed_fields slotted
  rw [freeBytes, slots, data, slotsStart]
  unfold SLOT_SIZE PAGE_SIZE at *
  push_cast at *
  omega

/-- An insert that returned: onto the first page with room, or onto a page linked for it. -/
inductive InsertReturns (logs : Bool) (heads : List ℕ) (mgr : TransactionManager) (lay : Layout) (head : ℕ)
    (encoded : Bytes) : Rid → TransactionManager → Layout → Prop
  | stays {pid : ℕ} (takes : Takes (mgr.pager.file pid) encoded) (reaches : Reaches mgr (lay.chain head) encoded pid)
      (room : HasRoom (mgr.pager.file pid) encoded)
      (can : CanWrite logs mgr pid (placed (mgr.pager.file pid) encoded takes.1)) :
      InsertReturns logs heads mgr lay head encoded ⟨pid, slotCount (mgr.pager.file pid)⟩
        (wroteBy logs mgr pid (placed (mgr.pager.file pid) encoded takes.1)) lay
  | spills {new : ℕ} {mgr₁ : TransactionManager} {lay₁ : Layout} (takes : Takes (mgr₁.pager.file new) encoded)
      (spills : Spills mgr (lay.chain head) encoded) (spilled : Spilled logs heads mgr lay head new mgr₁ lay₁)
      (small : encoded.length ≤ 4078) (can : CanWrite logs mgr₁ new (placed (mgr₁.pager.file new) encoded takes.1)) :
      InsertReturns logs heads mgr lay head encoded ⟨new, slotCount (mgr₁.pager.file new)⟩
        (wroteBy logs mgr₁ new (placed (mgr₁.pager.file new) encoded takes.1)) lay₁

/-- An insert that raised, by how far it got. -/
inductive InsertRaises (logs : Bool) (heads : List ℕ) (mgr : TransactionManager) (lay : Layout) (head : ℕ)
    (encoded : Bytes) : Exc → TransactionManager → Prop
  | blocked {pid : ℕ} (reaches : Reaches mgr (lay.chain head) encoded pid)
      (beyond : freeBytes (mgr.pager.file pid) < 0) :
      InsertRaises logs heads mgr lay head encoded (overfull (mgr.pager.file pid)) mgr
  | unlogged {pid : ℕ} (takes : Takes (mgr.pager.file pid) encoded)
      (reaches : Reaches mgr (lay.chain head) encoded pid) (room : HasRoom (mgr.pager.file pid) encoded)
      (cannot : ¬ CanWrite logs mgr pid (placed (mgr.pager.file pid) encoded takes.1)) :
      InsertRaises logs heads mgr lay head encoded .packRange mgr
  | unlinked {e : Exc} {mgr' : TransactionManager} (spills : Spills mgr (lay.chain head) encoded)
      (unlinked : Unlinked logs heads mgr lay e mgr') : InsertRaises logs heads mgr lay head encoded e mgr'
  | torn {e : Exc} {mgr' : TransactionManager} (spills : Spills mgr (lay.chain head) encoded)
      (torn : Torn logs mgr mgr') : InsertRaises logs heads mgr lay head encoded e mgr'
  | unplaced {new : ℕ} {mgr₁ : TransactionManager} {lay₁ : Layout} (takes : Takes (mgr₁.pager.file new) encoded)
      (spills : Spills mgr (lay.chain head) encoded) (spilled : Spilled logs heads mgr lay head new mgr₁ lay₁)
      (cannot : ¬ CanWrite logs mgr₁ new (placed (mgr₁.pager.file new) encoded takes.1)) :
      InsertRaises logs heads mgr lay head encoded .packRange mgr₁
  | oversize {e : Exc} {new : ℕ} {mgr₁ : TransactionManager} {lay₁ : Layout}
      (spills : Spills mgr (lay.chain head) encoded) (spilled : Spilled logs heads mgr lay head new mgr₁ lay₁)
      (large : 4084 < encoded.length) : InsertRaises logs heads mgr lay head encoded e mgr₁
  | overlaps {e : Exc} {new : ℕ} {mgr₁ : TransactionManager} {lay₁ : Layout}
      (takes : Takes (mgr₁.pager.file new) encoded) (spills : Spills mgr (lay.chain head) encoded)
      (spilled : Spilled logs heads mgr lay head new mgr₁ lay₁) (band : 4078 < encoded.length ∧ encoded.length ≤ 4084)
      (can : CanWrite logs mgr₁ new (placed (mgr₁.pager.file new) encoded takes.1)) :
      InsertRaises logs heads mgr lay head encoded e
        (wroteBy logs mgr₁ new (placed (mgr₁.pager.file new) encoded takes.1))

theorem Spilled.freeBytes_placed (spilled : Spilled logs heads mgr lay head new mgr₁ lay₁) (member : head ∈ heads)
    (takes : Takes (mgr₁.pager.file new) encoded) :
    freeBytes (placed (mgr₁.pager.file new) encoded takes.1) = 4078 - encoded.length := by
  obtain ⟨-, slots, data⟩ := emptyPage_fields
  obtain ⟨-, slots', data'⟩ := takes.placed_fields (spilled.laid.slotted head member new spilled.linked)
  rw [freeBytes, slots', data', slotsStart, spilled.empty, slots, data]
  unfold DATA_START HEADER_SIZE SLOT_SIZE PAGE_SIZE
  push_cast
  omega

section

variable (laid : Laid heads mgr.pager lay) (member : head ∈ heads)
include laid member

theorem wp_insert_cases :
    (insert logs head encoded).wp (fun rid mgr' => ∃ lay', InsertReturns logs heads mgr lay head encoded rid mgr' lay')
      (fun e mgr' => InsertRaises logs heads mgr lay head encoded e mgr') mgr := by
  rw [insert, wp_bind, wp_read, wp_bind]
  have split : lay.chain head = [] ++ lay.chain head := rfl
  have before : Spills mgr [] encoded := fun _ none => by simp at none
  refine (wp_findRoom laid member split (laid.chain head member) (laid.nonempty head member)
    (Nat.lt_succ_of_le (laid.chain_length member)) before).mono ?_ ?_
  · rintro pid mgr' (⟨rfl, reaches, room⟩ | ⟨spills, lay', spilled⟩)
    · have here := reaches.mem
      have slotted := laid.slotted head member pid here
      obtain ⟨takes, known⟩ := room.takes
      rw [wp_placeRecord (laid.nonzero member here) (laid.inside head member pid here).2 slotted takes]
      exact ⟨fun can => ⟨fun beyond => absurd (known slotted) (Int.not_le.mpr beyond), fun _ =>
        ⟨lay, .stays takes reaches room can⟩⟩, fun cannot => .unlogged takes reaches room cannot⟩
    · have laid' := spilled.laid
      have slotted := laid'.slotted head member pid spilled.linked
      have inside := (laid'.inside head member pid spilled.linked).2
      obtain ⟨-, slots, data⟩ := emptyPage_fields
      by_cases small : DATA_START + encoded.length ≤ PAGE_SIZE
      · have takes : Takes (mgr'.pager.file pid) encoded := by
          rw [Takes, spilled.empty, slots, data]
          exact ⟨small, .inr rfl⟩
        rw [wp_placeRecord (laid'.nonzero member spilled.linked) inside slotted takes,
          spilled.freeBytes_placed member takes]
        unfold DATA_START HEADER_SIZE PAGE_SIZE at small
        refine ⟨fun can => ⟨fun beyond => ?_, fun known => ?_⟩, fun cannot => .unplaced takes spills spilled cannot⟩
        · exact .overlaps takes spills spilled (by omega) can
        · exact ⟨lay', .spills takes spills spilled (by omega) can⟩
      · refine (wp_placeRecord_oversize inside ?_ slotted).mono (fun _ _ never => never) ?_
        · rw [spilled.empty, data]
          omega
        · rintro e _ rfl
          unfold DATA_START HEADER_SIZE PAGE_SIZE at small
          exact .oversize spills spilled (by omega)
  · rintro e mgr' (⟨rfl, pid, reaches, beyond, rfl⟩ | ⟨spills, unlinked⟩ | ⟨spills, torn⟩)
    · exact .blocked reaches beyond
    · exact .unlinked spills unlinked
    · exact .torn spills torn

theorem returns_insert_of_room
    (reaches : Reaches mgr (lay.chain head) encoded pid) (room : HasRoom (mgr.pager.file pid) encoded)
    (can : ∀ page, CanWrite logs mgr pid page) : ∃ rid mgr', (insert logs head encoded).Returns mgr rid mgr' := by
  rcases returns_or_raises (insert logs head encoded) mgr with returned | ⟨e, mgr', raised⟩
  · exact returned
  have unspilled := reaches.not_spills room.not_full
  have ends := (wp_insert_cases laid member).raises raised
  cases ends with
  | blocked reaches' beyond => exact (reaches.not_over room reaches' beyond).elim
  | unlogged takes reaches' room' cannot =>
    obtain rfl := reaches.unique reaches' room.not_full room'.not_full
    exact (cannot (can _)).elim
  | unlinked spills | torn spills | unplaced takes spills | oversize spills => exact (unspilled spills).elim
  | overlaps takes spills => exact (unspilled spills).elim

theorem InsertReturns.inserted {rid : Rid}
    (ends : InsertReturns logs heads mgr lay head encoded rid mgr' lay') (nonempty : encoded ≠ []) :
    Inserted logs heads mgr lay head rid encoded mgr' lay' := by
  cases ends with
  | stays takes reaches room can =>
    obtain ⟨_, known⟩ := room.takes
    obtain ⟨record, inserted, same⟩ := inserted_wrote laid member reaches.mem takes nonempty can
    rwa [same (known (laid.slotted head member _ reaches.mem))] at inserted
  | spills takes spills spilled small can =>
    obtain ⟨record, inserted, same⟩ := inserted_wrote spilled.laid member spilled.linked takes nonempty can
    rw [spilled.freeBytes_placed member takes] at same
    have whole := spilled.toKept.inserted inserted
    rwa [same (by omega)] at whole

theorem wp_insert (nonempty : encoded ≠ []) :
    (insert logs head encoded).wp (fun rid mgr' => ∃ lay', Inserted logs heads mgr lay head rid encoded mgr' lay')
      (fun _ mgr' =>
        (¬ LeavesTrace logs mgr (lay.chain head) encoded ∧ ∃ lay', Kept logs heads mgr lay head mgr' lay') ∨
        (Tears logs mgr (lay.chain head) encoded ∧ Torn logs mgr mgr') ∨ (Overlaps logs mgr (lay.chain head) encoded ∧
          ∃ lay' rid record, Inserted logs heads mgr lay head rid record mgr' lay')) mgr := by
  refine (wp_insert_cases laid member).mono
    (fun rid mgr' ⟨lay', ends⟩ => ⟨lay', ends.inserted laid member nonempty⟩) fun e mgr' ends => ?_
  have traceSpills (trace : LeavesTrace logs mgr (lay.chain head) encoded) :
      Spills mgr (lay.chain head) encoded ∧ CanLink logs mgr :=
    trace.elim (fun tears => ⟨tears.1, tears.2.1⟩) fun overlaps => ⟨overlaps.1, overlaps.2.1⟩
  have noTears {new : ℕ} {mgr₁ : TransactionManager} {lay₁ : Layout}
      (spilled : Spilled logs heads mgr lay head new mgr₁ lay₁) : ¬ Tears logs mgr (lay.chain head) encoded :=
    fun tears => (spilled.room tears.2.2.1).ne tears.2.2.2
  cases ends with
  | blocked reaches beyond =>
    exact .inl ⟨fun trace => reaches.not_spills (not_full_of_over beyond) (traceSpills trace).1, lay, .refl laid⟩
  | unlogged _ reaches room =>
    exact .inl ⟨fun trace => reaches.not_spills room.not_full (traceSpills trace).1, lay, .refl laid⟩
  | unlinked spills unlinked =>
    exact .inl ⟨fun trace => unlinked.cannot (traceSpills trace).2, unlinked.kept laid member⟩
  | torn spills torn => exact .inr (.inl ⟨⟨spills, torn.can, torn.logging, torn.full⟩, torn⟩)
  | unplaced takes spills spilled cannot =>
    refine .inl ⟨?_, _, spilled.toKept⟩
    rintro (tears | ⟨-, -, third, -, -⟩)
    · exact noTears spilled tears
    · refine cannot (canWrite_iff.mpr fun isLogging => ⟨?_, spilled.tx ▸ (spilled.can.2 isLogging).2, spilled.u32⟩)
      rw [Roomy, spilled.lsn, if_pos isLogging]
      exact third isLogging
  | oversize spills spilled large =>
    refine .inl ⟨?_, _, spilled.toKept⟩
    rintro (tears | ⟨-, -, -, fits, -⟩)
    · exact noTears spilled tears
    · unfold DATA_START HEADER_SIZE PAGE_SIZE at fits
      omega
  | overlaps takes spills spilled band can =>
    have third : logs = true → mgr.wal.nextLsn + 2 < 2 ^ 64 := fun isLogging => by
      have := (canWrite_iff.mp can isLogging).1
      rwa [Roomy, spilled.lsn, if_pos isLogging] at this
    obtain ⟨record, inserted, -⟩ := inserted_wrote spilled.laid member spilled.linked takes nonempty can
    refine .inr (.inr ⟨⟨spills, spilled.can, third, ?_, ?_⟩, _, _, record, spilled.toKept.inserted inserted⟩)
    · unfold DATA_START HEADER_SIZE PAGE_SIZE
      omega
    · unfold DATA_START HEADER_SIZE SLOT_SIZE PAGE_SIZE
      omega

end

end Tinydb.Storage.Heap
