import Tinydb.Storage.HeapPage

/-! Chains of pages and how the pages of a file are divided among them.

Every heap owns the pages of its chain, the pager owns those of the free list, and
no page has two owners. A page of the free list is linked like a page of a heap:
its first four bytes are the number of the next.
-/

namespace Tinydb.Storage.Heap

open Lib Program Tx TransactionManager List Pager

/-- The pages from `pid` on, following the links to the end. -/
def Chain (file : ℕ → Page) : ℕ → List ℕ → Prop
  | pid, [] => pid = NO_NEXT
  | pid, here :: rest => pid = here ∧ here ≠ NO_NEXT ∧ Chain file (nextPid (file here)) rest

variable {file file' : ℕ → Page} {pid : ℕ} {pages : List ℕ}

theorem Chain.congr (chain : Chain file pid pages) (same : ∀ q ∈ pages, nextPid (file' q) = nextPid (file q)) :
    Chain file' pid pages := by
  induction pages generalizing pid with
  | nil => exact chain
  | cons here rest ih =>
    obtain ⟨first, real, later⟩ := chain
    refine ⟨first, real, ?_⟩
    rw [same here (by simp)]
    exact ih later fun q member => same q (mem_cons_of_mem _ member)

theorem Chain.unique {pages' : List ℕ} (chain : Chain file pid pages) (other : Chain file pid pages') :
    pages = pages' := by
  induction pages generalizing pid pages' with
  | nil =>
    cases pages' with
    | nil => rfl
    | cons here rest =>
      obtain ⟨first, real, -⟩ := other
      exact (real (first.symm.trans chain)).elim
  | cons here rest ih =>
    obtain ⟨rfl, real, later⟩ := chain
    cases pages' with
    | nil => exact (real other).elim
    | cons here' rest' =>
      obtain ⟨rfl, -, later'⟩ := other
      rw [ih later later']

theorem Chain.extend {front : List ℕ} {tail new : ℕ} (chain : Chain file pid (front ++ [tail])) (real : new ≠ NO_NEXT)
    (same : ∀ q ∈ front, nextPid (file' q) = nextPid (file q)) (link : nextPid (file' tail) = new)
    (ends : nextPid (file' new) = NO_NEXT) : Chain file' pid (front ++ [tail, new]) := by
  induction front generalizing pid with
  | nil =>
    obtain ⟨first, tailReal, -⟩ := chain
    exact ⟨first, tailReal, link, real, ends⟩
  | cons here rest ih =>
    obtain ⟨first, hereReal, later⟩ := chain
    refine ⟨first, hereReal, ?_⟩
    rw [same here (by simp)]
    exact ih later fun q member => same q (mem_cons_of_mem _ member)

structure Layout where
  chain : ℕ → List ℕ
  free : List ℕ

/-- The heaps at `heads` and the free list divide pages of the file among them. -/
structure Laid (heads : List ℕ) (pg : Pager) (lay : Layout) : Prop where
  chain : ∀ head ∈ heads, Chain pg.file head (lay.chain head)
  free : Chain pg.file pg.freeHead lay.free
  nonempty : ∀ head ∈ heads, lay.chain head ≠ []
  distinct : ∀ head ∈ heads, (lay.chain head).Nodup
  freeDistinct : lay.free.Nodup
  apart : ∀ head ∈ heads, ∀ other ∈ heads, ∀ pid ∈ lay.chain head, pid ∈ lay.chain other → head = other
  notFree : ∀ head ∈ heads, ∀ pid ∈ lay.chain head, pid ∉ lay.free
  inside : ∀ head ∈ heads, ∀ pid ∈ lay.chain head, RESERVED_PAGES ≤ pid ∧ pid < pg.numPages
  freeInside : ∀ pid ∈ lay.free, RESERVED_PAGES ≤ pid ∧ pid < pg.numPages
  slotted : ∀ head ∈ heads, ∀ pid ∈ lay.chain head, Slotted (pg.file pid)
  reserved : RESERVED_PAGES ≤ pg.numPages
  magic : slice (pg.file 0).bytes 0 8 = MAGIC

def rowsOf (file : ℕ → Page) (pages : List ℕ) : List (Rid × Bytes) := pages.flatMap fun pid => recordsOn pid (file pid)

theorem rowsOf_congr (same : ∀ pid ∈ pages, file' pid = file pid) :
    rowsOf file' pages = rowsOf file pages := flatMap_congr fun pid member => by rw [same pid member]

theorem mem_rowsOf {rid : Rid} {record : Bytes} :
    (rid, record) ∈ rowsOf file pages ↔ rid.pageId ∈ pages ∧ rid.slotId < slotCount (file rid.pageId) ∧
      recordAt (file rid.pageId) rid.slotId = some record := by
  simp only [rowsOf, mem_flatMap, mem_recordsOn]
  constructor
  · rintro ⟨pid, member, rfl, inside, found⟩
    exact ⟨member, inside, found⟩
  · rintro ⟨member, inside, found⟩
    exact ⟨rid.pageId, member, rfl, inside, found⟩

/-- Pages were taken from outside the heaps; `lay'` is how the file is divided afterwards. -/
structure Took (heads : List ℕ) (pg : Pager) (lay : Layout) (pg' : Pager) (lay' : Layout) : Prop where
  laid : Laid heads pg' lay'
  chain : lay'.chain = lay.chain
  free : lay'.free <:+ lay.free
  grows : pg.numPages ≤ pg'.numPages
  same : ∀ q, q ≠ 0 → q < pg.numPages → q ∉ lay.free → pg'.file q = pg.file q

variable {heads : List ℕ} {pg pg' : Pager} {lay : Layout} {E : Exc → Pager → Prop} {Q : Unit → Pager → Prop}

theorem Laid.nonzero (laid : Laid heads pg lay) {head pid : ℕ} (member : head ∈ heads) (here : pid ∈ lay.chain head) :
    pid ≠ 0 := by
  have := (laid.inside head member pid here).1
  unfold RESERVED_PAGES at this
  omega

theorem Laid.took (laid : Laid heads pg lay) (pg' : Pager) {free : List ℕ} (suffix : free <:+ lay.free)
    (chain : Chain pg'.file pg'.freeHead free) (grows : pg.numPages ≤ pg'.numPages)
    (magic : slice (pg'.file 0).bytes 0 8 = MAGIC)
    (same : ∀ q, q ≠ 0 → q < pg.numPages → q ∉ lay.free → pg'.file q = pg.file q) :
    Took heads pg lay pg' { lay with free } := by
  have kept : ∀ head ∈ heads, ∀ pid ∈ lay.chain head, pg'.file pid = pg.file pid := fun head member pid here =>
    same pid (laid.nonzero member here) (laid.inside head member pid here).2 (laid.notFree head member pid here)
  refine ⟨⟨fun head member => ?_, chain, laid.nonempty, laid.distinct, laid.freeDistinct.sublist suffix.sublist,
    laid.apart, fun head member pid here => ?_, fun head member pid here => ?_, fun pid here => ?_,
    fun head member pid here => ?_, laid.reserved.trans grows, magic⟩, rfl, suffix, grows, same⟩
  · exact (laid.chain head member).congr fun q here => by rw [kept head member q here]
  · exact fun free => laid.notFree head member pid here (suffix.subset free)
  · have := laid.inside head member pid here
    exact ⟨this.1, this.2.trans_le grows⟩
  · have := laid.freeInside pid (suffix.subset here)
    exact ⟨this.1, this.2.trans_le grows⟩
  · show Slotted (pg'.file pid)
    rw [kept head member pid here]
    exact laid.slotted head member pid here

theorem Took.trans {pg'' : Pager} {lay' lay'' : Layout} (first : Took heads pg lay pg' lay')
    (second : Took heads pg' lay' pg'' lay'') : Took heads pg lay pg'' lay'' :=
  ⟨second.laid, second.chain.trans first.chain, second.free.trans first.free, first.grows.trans second.grows,
    fun q nonzero inside outside => (second.same q nonzero (inside.trans_le first.grows) fun free =>
      outside (first.free.subset free)).trans (first.same q nonzero inside outside)⟩

theorem Took.chain_same {lay' : Layout} (took : Took heads pg lay pg' lay') (laid : Laid heads pg lay) {head : ℕ}
    (member : head ∈ heads) : ∀ pid ∈ lay.chain head, pg'.file pid = pg.file pid := fun pid here =>
  took.same pid (laid.nonzero member here) (laid.inside head member pid here).2 (laid.notFree head member pid here)

theorem Took.rowsOf {lay' : Layout} (took : Took heads pg lay pg' lay') (laid : Laid heads pg lay) {head : ℕ}
    (member : head ∈ heads) : rowsOf pg'.file (lay'.chain head) = Heap.rowsOf pg.file (lay.chain head) := by
  rw [took.chain]
  exact rowsOf_congr (took.chain_same laid member)

theorem wp_writeHeader :
    Pager.writeHeader.wp Q E pg ↔ (pg.HeaderFits → Q () pg.headed) ∧ (¬ pg.HeaderFits → E .packRange pg) := by
  by_cases fits : pg.HeaderFits <;>
    simp [Pager.writeHeader, protectHeader, writeAt, fits, Pager.headed]

theorem wp_extendTo {n : ℕ} (grows : pg.numPages < n) :
    (extendTo n).wp Q E pg ↔ (Pager.HeaderFits { pg with numPages := n } → Q () (pg.extended n)) ∧
      (¬ Pager.HeaderFits { pg with numPages := n } → E .packRange { pg.zeroed n with numPages := n }) := by
  rw [extendTo, wp_bind, wp_read, if_neg (Nat.not_le.mpr grows)]
  exact wp_writeHeader

theorem magic_headed (pg : Pager) : slice (pg.headed.file 0).bytes 0 8 = MAGIC := by
  rw [Pager.headed, put_file_same]
  have front : slice (pg.stamp (pg.file 0)).bytes 0 8 = slice pg.headerBytes 0 8 :=
    slice_splice_within _ _ _ _ _ (Nat.zero_le _) (Nat.zero_le _) (by rw [headerBytes_length]; decide)
  rw [front]
  simp only [headerBytes, append_assoc]
  exact slice_front rfl

def CanAllocate (pg : Pager) : Prop :=
  if pg.freeHead = NO_FREE then Pager.HeaderFits { pg with numPages := pg.numPages + 1 }
  else Pager.HeaderFits { pg with freeHead := nextPid (pg.file pg.freeHead) }

/-- A page no heap has, all zero and linkable. -/
structure Fresh (heads : List ℕ) (lay : Layout) (pg : Pager) (pid : ℕ) : Prop where
  reserved : RESERVED_PAGES ≤ pid
  inside : pid < pg.numPages
  real : pid ≠ NO_NEXT
  u32 : U32 pid
  owned : ∀ head ∈ heads, pid ∉ lay.chain head
  notFree : pid ∉ lay.free
  zero : pg.file pid = zeroPage

theorem not_canAllocate_of_numPages (large : ¬ U32 pg.numPages) : ¬ CanAllocate pg := by
  unfold U32 at large
  rw [CanAllocate]
  split
  · rintro ⟨count, -⟩
    simp only [U32] at count
    omega
  · exact fun fits => large fits.1

theorem not_canAllocate_of_lastLsn (large : ¬ U32 pg.lastLsn) : ¬ CanAllocate pg := by
  rw [CanAllocate]
  split <;> exact fun fits => large fits.2.2

theorem laid_initNew : Laid [] initNew ⟨fun _ => [], []⟩ := by
  refine ⟨by simp, rfl, by simp, by simp, nodup_nil, by simp, by simp, by simp, by simp, by simp, le_refl _, ?_⟩
  have front : slice (initNew.file 0).bytes 0 8 = slice initNew.headerBytes 0 8 :=
    slice_splice_within _ _ _ _ _ (Nat.zero_le _) (Nat.zero_le _) (by rw [headerBytes_length]; decide)
  rw [front]
  simp only [headerBytes, append_assoc]
  exact slice_front rfl

theorem laid_put (laid : Laid [] pg lay) (nonzero : pid ≠ 0) (notFree : pid ∉ lay.free) (page : Page) :
    Laid [] (pg.put pid page) lay := by
  have chain : Chain (pg.put pid page).file pg.freeHead lay.free := by
    refine laid.free.congr fun q free => ?_
    rw [Pager.put_file_other _ _ fun same : q = pid => notFree (same ▸ free)]
  have magic : slice ((pg.put pid page).file 0).bytes 0 8 = MAGIC := by
    rw [Pager.put_file_other _ _ nonzero.symm]
    exact laid.magic
  exact ⟨by simp, chain, by simp, by simp, laid.freeDistinct, by simp, by simp, by simp,
    laid.freeInside, by simp, laid.reserved, magic⟩

/-- Allocation takes a page from the free list or behind the last one. If the header cannot be written the
page is lost, and no later header can be. -/
theorem wp_allocatePage (laid : Laid heads pg lay) : allocatePage.wp
      (fun pid pg' => CanAllocate pg ∧ ∃ lay', Took heads pg lay pg' lay' ∧ Fresh heads lay' pg' pid ∧
        (pid ∈ lay.free ∨ pg.numPages ≤ pid) ∧ pg'.HeaderFits)
      (fun e pg' => e = .packRange ∧ ¬ CanAllocate pg ∧ ¬ CanAllocate pg' ∧ ∃ lay', Took heads pg lay pg' lay') pg := by
  rw [allocatePage, wp_bind, wp_read]
  by_cases none : pg.freeHead = NO_FREE
  · have empty : lay.free = [] := laid.free.unique none
    have chain (pg' : Pager) (same : pg'.freeHead = pg.freeHead) : Chain pg'.file pg'.freeHead lay.free := by
      rw [empty]
      exact same.trans none
    have zeroed (q : ℕ) (inside : q < pg.numPages) : (pg.zeroed (pg.numPages + 1)).file q = pg.file q :=
      if_neg (by omega)
    simp only [none, ne_eq, not_true_eq_false, if_false]
    rw [wp_bind, wp_extendTo (Nat.lt_succ_self _)]
    have can : CanAllocate pg ↔ Pager.HeaderFits { pg with numPages := pg.numPages + 1 } := by
      rw [CanAllocate, if_pos none]
    refine ⟨fun fits => ⟨can.mpr fits, ?_⟩, fun large => ⟨rfl, fun fits => large (can.mp fits), ?_, ?_⟩⟩
    · have took := laid.took (pg.extended (pg.numPages + 1)) suffix_rfl (chain _ rfl) (Nat.le_succ _)
        (magic_headed _) fun q nonzero inside _ => (Pager.put_file_other _ _ nonzero).trans (zeroed q inside)
      have small : pg.numPages + 1 < 2 ^ 32 := fits.1
      have reserved := laid.reserved
      refine ⟨_, took, ⟨reserved, Nat.lt_succ_self _, ?_, ?_, ?_, ?_, ?_⟩, .inr (le_refl _), fits⟩
      · unfold NO_NEXT
        omega
      · unfold U32
        omega
      · exact fun head member here => (laid.inside head member _ here).2.ne rfl
      · exact fun here => (laid.freeInside _ here).2.ne rfl
      · unfold RESERVED_PAGES at reserved
        refine (Pager.put_file_other _ _ (by omega)).trans (if_pos ⟨le_refl _, Nat.lt_succ_self _⟩)
    · by_cases lsn : U32 pg.lastLsn
      · refine not_canAllocate_of_numPages fun count => large ⟨count, ?_, lsn⟩
        rw [none]
        decide
      · exact not_canAllocate_of_lastLsn lsn
    · have magic : slice ((pg.zeroed (pg.numPages + 1)).file 0).bytes 0 8 = MAGIC := by
        rw [zeroed 0 (lt_of_lt_of_le (by decide) laid.reserved)]
        exact laid.magic
      exact ⟨_, laid.took { pg.zeroed (pg.numPages + 1) with numPages := pg.numPages + 1 } suffix_rfl
        (chain _ rfl) (Nat.le_succ _) magic fun q _ inside _ => zeroed q inside⟩
  · obtain ⟨free, rest, same⟩ : ∃ pid rest, lay.free = pid :: rest := by
      cases free : lay.free with
      | nil =>
        have chain := laid.free
        rw [free] at chain
        exact (none chain).elim
      | cons pid rest => exact ⟨pid, rest, rfl⟩
    have chain := laid.free
    have distinct := laid.freeDistinct
    rw [same] at chain distinct
    obtain ⟨first, real, later⟩ := chain
    have bounds := laid.freeInside free (by rw [same]; simp)
    have nonzero : free ≠ 0 := by
      have := bounds.1
      unfold RESERVED_PAGES at this
      omega
    have suffix : rest <:+ lay.free := by
      rw [same]
      exact suffix_cons _ _
    rw [if_pos none, first]
    simp only [wp_bind, wp_modify, writeAt, wp_mark, wp_writeHeader, wp_pure]
    -- the rest of the list keeps its links; only the page taken and the header are written
    have took (pg' : Pager) (head : pg'.freeHead = nextPid (pg.file free)) (count : pg'.numPages = pg.numPages)
        (magic : slice (pg'.file 0).bytes 0 8 = MAGIC) (other : ∀ q, q ≠ 0 → q ≠ free → pg'.file q = pg.file q) :
        Took heads pg lay pg' { lay with free := rest } := by
      refine laid.took pg' suffix ?_ count.ge magic fun q nonzero' inside outside => other q nonzero' ?_
      · rw [head]
        refine later.congr fun q member => congrArg nextPid (other q ?_ ?_)
        · have := (laid.freeInside q (suffix.subset member)).1
          unfold RESERVED_PAGES at this
          omega
        · rintro rfl
          exact (nodup_cons.mp distinct).1 member
      · rintro rfl
        exact outside (by rw [same]; simp)
    have can : CanAllocate pg ↔ Pager.HeaderFits { pg with freeHead := nextPid (pg.file free) } := by
      rw [CanAllocate, if_neg none, first]
    refine ⟨fun fits => ⟨can.mpr fits, ?_⟩, fun large => ⟨trivial, fun fits => large (can.mp fits), ?_, ?_⟩⟩
    · refine ⟨_, took _ rfl rfl (magic_headed _) fun q nonzero' other => ?_,
        ⟨bounds.1, bounds.2, real, ?_, ?_, ?_, ?_⟩, ?_, fits⟩
      · exact (Pager.put_file_other _ _ nonzero').trans (Pager.put_file_other _ _ other)
      · exact bounds.2.trans fits.1
      · exact fun head member here => laid.notFree head member free here (by rw [same]; simp)
      · exact (nodup_cons.mp distinct).1
      · exact (Pager.put_file_other _ _ nonzero).trans (put_file_same _ _ _)
      · exact .inl (by rw [same]; simp)
    · by_cases lsn : U32 pg.lastLsn
      · exact not_canAllocate_of_numPages fun count => large ⟨count, nextPid_u32 _, lsn⟩
      · exact not_canAllocate_of_lastLsn lsn
    · refine ⟨_, took _ rfl rfl ?_ fun q _ other => Pager.put_file_other _ _ other⟩
      rw [Pager.put_file_other _ _ nonzero.symm]
      exact laid.magic

end Tinydb.Storage.Heap
