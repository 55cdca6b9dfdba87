import Tinydb.Storage.HeapMap

/-! What an insert that a heap does not take leaves behind.

A heap refuses a record cleanly if it then looks and behaves as it did before. It
does so when the walk along the chain meets a page whose records already run into
its slots, or when the file cannot grow. A record too long for a page is refused
only after a page was linked for it, and one that an empty page holds without its
slot is stored all the same: no insert gets past that page again.
-/

namespace Tinydb.Storage.Heap

open Lib Program Tx TransactionManager List Pager

/-- The callback, if there is one, still takes `n` log records. -/
def LogRoom (logs : Bool) (n : ℕ) (mgr : TransactionManager) : Prop :=
  logs = true → mgr.wal.nextLsn + n ≤ 2 ^ 64 ∧ mgr.currentTxId < 2 ^ 64

/-- States that further records of at most 4078 bytes lead to, each of them accepted. -/
inductive Grown (logs : Bool) (head : ℕ) (mgr : TransactionManager) : TransactionManager → Prop
  | refl : Grown logs head mgr mgr
  | insert {mgr' mgr'' : TransactionManager} {record : Bytes} {rid : Rid} (grown : Grown logs head mgr mgr')
      (sized : record.length ≤ 4078) (returned : (Heap.insert logs head record).Returns mgr' rid mgr'') :
      Grown logs head mgr mgr''

/-- Further records of at most 4078 bytes are refused only if the file cannot grow. -/
def Accepts (logs : Bool) (head : ℕ) (mgr : TransactionManager) : Prop :=
  ∀ mgr', Grown logs head mgr mgr' → LogRoom logs 3 mgr' → ∀ record : Bytes, record.length ≤ 4078 →
    ∀ e mgr'', (insert logs head record).Raises mgr' e mgr'' → e = .packRange ∧ ¬ CanAllocate mgr'.pager

/-- The heap has the pages and the records it had, and inserts end as they would have. -/
structure Unchanged (logs : Bool) (head : ℕ) (mgr mgr' : TransactionManager) : Prop where
  chain : ∀ pages, Chain mgr.pager.file head pages → Chain mgr'.pager.file head pages
  records : ∀ found, (liveRows head).Returns mgr found mgr → (liveRows head).Returns mgr' found mgr'
  later : ∀ record, (insert logs head record mgr').result = (insert logs head record mgr).result

def EndsCleanly (logs : Bool) (head : ℕ) (mgr : TransactionManager) (record : Bytes) : Prop :=
  (∃ rid mgr', (insert logs head record).Returns mgr rid mgr' ∧ (read rid).Returns mgr' (some record) mgr' ∧
    Accepts logs head mgr') ∨
  ∃ e mgr', (insert logs head record).Raises mgr e mgr' ∧ Unchanged logs head mgr mgr'

def Tidy (mgr : TransactionManager) (pages : List ℕ) : Prop := ∀ pid ∈ pages, 0 ≤ freeBytes (mgr.pager.file pid)

def Blocked (mgr : TransactionManager) (pages : List ℕ) (record : Bytes) : Prop :=
  ∃ pid, Reaches mgr pages record pid ∧ freeBytes (mgr.pager.file pid) < 0

variable {logs : Bool} {heads : List ℕ} {mgr mgr' : TransactionManager} {lay lay' : Layout} {head : ℕ} {record : Bytes}
  {pages : List ℕ} {n pid new : ℕ} {rid : Rid} {result : Except Exc Rid} {page : Page}

theorem walk_cases (mgr : TransactionManager) (pages : List ℕ) (record : Bytes) :
    Blocked mgr pages record ∨ (∃ pid, Reaches mgr pages record pid ∧ HasRoom (mgr.pager.file pid) record) ∨
      Spills mgr pages record := by
  induction pages with
  | nil => exact .inr (.inr fun _ none => by simp at none)
  | cons here rest ih =>
    have first : Reaches mgr (here :: rest) record here := ⟨[], rest, rfl, fun _ none => by simp at none⟩
    rcases Int.lt_or_le (freeBytes (mgr.pager.file here)) 0 with beyond | known
    · exact .inl ⟨here, first, beyond⟩
    rcases Int.lt_or_le (freeBytes (mgr.pager.file here)) ((SLOT_SIZE + record.length : ℕ) : ℤ) with full | room
    · have onward {pid : ℕ} (reaches : Reaches mgr rest record pid) : Reaches mgr (here :: rest) record pid := by
        obtain ⟨front, back, rfl, spills⟩ := reaches
        exact ⟨here :: front, back, rfl, forall_mem_cons.mpr ⟨⟨known, full⟩, spills⟩⟩
      rcases ih with ⟨pid, reaches, beyond⟩ | ⟨pid, reaches, room⟩ | spills
      · exact .inl ⟨pid, onward reaches, beyond⟩
      · exact .inr (.inl ⟨pid, onward reaches, room⟩)
      · exact .inr (.inr (forall_mem_cons.mpr ⟨⟨known, full⟩, spills⟩))
    · exact .inr (.inl ⟨here, first, room⟩)

theorem Spills.tidy (spills : Spills mgr pages record) : Tidy mgr pages := fun pid here => (spills pid here).1

theorem Chain.u32 {file : ℕ → Page} (chain : Chain file head pages) (small : U32 head) : ∀ pid ∈ pages, U32 pid := by
  induction pages generalizing head with
  | nil => simp
  | cons here rest ih =>
    obtain ⟨rfl, -, later⟩ := chain
    exact forall_mem_cons.mpr ⟨small, ih later (nextPid_u32 _)⟩

theorem LogRoom.mono {m : ℕ} (room : LogRoom logs n mgr) (le : m ≤ n) : LogRoom logs m mgr := fun isLogging =>
  ⟨by have := (room isLogging).1; omega, (room isLogging).2⟩

theorem LogRoom.canWrite (room : LogRoom logs (n + 1) mgr) (small : U32 pid) (page : Page) :
    CanWrite logs mgr pid page :=
  canWrite_iff.mpr fun isLogging => by
    have := room isLogging
    exact ⟨by unfold Roomy; omega, this.2, small⟩

theorem LogRoom.wroteBy (room : LogRoom logs (n + 1) mgr) (page : Page) :
    LogRoom logs n (wroteBy logs mgr pid page) := fun isLogging => by
  have := room isLogging
  rw [wroteBy_nextLsn, if_pos isLogging, wroteBy_currentTxId]
  exact ⟨by omega, this.2⟩

theorem LogRoom.not_torn (room : LogRoom logs 3 mgr) : ¬ Torn logs mgr mgr' := fun torn => by
  have := (room torn.logging).1
  have := torn.full
  omega

theorem LogRoom.canLink (room : LogRoom logs (n + 1) mgr) (can : CanAllocate mgr.pager) : CanLink logs mgr :=
  ⟨can, fun isLogging => by
    have := room isLogging
    exact ⟨by unfold Roomy; omega, this.2⟩⟩

theorem Spilled.canWrite (spilled : Spilled logs heads mgr lay head new mgr' lay')
    (room : LogRoom logs 3 mgr) (page : Page) : CanWrite logs mgr' new page := by
  refine LogRoom.canWrite (n := 0) (fun isLogging => ?_) spilled.u32 page
  have := room isLogging
  rw [spilled.lsn, if_pos isLogging, spilled.tx]
  exact ⟨by omega, this.2⟩

/-- The page the record went to, as it was before. -/
theorem InsertReturns.wrote (ends : InsertReturns logs heads mgr lay head record rid mgr' lay')
    (laid : Laid heads mgr.pager lay) :
    ∃ (mgr₁ : TransactionManager) (takes : Takes (mgr₁.pager.file rid.pageId) record),
      Laid heads mgr₁.pager lay' ∧ rid.pageId ∈ lay'.chain head ∧ rid.slotId = slotCount (mgr₁.pager.file rid.pageId) ∧
      mgr' = wroteBy logs mgr₁ rid.pageId (placed (mgr₁.pager.file rid.pageId) record takes.1) := by
  cases ends with
  | stays takes reaches room can => exact ⟨mgr, takes, laid, reaches.mem, rfl, rfl⟩
  | spills takes spills spilled small can => exact ⟨_, takes, spilled.laid, spilled.linked, rfl, rfl⟩

section

variable (ends : InsertReturns logs heads mgr lay head record rid mgr' lay') (laid : Laid heads mgr.pager lay)
  (member : head ∈ heads)
include ends laid member

theorem InsertReturns.keepsLaid : Laid heads mgr'.pager lay' := by
  obtain ⟨mgr₁, takes, laid₁, here, -, rfl⟩ := ends.wrote laid
  have slotted := laid₁.slotted head member _ here
  rw [wroteBy_pager]
  exact laid₁.put member here (takes.placed_fields slotted).1 (takes.slotted_placed slotted)

theorem InsertReturns.tidy (tidy : Tidy mgr (lay.chain head)) :
    Tidy mgr' (lay'.chain head) := by
  cases ends with
  | @stays page takes reaches room can =>
    obtain ⟨_, known⟩ := room.takes
    intro pid here
    rw [wroteBy_pager]
    by_cases same : pid = page
    · rw [same, put_file_same]
      exact known (laid.slotted head member _ reaches.mem)
    · rw [put_file_other _ _ same]
      exact tidy pid here
  | @spills new mgr₁ lay₁ takes spills spilled small can =>
    intro pid here
    rw [wroteBy_pager]
    by_cases same : pid = new
    · rw [same, put_file_same, spilled.freeBytes_placed member takes]
      omega
    · have old : pid ∈ lay.chain head := by simpa [spilled.chain, same] using here
      rw [put_file_other _ _ same, spilled.counts pid old]
      exact tidy pid old

theorem InsertReturns.read :
    (read rid).Returns mgr' (if record = [] then none else some record) mgr' := by
  have laid' := ends.keepsLaid laid member
  by_cases empty : record = []
  · have fresh : rid.pageId ∈ lay'.chain head ∧ rid.slotId < slotCount (mgr'.pager.file rid.pageId) ∧
        (slotAt (mgr'.pager.file rid.pageId) rid.slotId).length = 0 := by
      obtain ⟨mgr₁, takes, laid₁, here, slot, rfl⟩ := ends.wrote laid
      have slotted := laid₁.slotted head member _ here
      rw [wroteBy_pager, put_file_same, (takes.placed_fields slotted).2.1, slot, takes.slotAt_new slotted, empty]
      exact ⟨here, Nat.lt_succ_self _, rfl⟩
    have found := returns_read rid (laid'.inside head member _ fresh.1).2 (laid'.slotted head member _ fresh.1)
    rwa [if_pos fresh.2.1, recordAt, if_pos (.inr fresh.2.2), ← if_pos (t := none) (e := some record) empty] at found
  · have inserted := ends.inserted laid member empty
    have live : (rid, record) ∈ rows mgr' lay' head := inserted.rows.mem_iff.mpr (by simp)
    obtain ⟨here, inside, found⟩ := mem_rowsOf.mp live
    have read := returns_read rid (laid'.inside head member _ here).2 (laid'.slotted head member _ here)
    rwa [if_pos inside, found, ← if_neg (t := none) (e := some record) empty] at read

end

/-- How an insert ends that may not take a page. -/
inductive Confined (file : ℕ → Page) (mgr : TransactionManager) (pages : List ℕ) (record : Bytes) :
    Except Exc Rid → Prop
  | stays {pid : ℕ} (reaches : Reaches mgr pages record pid) (room : HasRoom (file pid) record) :
      Confined file mgr pages record (.ok ⟨pid, slotCount (file pid)⟩)
  | blocked {pid : ℕ} (reaches : Reaches mgr pages record pid) (beyond : freeBytes (file pid) < 0) :
      Confined file mgr pages record (.error (overfull (file pid)))
  | spills (spills : Spills mgr pages record) : Confined file mgr pages record (.error .packRange)

theorem Confined.unique {result' : Except Exc Rid} (ends : Confined mgr.pager.file mgr pages record result)
    (ends' : Confined mgr.pager.file mgr pages record result') : result = result' := by
  cases ends with
  | stays reaches room =>
    cases ends' with
    | stays reaches' room' => rw [reaches.unique reaches' room.not_full room'.not_full]
    | blocked reaches' beyond => exact (reaches.not_over room reaches' beyond).elim
    | spills spills => exact (reaches.not_spills room.not_full spills).elim
  | blocked reaches beyond =>
    cases ends' with
    | stays reaches' room => exact (reaches'.not_over room reaches beyond).elim
    | blocked reaches' over' => rw [reaches.unique reaches' (not_full_of_over beyond) (not_full_of_over over')]
    | spills spills => exact (reaches.not_spills (not_full_of_over beyond) spills).elim
  | spills spills =>
    cases ends' with
    | stays reaches room => exact (reaches.not_spills room.not_full spills).elim
    | blocked reaches beyond => exact (reaches.not_spills (not_full_of_over beyond) spills).elim
    | spills => rfl

theorem insert_returns_or_raises (logs : Bool) (laid : Laid heads mgr.pager lay) (member : head ∈ heads)
    (record : Bytes) :
    (∃ rid mgr' lay', (insert logs head record).Returns mgr rid mgr' ∧
      InsertReturns logs heads mgr lay head record rid mgr' lay') ∨
    ∃ e mgr', (insert logs head record).Raises mgr e mgr' ∧ InsertRaises logs heads mgr lay head record e mgr' := by
  rcases returns_or_raises (insert logs head record) mgr with ⟨rid, mgr', returned⟩ | ⟨e, mgr', raised⟩
  · obtain ⟨lay', ends⟩ := (wp_insert_cases laid member).returns returned
    exact .inl ⟨rid, mgr', lay', returned, ends⟩
  · exact .inr ⟨e, mgr', raised, (wp_insert_cases laid member).raises raised⟩

theorem confined_insert (laid : Laid heads mgr.pager lay) (member : head ∈ heads) (small : U32 head)
    (room : LogRoom logs 1 mgr) (cannot : ¬ CanAllocate mgr.pager) :
    Confined mgr.pager.file mgr (lay.chain head) record (insert logs head record mgr).result := by
  rcases insert_returns_or_raises logs laid member record
    with ⟨rid, mgr', lay', returned, ends⟩ | ⟨e, mgr', raised, ends⟩
  · rw [returned.1]
    cases ends with
    | stays takes reaches fits can => exact .stays reaches fits
    | spills takes spills spilled => exact (cannot spilled.can.1).elim
  · rw [raised.1]
    cases ends with
    | blocked reaches beyond => exact .blocked reaches beyond
    | unlogged takes reaches fits refused =>
      exact (refused (room.canWrite ((laid.chain head member).u32 small _ reaches.mem) _)).elim
    | unlinked spills unlinked =>
      rw [unlinked.range]
      exact .spills spills
    | torn spills torn => exact (cannot torn.can.1).elim
    | unplaced takes spills spilled | oversize spills spilled => exact (cannot spilled.can.1).elim
    | overlaps takes spills spilled => exact (cannot spilled.can.1).elim

theorem Confined.congr (ends : Confined mgr'.pager.file mgr' pages record result)
    (same : ∀ pid ∈ pages, mgr'.pager.file pid = mgr.pager.file pid) :
    Confined mgr.pager.file mgr pages record result := by
  have full {some : List ℕ} (sub : some ⊆ pages) (spills : Spills mgr' some record) : Spills mgr some record :=
    fun pid here => same pid (sub here) ▸ spills pid here
  have reach {pid : ℕ} (reaches : Reaches mgr' pages record pid) : Reaches mgr pages record pid := by
    obtain ⟨front, back, rfl, spills⟩ := reaches
    exact ⟨front, back, rfl, full (subset_append_left _ _) spills⟩
  cases ends with
  | stays reaches room =>
    rw [same _ reaches.mem] at room ⊢
    exact .stays (reach reaches) room
  | blocked reaches beyond =>
    rw [same _ reaches.mem] at beyond ⊢
    exact .blocked (reach reaches) beyond
  | spills spills => exact .spills (full (fun _ here => here) spills)

theorem Unlinked.unchanged {e : Exc} (unlinked : Unlinked logs heads mgr lay e mgr') (laid : Laid heads mgr.pager lay)
    (member : head ∈ heads) (small : U32 head) (room : LogRoom logs 1 mgr) (cannot : ¬ CanAllocate mgr.pager) :
    Unchanged logs head mgr mgr' := by
  obtain ⟨pager, lay', rfl, took, still⟩ := unlinked.took
  have same := took.chain_same laid member
  refine ⟨fun pages chain => ?_, fun found live => ?_, fun record => ?_⟩
  · obtain rfl := (laid.chain head member).unique chain
    exact chain.congr fun q here => by rw [same q here]
  · obtain ⟨rfl, -⟩ := (returns_liveRows laid member).unique live
    have rows := took.rowsOf laid member
    have live' : (liveRows head).Returns { mgr with pager } _ { mgr with pager } := returns_liveRows took.laid member
    rwa [rows] at live'
  · obtain ⟨mgr₁, same₁⟩ : ∃ mgr₁ : TransactionManager, mgr₁ = { mgr with pager } := ⟨_, rfl⟩
    obtain rfl : pager = mgr₁.pager := by rw [same₁]
    have room₁ : LogRoom logs 1 mgr₁ := by rw [same₁]; exact room
    have after : Confined mgr₁.pager.file mgr₁ (lay'.chain head) record (insert logs head record mgr₁).result :=
      confined_insert took.laid member small room₁ (still cannot)
    rw [← same₁]
    rw [took.chain] at after
    exact (after.congr same).unique (confined_insert laid member small room cannot)

def EmptyRoom (mgr : TransactionManager) (pid : ℕ) : Prop := 4084 ≤ freeBytes (mgr.pager.file pid)

theorem Slotted.freeBytes_le (slotted : Slotted page) : freeBytes page ≤ 4084 := by
  have start := slotted.start
  rw [freeBytes, slotsStart]
  unfold DATA_START HEADER_SIZE at start
  unfold PAGE_SIZE SLOT_SIZE
  push_cast
  omega

theorem not_unchanged (chain : Chain mgr.pager.file head pages)
    (longer : Chain mgr'.pager.file head (pages ++ [new])) : ¬ Unchanged logs head mgr mgr' := fun unchanged => by
  have same := congrArg List.length ((unchanged.chain pages chain).unique longer)
  simp at same

section

variable (laid : Laid heads mgr.pager lay) (member : head ∈ heads)
include laid member

theorem Tidy.accepts (small : U32 head)
    (tidy : Tidy mgr (lay.chain head)) : Accepts logs head mgr := by
  have stays {mgr' : TransactionManager} (grown : Grown logs head mgr mgr') :
      ∃ lay', Laid heads mgr'.pager lay' ∧ Tidy mgr' (lay'.chain head) := by
    induction grown with
    | refl => exact ⟨lay, laid, tidy⟩
    | insert grown sized returned ih =>
      obtain ⟨lay₁, laid₁, tidy₁⟩ := ih
      obtain ⟨lay₂, ends⟩ := (wp_insert_cases laid₁ member).returns returned
      exact ⟨lay₂, ends.keepsLaid laid₁ member, ends.tidy laid₁ member tidy₁⟩
  intro mgr₁ grown room record sized e mgr₂ raised
  obtain ⟨lay₁, laid₁, tidy₁⟩ := stays grown
  have ends := (wp_insert_cases laid₁ member).raises raised
  cases ends with
  | blocked reaches beyond => exact absurd (tidy₁ _ reaches.mem) (Int.not_le.mpr beyond)
  | unlogged takes reaches fits refused =>
    exact (refused (room.canWrite ((laid₁.chain head member).u32 small _ reaches.mem) _)).elim
  | unlinked spills unlinked => exact ⟨unlinked.range, fun can => unlinked.cannot (room.canLink can)⟩
  | torn spills torn => exact (room.not_torn torn).elim
  | unplaced takes spills spilled refused =>
    exact (refused (spilled.canWrite room _)).elim
  | oversize spills spilled large | overlaps takes spills spilled band => omega

instance (mgr : TransactionManager) : DecidablePred (EmptyRoom mgr) := fun _ => inferInstanceAs (Decidable (_ ≤ _))

theorem countP_emptyRoom_lt
    (here : pid ∈ lay.chain head) (empty : EmptyRoom mgr pid) (filled : freeBytes page < 4084) :
    (lay.chain head).countP (EmptyRoom (wroteBy logs mgr pid page)) < (lay.chain head).countP (EmptyRoom mgr) := by
  obtain ⟨front, back, split⟩ := append_of_mem here
  have distinct := laid.distinct head member
  rw [split] at distinct
  have notFront : pid ∉ front := fun again => (nodup_append.mp distinct).2.2 pid again pid (by simp) rfl
  have notBack : pid ∉ back := (nodup_cons.mp (nodup_append.mp distinct).2.1).1
  have same {pages : List ℕ} (outside : pid ∉ pages) :
      pages.countP (EmptyRoom (wroteBy logs mgr pid page)) = pages.countP (EmptyRoom mgr) := by
    refine countP_congr fun q among => ?_
    have other : q ≠ pid := fun again => outside (again ▸ among)
    rw [decide_eq_true_eq, decide_eq_true_eq, EmptyRoom, wroteBy_pager, put_file_other _ _ other, EmptyRoom]
  have gone : ¬ EmptyRoom (wroteBy logs mgr pid page) pid := by
    rw [EmptyRoom, wroteBy_pager, put_file_same]
    omega
  rw [split, countP_append, countP_append, same notFront, countP_cons, countP_cons, same notBack,
    if_neg (by simpa using gone), if_pos (by simpa using empty)]
  omega

/-- Behind a page whose records run into its slots nothing is ever stored: records that fill the empty pages
before it lead there. -/
theorem not_accepts (small : U32 head)
    (untidy : ¬ Tidy mgr (lay.chain head)) (room : LogRoom logs ((lay.chain head).countP (EmptyRoom mgr) + 3) mgr) :
    ¬ Accepts logs head mgr := by
  obtain ⟨n, count⟩ : ∃ n, (lay.chain head).countP (EmptyRoom mgr) ≤ n := ⟨_, le_refl _⟩
  induction n using Nat.strong_induction_on generalizing mgr with
  | _ n ih =>
  intro accepts
  obtain ⟨record, big⟩ : ∃ record : Bytes, record.length = 4078 := ⟨replicate 4078 0, length_replicate⟩
  rcases insert_returns_or_raises logs laid member record
    with ⟨rid, mgr', lay', returned, ends⟩ | ⟨e, mgr', raised, ends⟩
  · have laid' := ends.keepsLaid laid member
    cases ends with
    | @stays pid takes reaches fits can =>
      have slotted := laid.slotted head member pid reaches.mem
      have empty : EmptyRoom mgr pid := by
        have fits := fits
        rw [HasRoom, big] at fits
        exact fits
      have filled : freeBytes (placed (mgr.pager.file pid) record takes.1) < 4084 := by
        obtain ⟨-, slots, data⟩ := takes.placed_fields slotted
        have := slotted.freeBytes_le
        rw [freeBytes, slotsStart] at this
        rw [freeBytes, slotsStart, slots, data, big]
        unfold PAGE_SIZE SLOT_SIZE at *
        push_cast at *
        omega
      have fewer : (lay.chain head).countP (EmptyRoom (wroteBy logs mgr pid _)) < _ :=
        countP_emptyRoom_lt laid member reaches.mem empty filled
      refine ih _ (lt_of_lt_of_le fewer count) laid' (fun tidy => untidy fun q here => ?_)
        ((room.mono (by omega)).wroteBy _) (le_refl _) fun mgr'' grown => ?_
      · by_cases same : q = pid
        · rw [same]
          exact (by decide : (0 : ℤ) ≤ 4084).trans empty
        · have := tidy q here
          rwa [wroteBy_pager, put_file_other _ _ same] at this
      · refine accepts mgr'' ?_
        clear ih
        induction grown with
        | refl => exact .insert .refl (by rw [big]) returned
        | insert _ sized next ih => exact .insert ih sized next
    | spills takes spills => exact untidy spills.tidy
  · obtain ⟨rfl, -⟩ := accepts mgr .refl (room.mono (by omega)) _ (by rw [big]) e mgr' raised
    generalize range : Exc.packRange = e at ends
    cases ends with
    | blocked reaches beyond => cases congrArg Exc.cls range
    | unlogged takes reaches fits refused =>
      exact refused (room.mono (by omega) |>.canWrite (n := 0) ((laid.chain head member).u32 small _ reaches.mem) _)
    | unlinked spills | torn spills | unplaced takes spills | oversize spills => exact untidy spills.tidy
    | overlaps takes spills => exact untidy spills.tidy

theorem not_endsCleanly_of_long (room : LogRoom logs 3 mgr)
    (spills : Spills mgr (lay.chain head) record) (can : CanAllocate mgr.pager) (long : 4078 < record.length) :
    ¬ EndsCleanly logs head mgr record := by
  have cases : (insert logs head record).wp _ _ mgr := wp_insert_cases laid member
  have chain := laid.chain head member
  rintro (⟨rid, mgr', returned, -⟩ | ⟨e, mgr', raised, unchanged⟩)
  · obtain ⟨lay', ends⟩ := cases.returns returned
    cases ends with
    | stays takes reaches fits => exact reaches.not_spills fits.not_full spills
    | spills takes spills spilled small => omega
  · have ends := cases.raises raised
    cases ends with
    | blocked reaches beyond => exact reaches.not_spills (not_full_of_over beyond) spills
    | unlogged takes reaches fits => exact reaches.not_spills fits.not_full spills
    | unlinked spills unlinked => exact unlinked.cannot (room.canLink can)
    | torn spills torn => exact (room.not_torn torn).elim
    | unplaced takes spills spilled | oversize spills spilled =>
      exact not_unchanged chain (spilled.chain ▸ spilled.laid.chain head member) unchanged
    | overlaps takes spills spilled band can =>
      have slotted := spilled.laid.slotted head member _ spilled.linked
      have laid' := spilled.laid.put member spilled.linked (takes.placed_fields slotted).1
        (takes.slotted_placed slotted)
      have longer := laid'.chain head member
      rw [spilled.chain, ← wroteBy_pager logs] at longer
      exact not_unchanged chain longer unchanged

theorem endsCleanly_of_returns (small : U32 head)
    (room : LogRoom logs ((lay.chain head).length + 4) mgr)
    (returned : (insert logs head record).Returns mgr rid mgr') :
    EndsCleanly logs head mgr record ↔ 1 ≤ record.length ∧ Tidy mgr (lay.chain head) := by
  obtain ⟨lay', ends⟩ := (wp_insert_cases laid member).returns returned
  have laid' := ends.keepsLaid laid member
  have read := ends.read laid member
  have nonempty : 1 ≤ record.length ↔ record ≠ [] := length_pos_iff
  constructor
  · rintro (⟨rid', mgr'', returned', found, accepts⟩ | ⟨e, mgr'', raised, -⟩)
    · obtain ⟨rfl, rfl⟩ := returned.unique returned'
      refine ⟨nonempty.mpr fun empty => ?_, ?_⟩
      · rw [if_pos empty] at read
        cases (read.unique found).1
      · by_contra untidy
        cases ends with
        | @stays pid takes reaches fits can =>
          refine not_accepts laid' member small (fun tidy => untidy fun q here => ?_) ?_ accepts
          · by_cases same : q = pid
            · rw [same]
              exact (Int.natCast_nonneg _).trans fits
            · have := tidy q here
              rwa [wroteBy_pager, put_file_other _ _ same] at this
          · have counted := countP_le_length (p := EmptyRoom (wroteBy logs mgr pid
              (placed (mgr.pager.file pid) record takes.1))) (l := lay.chain head)
            exact (room.wroteBy _).mono (by omega)
        | spills takes spills => exact untidy spills.tidy
    · exact (returned.not_raises raised).elim
  · rintro ⟨some, tidy⟩
    rw [if_neg (nonempty.mp some)] at read
    exact .inl ⟨rid, mgr', returned, read, Tidy.accepts laid' member small (ends.tidy laid member tidy)⟩

theorem Blocked.endsCleanly
    (blocked : Blocked mgr (lay.chain head) record) : EndsCleanly logs head mgr record := by
  obtain ⟨pid, reaches, beyond⟩ := blocked
  have unspilled : ¬ Spills mgr _ record := reaches.not_spills (not_full_of_over beyond)
  rcases insert_returns_or_raises logs laid member record
    with ⟨rid, mgr', lay', returned, ends⟩ | ⟨e, mgr', raised, ends⟩
  · cases ends with
    | stays takes reaches' room => exact (reaches'.not_over room reaches beyond).elim
    | spills takes spills => exact (unspilled spills).elim
  · cases ends with
    | blocked reaches beyond =>
      exact .inr ⟨_, mgr, raised, fun _ chain => chain, fun _ live => live, fun _ => rfl⟩
    | unlogged takes reaches' room => exact (reaches'.not_over room reaches beyond).elim
    | unlinked spills | torn spills | unplaced takes spills | oversize spills => exact (unspilled spills).elim
    | overlaps takes spills => exact (unspilled spills).elim

theorem Spills.insert_ends (room : LogRoom logs 3 mgr)
    (spills : Spills mgr (lay.chain head) record) :
    (CanAllocate mgr.pager ∧ record.length ≤ 4078 ∧ ∃ rid mgr', (insert logs head record).Returns mgr rid mgr') ∨
    (¬ CanAllocate mgr.pager ∧ ∃ e mgr', (insert logs head record).Raises mgr e mgr' ∧
      Unlinked logs heads mgr lay e mgr') ∨
    (CanAllocate mgr.pager ∧ 4078 < record.length) := by
  rcases insert_returns_or_raises logs laid member record
    with ⟨rid, mgr', lay', returned, ends⟩ | ⟨e, mgr', raised, ends⟩
  · cases ends with
    | stays takes reaches fits => exact (reaches.not_spills fits.not_full spills).elim
    | spills takes spills spilled small => exact .inl ⟨spilled.can.1, small, _, _, returned⟩
  · cases ends with
    | blocked reaches beyond => exact (reaches.not_spills (not_full_of_over beyond) spills).elim
    | unlogged takes reaches fits => exact (reaches.not_spills fits.not_full spills).elim
    | unlinked spills unlinked =>
      exact .inr (.inl ⟨fun can => unlinked.cannot (room.canLink can), e, mgr', raised, unlinked⟩)
    | torn spills torn => exact (room.not_torn torn).elim
    | unplaced takes spills spilled refused => exact (refused (spilled.canWrite room _)).elim
    | oversize spills spilled large => exact .inr (.inr ⟨spilled.can.1, by omega⟩)
    | overlaps takes spills spilled band => exact .inr (.inr ⟨spilled.can.1, band.1⟩)

/-- An insert ends cleanly if it is refused by a page in the way or by a file that cannot grow, or if it stores one
to 4078 bytes in a heap without such a page. -/
theorem insert_ends_cleanly_iff (small : U32 head)
    (callback : LogRoom logs ((lay.chain head).length + 4) mgr) : EndsCleanly logs head mgr record ↔
      Blocked mgr (lay.chain head) record ∨ (Spills mgr (lay.chain head) record ∧ ¬ CanAllocate mgr.pager) ∨
      (1 ≤ record.length ∧ record.length ≤ 4078 ∧ Tidy mgr (lay.chain head)) := by
  have room₁ : LogRoom logs 1 mgr := callback.mono (by omega)
  have room₃ : LogRoom logs 3 mgr := callback.mono (by omega)
  have u32 := (laid.chain head member).u32 small
  rcases walk_cases mgr (lay.chain head) record with blocked | ⟨pid, reaches, fits⟩ | spills
  · exact iff_of_true (blocked.endsCleanly laid member) (.inl blocked)
  · have unspilled := reaches.not_spills fits.not_full
    have unblocked : ¬ Blocked mgr (lay.chain head) record := by
      rintro ⟨other, reaches', beyond⟩
      exact reaches.not_over fits reaches' beyond
    have short : record.length ≤ 4078 := by
      have free := (laid.slotted head member pid reaches.mem).freeBytes_le
      rw [HasRoom] at fits
      unfold SLOT_SIZE at fits
      omega
    obtain ⟨rid, mgr', returned⟩ := returns_insert_of_room laid member reaches fits
      (room₁.canWrite (u32 pid reaches.mem))
    rw [endsCleanly_of_returns laid member small callback returned]
    simp only [unblocked, unspilled, short, false_and, true_and, false_or]
  · have unblocked : ¬ Blocked mgr (lay.chain head) record := by
      rintro ⟨pid, reaches, beyond⟩
      exact reaches.not_spills (not_full_of_over beyond) spills
    rcases Spills.insert_ends laid member room₃ spills with
      ⟨can, short, rid, mgr', returned⟩ | ⟨cannot, e, mgr', raised, unlinked⟩ | ⟨can, long⟩
    · rw [endsCleanly_of_returns laid member small callback returned]
      simp only [unblocked, can, short, not_true, and_false, true_and, false_or]
    · exact iff_of_true (.inr ⟨e, mgr', raised, unlinked.unchanged laid member small room₁ cannot⟩)
        (.inr (.inl ⟨spills, cannot⟩))
    · refine iff_of_false (not_endsCleanly_of_long laid member room₃ spills can long) ?_
      rintro (blocked | ⟨-, cannot⟩ | ⟨-, short, -⟩)
      · exact unblocked blocked
      · exact cannot can
      · omega

end

theorem spills_firstHeap (long : 4078 < record.length) : Spills firstHeap [4] record := by
  intro pid here
  rw [mem_singleton.mp here, Full, file_firstHeap, freeBytes_emptyPage]
  unfold SLOT_SIZE
  omega

theorem logRoom_quiet (n : ℕ) (mgr : TransactionManager) : LogRoom false n mgr := fun isLogging => by cases isLogging

theorem insert_ends_cleanly_first : EndsCleanly false 4 firstHeap [7] := by
  obtain ⟨lay, laid, chain⟩ := laid_firstHeap
  refine (insert_ends_cleanly_iff laid (by simp) (by decide) (logRoom_quiet _ _)).mpr
    (.inr (.inr ⟨by decide, by decide, fun pid here => ?_⟩))
  rw [chain, mem_singleton] at here
  rw [here, file_firstHeap, freeBytes_emptyPage]
  decide

/-- One byte more than an empty page holds beside its slot. -/
theorem insert_4079_not_clean : ¬ EndsCleanly false 4 firstHeap (replicate 4079 0) := by
  obtain ⟨lay, laid, chain⟩ := laid_firstHeap
  have long : 4078 < (replicate 4079 (0 : UInt8)).length := by
    rw [length_replicate]
    decide
  have can : CanAllocate firstHeap.pager := by
    rw [CanAllocate, if_pos (show firstHeap.pager.freeHead = NO_FREE from rfl)]
    decide
  refine not_endsCleanly_of_long laid (by simp) (logRoom_quiet _ _) ?_ can long
  rw [chain]
  exact spills_firstHeap long

end Tinydb.Storage.Heap
