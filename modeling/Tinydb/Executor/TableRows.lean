import Tinydb.Executor.Dml
import Tinydb.Storage.HeapMap

/-! The records of a table, and what one step of a statement does to them.

`TableIn` says which records the pages of a table hold. Their order is that of the
heap; results compare rows up to order. What a record means is the codec's business: a
statement that reads a record goes on only if it can be decoded.
-/

namespace Tinydb.Executor

open Lib Program Tinydb.Types Sql Storage Heap Tx Index List

variable {rid : Rid} {heads : List ℕ} {mgr : TransactionManager} {lay : Layout} {head : ℕ} {mgr' : TransactionManager}
  {lay' : Layout} {info : TableMeta} {records records' : List (Rid × Bytes)} {logs : Bool}

abbrev scanned (mgr : TransactionManager) (lay : Layout) (head : ℕ) : List Rid :=
  (lay.chain head).flatMap fun q => liveOn q (mgr.pager.file q)

theorem scanned_nodup (laid : Laid heads mgr.pager lay) (member : head ∈ heads) : (scanned mgr lay head).Nodup := by
  refine (flatMap_liveOn_pairwise mgr.pager.file (laid.distinct head member)).imp fun {a b} before same => ?_
  rw [same] at before
  exact Before.irrefl _ b before

theorem used_of_mem_scanned (found : rid ∈ scanned mgr lay head) : Used mgr lay head rid := by
  obtain ⟨q, here, live⟩ := mem_flatMap.mp found
  obtain ⟨rfl, inside, -⟩ := mem_liveOn.mp live
  exact ⟨here, inside⟩

theorem rows_eq_filterMap : rows mgr lay head = (scanned mgr lay head).filterMap fun rid =>
    (recordAt (mgr.pager.file rid.pageId) rid.slotId).map (rid, ·) := by
  rw [rows, rowsOf, scanned, filterMap_flatMap]
  refine flatMap_congr fun pid _ => ?_
  rw [← filterMap_liveOn]
  refine filterMap_congr fun rid live => ?_
  rw [(mem_liveOn.mp live).1]

theorem map_fst_filterMap {α β : Type} (l : List α) (f : α → Option β) :
    ((l.filterMap fun a => (f a).map (a, ·)).map Prod.fst) = l.filter fun a => (f a).isSome := by
  induction l with
  | nil => rfl
  | cons a l ih =>
    rw [filterMap_cons, filter_cons]
    cases f a with
    | none | some b => simpa using ih

theorem rows_nodup (laid : Laid heads mgr.pager lay) (member : head ∈ heads) :
    ((rows mgr lay head).map Prod.fst).Nodup := by
  rw [rows_eq_filterMap, map_fst_filterMap]
  exact (scanned_nodup laid member).filter _

/-- The pages of the table hold exactly these records, in some order. -/
structure TableIn (heads : List ℕ) (mgr : TransactionManager) (lay : Layout) (info : TableMeta)
    (records : List (Rid × Bytes)) :
    Prop where
  laid : Laid heads mgr.pager lay
  member : info.heapPid ∈ heads
  content : records.Perm (Heap.rows mgr lay info.heapPid)

namespace TableIn

variable (holds : TableIn heads mgr lay info records)
include holds

theorem perm (perm : records.Perm records') :
    TableIn heads mgr lay info records' := ⟨holds.laid, holds.member, perm.symm.trans holds.content⟩

theorem nodup : (records.map Prod.fst).Nodup :=
  (holds.content.map _).nodup_iff.mpr (rows_nodup holds.laid holds.member)

theorem used {item : Rid × Bytes} (live : item ∈ records) :
    Used mgr lay info.heapPid item.1 := used_of_mem_rows (holds.content.mem_iff.mp live)

def byRid : Dict Rid Bytes := ⟨records, holds.nodup⟩

theorem read (used : Used mgr lay info.heapPid rid) :
    (Heap.read rid).Returns mgr (holds.byRid.get? rid) mgr := by
  refine returns_read_used holds.laid holds.member used fun record => ?_
  rw [← holds.content.mem_iff]
  exact ⟨fun found => Dict.mem_of_get? found, fun live => Dict.get?_of_mem (d := holds.byRid) live⟩

theorem kept
    (kept : Kept logs heads mgr lay info.heapPid mgr' lay') : TableIn heads mgr' lay' info records :=
  ⟨kept.laid, holds.member, kept.rows ▸ holds.content⟩

theorem inserted {record : Bytes}
    (inserted : Inserted logs heads mgr lay info.heapPid rid record mgr' lay') :
    TableIn heads mgr' lay' info ((rid, record) :: records) :=
  ⟨inserted.laid, holds.member, (holds.content.cons _).trans inserted.rows.symm⟩

theorem deleted (deleted : Deleted logs heads mgr lay info.heapPid rid mgr' lay') :
    TableIn heads mgr' lay' info (records.filter fun item => item.1 ≠ rid) :=
  ⟨deleted.laid, holds.member, deleted.rows ▸ holds.content.filter _⟩

theorem scanned_perm :
    ((scanned mgr lay info.heapPid).filterMap fun rid => (holds.byRid.get? rid).map (rid, ·)).Perm records := by
  refine .trans (.of_eq ?_) holds.content.symm
  rw [rows_eq_filterMap]
  refine filterMap_congr fun rid found => ?_
  have located := holds.read (used_of_mem_scanned found)
  have used := used_of_mem_scanned found
  have direct := returns_read_used holds.laid holds.member used fun record => used_read used
  rw [(located.unique direct).1]

end TableIn

theorem tableIn_firstHeap (info : TableMeta) (first : info.heapPid = 4) : ∃ lay, TableIn [4] firstHeap lay info [] := by
  obtain ⟨lay, laid, chain⟩ := laid_firstHeap
  have page : liveOn 4 (firstHeap.pager.file 4) = [] := by
    rw [file_firstHeap]
    decide +kernel
  refine ⟨lay, laid, by simp [first], ?_⟩
  rw [rows_eq_filterMap, scanned, first, chain, flatMap_singleton, page]
  exact .refl _

variable {X : Type} [Runtime X]

/-- The rows that records are decoded to. A record that cannot be decoded has none. -/
def decodedRows (info : TableMeta) (records : List (Rid × Bytes)) : List (Rid × Row X) :=
  records.filterMap fun item => (decodeRow item.2 info.tags).toOption.map (item.1, ·)

theorem TableIn.returns_readRow (holds : TableIn heads mgr lay info records) (used : Used mgr lay info.heapPid rid)
    {row : Option (Row X)} : (readRow info rid).Returns mgr row mgr' ↔ mgr = mgr' ∧ match holds.byRid.get? rid with
      | none => row = none
      | some record => ∃ decoded, decodeRow record info.tags = .ok decoded ∧ row = some decoded := by
  rw [readRow, Program.Returns, bind_of_returns (holds.read used)]
  cases holds.byRid.get? rid with
  | none => simp [eq_comm, and_comm]
  | some record =>
    cases decoded : decodeRow (X := X) record info.tags <;> simp [Program.bind_apply, decoded, eq_comm, and_comm]

theorem decodedRows_perm (perm : records.Perm records') :
    (decodedRows (X := X) info records).Perm (decodedRows info records') := perm.filterMap _

theorem reads_tableScan (info : TableMeta) : (tableScan (X := X) info).Reads :=
  reads_bind (Heap.reads_scan _) fun _ => reads_collect fun rid _ =>
    reads_bind (reads_readRow info rid) fun _ => reads_pure _

theorem TableIn.decodedRows_scanned (holds : TableIn heads mgr lay info records) :
    ((scanned mgr lay info.heapPid).filterMap fun rid => (holds.byRid.get? rid).bind fun record =>
      (decodeRow (X := X) record info.tags).toOption.map (rid, ·)).Perm (decodedRows info records) := by
  refine .trans (.of_eq ?_) (decodedRows_perm holds.scanned_perm)
  rw [decodedRows, filterMap_filterMap]
  refine filterMap_congr fun rid _ => ?_
  cases holds.byRid.get? rid <;> rfl

theorem TableIn.returns_tableScan (holds : TableIn heads mgr lay info records) {rows : List (Rid × Row X)} :
    (∃ found, (tableScan info).Returns mgr found mgr ∧ found.Perm rows) ↔
      (∀ item ∈ records, ∃ row : Row X, decodeRow item.2 info.tags = .ok row) ∧
      (decodedRows info records).Perm rows := by
  constructor
  · rintro ⟨found, returned, perm⟩
    obtain ⟨rids, scan, readable, rfl⟩ := Executor.returns_tableScan returned
    obtain ⟨rfl, -⟩ := scan.unique (returns_scan holds.laid holds.member)
    have seen (rid : Rid) (here : rid ∈ scanned mgr lay info.heapPid) :=
      ((holds.returns_readRow (used_of_mem_scanned here)).mp (readable rid here)).2
    refine ⟨fun item live => ?_, (holds.decodedRows_scanned.symm.trans (.of_eq ?_)).trans perm⟩
    · obtain ⟨rid, here, located⟩ := mem_filterMap.mp (holds.scanned_perm.mem_iff.mpr live)
      obtain ⟨record, got, rfl⟩ := Option.map_eq_some_iff.mp located
      have row := seen rid here
      rw [got] at row
      obtain ⟨decoded, same, -⟩ := row
      exact ⟨decoded, same⟩
    · refine filterMap_congr fun rid here => ?_
      have row := seen rid here
      cases got : holds.byRid.get? rid with
      | none =>
        rw [got] at row
        rw [row]
        rfl
      | some record =>
        rw [got] at row
        obtain ⟨decoded, same, found⟩ := row
        rw [found, Option.bind_some, same]
        rfl
  · rintro ⟨decodes, perm⟩
    refine ⟨_, returns_bind.mpr ⟨_, mgr, returns_scan holds.laid holds.member, ?_⟩,
      holds.decodedRows_scanned.trans perm⟩
    refine returns_collect_of_reads fun rid found => returns_bind.mpr
      ⟨(holds.byRid.get? rid).bind fun record => (decodeRow record info.tags).toOption, mgr, ?_, ?_⟩
    · rw [holds.returns_readRow (used_of_mem_scanned found)]
      cases got : holds.byRid.get? rid with
      | none => exact ⟨rfl, rfl⟩
      | some record =>
        obtain ⟨row, decoded⟩ := decodes _ (show (rid, record) ∈ records from Dict.mem_of_get? got)
        exact ⟨rfl, row, decoded, by rw [Option.bind_some, decoded]; rfl⟩
    · refine returns_pure.mpr ⟨?_, rfl⟩
      cases holds.byRid.get? rid <;> rfl

end Tinydb.Executor
