import Tinydb.Executor.IndexPlan

/-! Reading a table, with and without an index (`executor/ops.py`, `executor/row_iter.py`).

The rows of a single-table SELECT come from the heap or from a range of an index;
either way the WHERE clause is evaluated again on every row.
-/

namespace Tinydb.Executor

open Lib Program Tinydb.Types Sql Storage Tx Index
open Storage.Heap (Rid)

variable {X : Type} [Runtime X] {info : TableMeta} {filter : Option (Expr X)} {mgr mgr' : TransactionManager}
  {rids : List Rid}

/-- The decoded row at `rid`; `none` for an empty slot. -/
def readRow (info : TableMeta) (rid : Rid) : TxM (Option (Row X)) := do
  match ← Heap.read rid with
  | none => return none
  | some blob => return some (← ofExcept (decodeRow blob info.tags))

/-- `TableScan`. -/
def tableScan (info : TableMeta) : TxM (List (Rid × Row X)) := do
  let rids ← Heap.scan info.heapPid
  collect rids fun rid => do return (← readRow info rid).map (rid, ·)

/-- The row at `rid`, if there is one and the WHERE clause keeps it. -/
def filterRow (info : TableMeta) (filter : Option (Expr X)) (rid : Rid) : TxM (Option (Row X)) := do
  match ← readRow info rid with
  | none => return none
  | some row =>
    let answer ← ofExcept (keeps info.columns filter row)
    return if answer then some row else none

def filterRows (info : TableMeta) (filter : Option (Expr X)) (rids : List Rid) : TxM (List (Row X)) :=
  collect rids (filterRow info filter)

/-- The rids of the rows to filter; `scanned` is what a scan of an index finds. -/
def openSource (scanned : IndexScan X → Except Exc (List Rid)) (info : TableMeta) : Source X → TxM (List Rid)
  | .seqScan => Heap.scan info.heapPid
  | .indexScan scan => ofExcept (scanned scan)

theorem reads_readRow (info : TableMeta) (rid : Rid) : (readRow (X := X) info rid).Reads := by
  refine reads_bind (Heap.reads_read rid) fun blob => ?_
  cases blob with
  | none => exact reads_pure _
  | some blob => exact reads_bind (reads_ofExcept _) fun _ => reads_pure _

/-- The row at `rid` in a state. -/
def rowIn (info : TableMeta) (mgr : TransactionManager) (rid : Rid) : Option (Row X) := (readRow info rid).valueIn mgr

def kept (info : TableMeta) (filter : Option (Expr X)) (row : Row X) : Bool :=
  match keeps info.columns filter row with
  | .ok answer => answer
  | .error _ => false

theorem returns_tableScan {rows : List (Rid × Row X)} (scanned : (tableScan info).Returns mgr rows mgr') :
    ∃ rids, (Heap.scan info.heapPid).Returns mgr rids mgr ∧
      (∀ rid ∈ rids, (readRow (X := X) info rid).Returns mgr (rowIn info mgr rid) mgr) ∧
      rows = rids.filterMap fun rid => (rowIn info mgr rid).map (rid, ·) := by
  obtain ⟨rids, mid, scan, collected⟩ := returns_bind.mp scanned
  obtain rfl := (Heap.reads_scan _).of_returns scan
  have body (rid : Rid) {mgr mgr' : TransactionManager} {value : Option (Rid × Row X)}
      (returned : (do return (← readRow info rid).map (rid, ·) : TxM (Option (Rid × Row X))).Returns mgr value mgr') :
      (readRow (X := X) info rid).Returns mgr (rowIn info mgr rid) mgr ∧ value = (rowIn info mgr rid).map (rid, ·) := by
    obtain ⟨row, mid, reading, yields⟩ := returns_bind.mp returned
    obtain ⟨rfl, -⟩ := returns_pure.mp yields
    obtain rfl := (reads_readRow info rid).of_returns reading
    have found : rowIn info mid rid = row := valueIn_eq reading
    exact ⟨found ▸ reading, by rw [found]⟩
  obtain ⟨-, each, rfl⟩ := returns_of_reads_collect
    (fun rid => reads_bind (reads_readRow info rid) fun _ => reads_pure _) collected
  refine ⟨rids, scan, fun rid member => (body rid (each rid member)).1, ?_⟩
  exact List.filterMap_congr fun rid member => (body rid (each rid member)).2

theorem returns_filterRow {rid : Rid} {value : Option (Row X)}
    (readable : (readRow (X := X) info rid).Returns mgr (rowIn info mgr rid) mgr) :
    (filterRow info filter rid).Returns mgr value mgr' ↔ mgr = mgr' ∧
      (∀ row, rowIn info mgr rid = some row → ∃ answer, keeps info.columns filter row = .ok answer) ∧
      value = (rowIn info mgr rid).filter (kept info filter) := by
  rw [filterRow, Program.Returns, bind_of_returns readable]
  cases (rowIn info mgr rid : Option (Row X)) with
  | none => simp [eq_comm, and_comm]
  | some row =>
    cases evaluated : keeps info.columns filter row with
    | error e => simp [bind_apply, evaluated]
    | ok answer =>
      have same : kept info filter row = answer := by rw [kept, evaluated]
      cases answer <;> simp [bind_apply, evaluated, Option.filter, same, eq_comm, and_comm]

theorem reads_filterRow (rid : Rid) : (filterRow info filter rid).Reads := by
  refine reads_bind (reads_readRow info rid) fun row => ?_
  cases row with
  | none => exact reads_pure _
  | some row => exact reads_bind (reads_ofExcept _) fun _ => reads_pure _

end Tinydb.Executor
