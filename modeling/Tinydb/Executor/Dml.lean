import Tinydb.Executor.Select

/-! INSERT, UPDATE and DELETE (`executor/dml.py`, `executor/heap_bind.py`).

A statement works on the heap of one table and calls the hooks of the index manager
row by row. UPDATE and DELETE walk the rids that were live at the start. Binding a
heap to a table makes a new heap first, which takes a page, and then points it at the
table's chain.
-/

namespace Tinydb.Executor

open Lib Tinydb.Types Sql Storage Tx Index Program
open Storage.Heap (Rid)

/-- What an executor works on. `registered` are the catalog's entries of indexes and `indexes` those of the index
manager; `heaps` lists the tables SELECT has bound a heap to; `logs` says whether there is a transaction manager to
log page writes with. -/
structure Database (X : Type) where
  txn : TransactionManager
  catalog : Catalog
  registered : List IndexMeta
  indexes : List (LiveIndex X)
  heaps : List ℕ
  logs : Bool

abbrev DbM (X : Type) := Program Exc (Database X)

variable {X : Type}

def onTxn {α : Type} (p : TxM α) : DbM X α := zoom (·.txn) (fun txn db => { db with txn }) p

def onIndexes {α : Type} (p : Program Exc (List (LiveIndex X)) α) : DbM X α :=
  zoom (·.indexes) (fun indexes db => { db with indexes }) p

/-- `_dml_context`: the table, with a heap bound to its chain. -/
def dmlContext (table : String) : DbM X TableMeta := do
  let db ← read
  let info ← ofExcept (db.catalog.getTable table)
  let _ ← onTxn Heap.new
  return info

def affecting : List Rid → (Rid → DbM X Bool) → DbM X ℕ
  | [], _ => pure 0
  | rid :: rest, body => do
    let changed ← body rid
    let others ← affecting rest body
    return (if changed then 1 else 0) + others

/-- `_assert_not_null` for the columns that are left. -/
def assertNotNull (info : TableMeta) (table : String) (row : Row X) : List Column → Except Exc Unit
  | [] => .ok ()
  | column :: columns =>
    if column.notNull then do
      let value ← keyColumn info row column.name
      if value.isNone then
        throw ⟨.notNullViolation, "NOT NULL constraint violated: " ++ quoted table ++ "." ++
          column.name ++ " received NULL"⟩
      else
        assertNotNull info table row columns
    else
      assertNotNull info table row columns

/-- The first phase of INSERT: every row has a value for every column, and none where NULL is forbidden. -/
def validate (info : TableMeta) (table : String) : List (Row X) → Except Exc Unit
  | [] => .ok ()
  | row :: rows =>
    if row.length ≠ info.columns.length then
      .error ⟨.valueError, "INSERT into " ++ quoted table ++ ": expected " ++ toString info.columns.length ++
        " values, got " ++ toString row.length⟩
    else do
      assertNotNull info table row info.columns
      validate info table rows

variable [Runtime X]

def assign (info : TableMeta) (table : String) (old : Row X) : List (Assignment X) → Row X → Except Exc (Row X)
  | [], new => .ok new
  | clause :: clauses, new =>
    match nameToIdx info.columns clause.column with
    | none => .error ⟨.unknownColumnError, quoted table ++ "." ++ quoted clause.column⟩
    | some i => do
      let value ← evalExpr (nameToIdx info.columns) old clause.value
      assign info table old clauses (new.set i value)

def updated (info : TableMeta) (table : String) (clauses : List (Assignment X)) (old : Row X) : Except Exc (Row X) := do
  let new ← assign info table old clauses old
  assertNotNull info table new info.columns
  return new

/-- Encode a row, write it to the heap and add it to the indexes. The indexes get the row as it was given. -/
def storeRow (info : TableMeta) (row : Row X) : DbM X Unit := do
  let db ← read
  let blob ← ofExcept (encodeRowCoerced row info.tags)
  let rid ← onTxn (Heap.insert db.logs info.heapPid blob)
  onIndexes (onInsert info rid row)

def precheck (info : TableMeta) (row : Row X) : DbM X Unit := do
  let db ← read
  ofExcept (checkUnique info row db.indexes)

/-- `Insert.open`. -/
def insertRows (table : String) (values : List (Row X)) : DbM X ℕ := do
  let info ← dmlContext table
  ofExcept (validate info table values)
  forEach values (precheck info)
  forEach values (storeRow info)
  return values.length

/-- The row at `rid` for a statement with a WHERE clause; `none` if it is not concerned. -/
def concerned (info : TableMeta) (filter : Option (Expr X)) (rid : Rid) : DbM X (Option (Row X)) :=
  onTxn (filterRow info filter rid)

def removeFromHeap (rid : Rid) : DbM X Unit := do
  let db ← read
  onTxn (Heap.delete db.logs rid)

/-- One row of UPDATE. The old entries leave the indexes before UNIQUE is checked. -/
def updateRow (info : TableMeta) (table : String) (clauses : List (Assignment X))
    (filter : Option (Expr X)) (rid : Rid) :
    DbM X Bool := do
  match ← concerned info filter rid with
  | none => return false
  | some old =>
    let new ← ofExcept (updated info table clauses old)
    onIndexes (onDelete info rid old)
    precheck info new
    removeFromHeap rid
    storeRow info new
    return true

def deleteRow (info : TableMeta) (filter : Option (Expr X)) (rid : Rid) : DbM X Bool := do
  match ← concerned info filter rid with
  | none => return false
  | some row =>
    removeFromHeap rid
    onIndexes (onDelete info rid row)
    return true

/-- `Update.open`. -/
def updateRows (table : String) (clauses : List (Assignment X)) (filter : Option (Expr X)) : DbM X ℕ := do
  let info ← dmlContext table
  let rids ← onTxn (Heap.scan info.heapPid)
  affecting rids (updateRow info table clauses filter)

/-- `Delete.open`. -/
def deleteRows (table : String) (filter : Option (Expr X)) : DbM X ℕ := do
  let info ← dmlContext table
  let rids ← onTxn (Heap.scan info.heapPid)
  affecting rids (deleteRow info filter)

end Tinydb.Executor
