import Tinydb.Executor.Dml
import Tinydb.Executor.Join

/-! One statement, from its syntax tree to its result (`api.py`, `executor/planner.py`, `index/manager.py`).

Planning only looks at the catalog and the indexes. CREATE TABLE makes a unique index for
every PRIMARY KEY column; an index that is created is listed first and filled with the
rows of its table afterwards.
-/

namespace Tinydb.Executor

open Lib Program Tinydb.Types Sql Storage Tx Index
open Storage.Heap (Rid)

variable {X : Type}

/-- A VALUES row in the order of the table's columns; a column that is not named is NULL. -/
def expandRow (info : TableMeta) (names : List String) (row : Row X) : Row X :=
  (names.zip row).foldl (fun full item => full.set ((columnNames info).idxOf item.1) item.2)
    (List.replicate info.columns.length .none)

def expandRows (info : TableMeta) (table : String) (names : List String) : List (Row X) → Except Exc (List (Row X))
  | [] => .ok []
  | row :: rows =>
    if row.length ≠ names.length then
      .error ⟨.valueError, "INSERT into " ++ quoted table ++ ": " ++ toString names.length ++ " columns named but " ++
        toString row.length ++ " values supplied"⟩
    else do
      return expandRow info names row :: (← expandRows info table names rows)

def unknownNamed (info : TableMeta) (names : List String) : Option String :=
    names.find? fun name => name ∉ columnNames info

/-- `_plan_insert`. -/
def planInsert (catalog : Catalog) (table : String) (columns : Option (List String)) (values : List (Row X)) :
    Except Exc (List (Row X)) := do
  let info ← requireTable catalog table
  match columns with
  | none => return values
  | some names =>
    match unknownNamed info names with
    | some name => throw ⟨.unknownColumnError, quoted table ++ "." ++ quoted name⟩
    | none => expandRows info table names values

def planFilter (info : TableMeta) : Option (Expr X) → Except Exc Unit
  | none => .ok ()
  | some predicate => walkExpr (columnNames info) predicate

/-- `_plan_update`. -/
def planUpdate (catalog : Catalog) (table : String) (clauses : List (Assignment X)) (filter : Option (Expr X)) :
    Except Exc Unit := do
  let info ← requireTable catalog table
  match unknownNamed info (clauses.map (·.column)) with
  | some name => throw ⟨.unknownColumnError, name⟩
  | none => planFilter info filter

/-- `_plan_delete`. -/
def planDelete (catalog : Catalog) (table : String) (filter : Option (Expr X)) : Except Exc Unit := do
  let info ← requireTable catalog table
  planFilter info filter

def persist (count : ℕ) : DbM X Unit := if count < 2 ^ 16 then return else raise .packRange

/-- `Catalog.create_index`: the entry is listed before the page is written. -/
def registerIndex (index : IndexMeta) : DbM X Unit := do
  let db ← read
  if index.name ∈ db.registered.map (·.name) then
    raise ⟨.valueError, "index " ++ quoted index.name ++ " already exists"⟩
  else
    modify fun db => { db with registered := db.registered ++ [index] }
    persist (db.registered.length + 1)

abbrev Inserter (X : Type) := String → Key X → Rid → DbM X Unit

variable [Runtime X] (insert : Inserter X)

def treeInsert : Inserter X := fun name key rid => onIndexes (each do
  let index ← read
  if index.info.name = name then onTree (BTree.insert key rid) else return)

/-- One row of `_backfill_index`. UNIQUE is not looked at. -/
def backfillRow (info : TableMeta) (name : String) (columns : List String) (rid : Rid) : DbM X Unit := do
  match ← onTxn (readRow info rid) with
  | none => return
  | some row =>
    let key ← ofExcept (extractKey info row columns)
    if key.containsNone then return else insert name key rid

/-- `_backfill_index`: a new heap is bound to the table's chain first. -/
def backfill (info : TableMeta) (name : String) (columns : List String) : DbM X Unit := do
  let _ ← onTxn Heap.new
  let rids ← onTxn (Heap.scan info.heapPid)
  forEach rids (backfillRow insert info name columns)

/-- `IndexManager.create_index`. -/
def createIndex (name table : String) (columns : List String) (unique : Bool) : DbM X Unit := do
  let db ← read
  if name ∈ db.indexes.map (·.info.name) then
    raise ⟨.valueError, "index " ++ quoted name ++ " already exists"⟩
  else if columns = [] then
    raise ⟨.valueError, "index must reference at least one column"⟩
  else
    let info ← ofExcept (db.catalog.getTable table)
    match unknownNamed info columns with
    | some column => raise ⟨.valueError, "column " ++ quoted column ++ " not in table " ++ quoted table⟩
    | none =>
      let _ ← onTxn (TransactionManager.onPager Pager.allocatePage)
      let index : IndexMeta := ⟨name, table, columns, unique⟩
      registerIndex index
      modify fun db => { db with indexes := db.indexes ++ [⟨index, .new (indexedKeyType info columns)⟩] }
      backfill insert info name columns

def createKeyIndex (table : String) (column : Column) : DbM X Unit :=
  if column.primaryKey then createIndex insert ("pk_" ++ table ++ "_" ++ column.name) table [column.name] true
    else return

def createTable (name : String) (columns : List Column) : DbM X Unit := do
  let _ ← zoom (fun db => (db.txn, db.catalog)) (fun pair db => { db with txn := pair.1, catalog := pair.2 })
    (Catalog.createTable name columns)
  let db ← read
  persist db.catalog.byName.items.length
  forEach columns (createKeyIndex insert name)

/-- `heap_for`: SELECT binds a heap to a table once. -/
def heapFor (info : TableMeta) : DbM X Unit := do
  let db ← read
  if info.tableId ∈ db.heaps then
    return
  else
    let _ ← onTxn Heap.new
    modify fun db => { db with heaps := info.tableId :: db.heaps }

/-- The rows of a table that WHERE keeps, in the order of the source. -/
def sourceRows (scanned : IndexScan X → Except Exc (List Rid)) (info : TableMeta) (filter : Option (Expr X))
    (source : Source X) : DbM X (List (Row X)) :=
  onTxn (do filterRows info filter (← openSource scanned info source))

def select (table : String) (filter : Option (Expr X)) : DbM X (List (Row X)) := do
  let db ← read
  let info ← ofExcept (requireTable db.catalog table)
  let source ← ofExcept (planSource filter info (some db.indexes))
  heapFor info
  sourceRows IndexScan.rids info filter source

/-- `Database.execute`, as far as one session is concerned. -/
def executeWith : Statement X → DbM X (List (Row X))
  | .createTable name columns => do
    createTable insert name columns
    return []
  | .createIndex name table columns unique => do
    createIndex insert name table columns unique
    return []
  | .insert table columns values => do
    let db ← read
    let rows ← ofExcept (planInsert db.catalog table columns values)
    return [[.int (← insertRows table rows)]]
  | .select table filter => select table filter
  | .update table clauses filter => do
    let db ← read
    ofExcept (planUpdate db.catalog table clauses filter)
    return [[.int (← updateRows table clauses filter)]]
  | .delete table filter => do
    let db ← read
    ofExcept (planDelete db.catalog table filter)
    return [[.int (← deleteRows table filter)]]

abbrev execute : Statement X → DbM X (List (Row X)) := executeWith treeInsert

variable {insert} {table : String} {db db' : Database X} {result : List (Row X)} {filter : Option (Expr X)}

omit [Runtime X] in
/-- What plans first and answers with the number of rows. -/
theorem returns_counted {α : Type} {plan : Database X → Except Exc α} {run : α → DbM X ℕ} :
    (do
      let db ← read
      let planned ← ofExcept (plan db)
      return [[.int (← run planned)]] : DbM X (List (Row X))).Returns db result db' ↔
    ∃ planned n, plan db = .ok planned ∧ (run planned).Returns db n db' ∧ result = [[.int n]] := by
  rw [returns_read_bind]
  simp only [returns_bind, returns_ofExcept, returns_pure]
  constructor
  · rintro ⟨planned, _, ⟨plan, rfl⟩, n, _, returned, rfl, rfl⟩
    exact ⟨planned, n, plan, returned, rfl⟩
  · rintro ⟨planned, n, plan, returned, rfl⟩
    exact ⟨planned, db, ⟨plan, rfl⟩, n, db', returned, rfl, rfl⟩

theorem returns_execute_insert {columns : Option (List String)} {values : List (Row X)} :
    (executeWith insert (.insert table columns values)).Returns db result db' ↔ ∃ rows n,
      planInsert db.catalog table columns values = .ok rows ∧ (insertRows table rows).Returns db n db' ∧
      result = [[.int n]] :=
  returns_counted

theorem returns_execute_update {clauses : List (Assignment X)} :
    (executeWith insert (.update table clauses filter)).Returns db result db' ↔ ∃ n,
      planUpdate db.catalog table clauses filter = .ok () ∧ (updateRows table clauses filter).Returns db n db' ∧
        result = [[.int n]] :=
  returns_counted.trans ⟨fun ⟨_, n, updated⟩ => ⟨n, updated⟩, fun ⟨n, updated⟩ => ⟨(), n, updated⟩⟩

theorem returns_execute_delete :
    (executeWith insert (.delete table filter)).Returns db result db' ↔ ∃ n,
      planDelete db.catalog table filter = .ok () ∧ (deleteRows table filter).Returns db n db' ∧ result = [[.int n]] :=
  returns_counted.trans ⟨fun ⟨_, n, deleted⟩ => ⟨n, deleted⟩, fun ⟨n, deleted⟩ => ⟨(), n, deleted⟩⟩

end Tinydb.Executor
