import Tinydb.Storage.Heap
import Tinydb.Types.Value

/-! Tables and indexes by name (`storage/catalog.py`), as the running process holds them. -/

namespace Tinydb.Storage

open Lib Tinydb.Types Tx Program

structure TableMeta where
  tableId : ℕ
  name : String
  columns : List Column
  heapPid : ℕ
  deriving DecidableEq

def TableMeta.tags (info : TableMeta) : List TypeTag := info.columns.map (·.tag)

structure IndexMeta where
  name : String
  table : String
  columns : List String
  unique : Bool
  deriving DecidableEq

structure Catalog where
  byName : Dict String TableMeta
  nextTableId : ℕ

namespace Catalog

def new : Catalog := ⟨.empty, 1⟩

def getTable (catalog : Catalog) (name : String) : Except Exc TableMeta :=
  match catalog.byName.get? name with
  | some info => .ok info
  | none => .error ⟨.keyError, quoted name⟩

/-- Register a table with a fresh heap. The table number is used up even if the heap cannot be set up. -/
def createTable (name : String) (columns : List Column) : Program Exc (TransactionManager × Catalog) TableMeta := do
  let (_, catalog) ← read
  if (catalog.byName.get? name).isSome then
    raise ⟨.valueError, "table " ++ quoted name ++ " already exists"⟩
  else if columns = [] then
    raise ⟨.valueError, "table must have at least one column"⟩
  else
    modify fun (txn, catalog) => (txn, { catalog with nextTableId := catalog.nextTableId + 1 })
    let heapPid ← zoom Prod.fst (fun txn pair => (txn, pair.2)) Heap.new
    let info : TableMeta := ⟨catalog.nextTableId, name, columns, heapPid⟩
    modify fun (txn, catalog) => (txn, { catalog with byName := catalog.byName.set name info })
    return info

end Catalog

end Tinydb.Storage
