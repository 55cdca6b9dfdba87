import Tinydb.Index.Manager
import Tinydb.Lib.Joins

/-! Joins of two sources of rows (`executor/join.py`, `executor/physical.py`).

A row of a join is the left row followed by the right row. The nested loop evaluates
the ON condition on every pair; the indexed one looks the left row's key up in an index
of the right table first. Names are positions in the rows, qualified by an alias or
bare; a bare name that both sides have means the left side.

Rows of tables and the look-ups in indexes are taken from a snapshot.
-/

namespace Tinydb.Executor

open Lib Tinydb.Types Sql Storage Index
open Storage.Heap (Rid)

/-- A table or a join of the FROM clause. -/
inductive LogicalPlan (X : Type) where
  | tableRef (table : String) (aliasName : Option String)
  | join (left right : LogicalPlan X) (kind : JoinKind) (on : Option (Expr X)) (nullableRight : Bool)

inductive Plan (X : Type) where
  | seqScan (table : String)
  | nestedLoopJoin (left right : Plan X) (on : Option (Expr X)) (nullableRight : Bool)
      (aliasLeft aliasRight : Option String)
  | indexedNestedLoopJoin (left right : Plan X) (on : Option (Expr X)) (kind : JoinKind)
      (aliasLeft aliasRight : Option String) (rightTable rightIndex rightKeyColumn : String)
      (leftKeyAlias : Option String)

variable {X : Type}

def Plan.table : Plan X → String
  | seqScan table => table
  | nestedLoopJoin left .. => left.table
  | indexedNestedLoopJoin left .. => left.table

/-- What a query reads from. `search` is what `BTreeIndex.search` finds in an index, which need not be every entry of
the key. -/
structure Snapshot (X : Type) where
  catalog : Catalog
  rows : String → List (Rid × Row X)
  indexer : Option (List (LiveIndex X))
  search : LiveIndex X → Key X → List Rid

abbrev NameMap := Dict String ℕ

/-- `name_to_idx_for`. -/
def columnMap (columns : List Column) : NameMap := Dict.ofWrites (columns.zipIdx.map fun item => (item.1.name, item.2))

def leafMap (columns : List Column) (aliasName : Option String) : NameMap :=
  let bare := columns.zipIdx.map fun item => (item.1.name, item.2)
  match aliasName with
  | none => Dict.ofWrites bare
  | some aliasName => Dict.ofWrites (bare ++ columns.zipIdx.map fun item => (aliasName ++ "." ++ item.1.name, item.2))

def mapWidth (names : NameMap) : ℕ := (names.items.map fun item => item.2 + 1).foldl max 0

/-- The right names behind the left ones: a qualified name always counts, a bare one unless the left side has it. -/
def mergeMaps (left right : NameMap) : NameMap :=
  right.items.foldl (fun out item =>
    if '.' ∈ item.1.toList ∨ item.1 ∉ out.keys then out.set item.1 (item.2 + mapWidth left) else out) left

/-- `row_n2i_for_plan`. -/
def rowN2i (catalog : Catalog) : Plan X → Option String → Except Exc NameMap
  | .seqScan table, aliasName => do
    let info ← catalog.getTable table
    return leafMap info.columns aliasName
  | .nestedLoopJoin left right _ _ aliasLeft aliasRight, _
  | .indexedNestedLoopJoin left right _ _ aliasLeft aliasRight _ _ _ _, _ => do
    let leftNames ← rowN2i catalog left aliasLeft
    let rightNames ← rowN2i catalog right aliasRight
    return mergeMaps leftNames rightNames

/-- A column of the ON condition. -/
structure ColumnName where
  name : String
  table : Option String
  deriving DecidableEq

def ColumnName.expr (ref : ColumnName) : Expr X := .columnRef ref.name ref.table

/-- The position under the qualified name if the map has it, else under the bare name. -/
def resolve (names : NameMap) (ref : ColumnName) : Option ℕ :=
  match ref.table.bind fun table => names.get? (table ++ "." ++ ref.name) with
  | some i => some i
  | none => names.get? ref.name

/-- The two columns of a condition `a = b`. -/
def equality? : Option (Expr X) → Option (ColumnName × ColumnName)
  | some (.binaryOp .eq (.columnRef name table) (.columnRef name' table')) => some (⟨name, table⟩, ⟨name', table'⟩)
  | _ => none

/-- `_right_idx` of `_extract_join_keys_nested`. -/
def rightIdx (leftSize : ℕ) (rightNames : NameMap) (aliasRight : Option String) (ref : ColumnName) :
    Except Exc (Option ℕ) :=
  if ref.table.isSome ∧ ref.table = aliasRight then
    match rightNames.get? ref.name with
    | some i => .ok (some (i + leftSize))
    | none => .error ⟨.keyError, quoted ref.name⟩
  else .ok ((rightNames.get? ref.name).map (· + leftSize))

/-- `_extract_join_keys_nested`: the first operand is taken for the left column, the second for the right one. -/
def extractJoinKeysNested (on : Option (Expr X)) (leftNames rightNames : NameMap) (aliasRight : Option String) :
    Except Exc (Option (ℕ × ℕ)) :=
  match equality? on with
  | none => .ok none
  | some (first, second) => do
    let left := resolve leftNames first
    let right ← rightIdx leftNames.items.length rightNames aliasRight second
    return left.bind fun l => right.map fun r => (l, r)

variable [Runtime X]

def accepts (on : Option (Expr X)) (names : NameMap) (combined : Row X) : Except Exc Bool :=
  match on with
  | none => .ok true
  | some predicate => do return (← evalExpr names.get? combined predicate).truthy

def matching (on : Option (Expr X)) (names : NameMap) (left : Row X) : List (Row X) → Except Exc (List (Row X))
  | [] => .ok []
  | right :: rest => do
    let accepted ← accepts on names (left ++ right)
    let others ← matching on names left rest
    return if accepted then (left ++ right) :: others else others

def collectRows (rowsOf : Row X → Except Exc (List (Row X))) : List (Row X) → Except Exc (List (Row X))
  | [] => .ok []
  | left :: rest => do
    let here ← rowsOf left
    return here ++ (← collectRows rowsOf rest)

/-- `_right_row_with_nulls`. -/
def nulls (n : ℕ) : Row X := List.replicate n .none

def nestedRow (on : Option (Expr X)) (names : NameMap) (keep : Bool) (rightSize : ℕ)
    (rightRows : List (Row X)) (left : Row X) :
    Except Exc (List (Row X)) := do
  let found ← matching on names left rightRows
  return padded keep (left ++ nulls rightSize) found

/-- `_fetch_row`; a rid without a row is passed over. -/
def fetch (rows : List (Rid × Row X)) (rids : List Rid) : List (Row X) :=
  rids.filterMap fun rid => (rows.find? fun item => item.1 = rid).map Prod.snd

def indexedRow (on : Option (Expr X)) (names : NameMap) (keep : Bool) (rightSize : ℕ) (rightRows : List (Rid × Row X))
    (search : Key X → List Rid) (keyIdx : ℕ) (left : Row X) : Except Exc (List (Row X)) := do
  let key ← rowAt left keyIdx
  if key.isNone then
    return padded keep (left ++ nulls rightSize) []
  else
    let found ← matching on names left (fetch rightRows (search [key]))
    return padded keep (left ++ nulls rightSize) found

def openPlan (ctx : Snapshot X) : Plan X → Except Exc (List (Row X))
  | .seqScan table => do
    let _ ← ctx.catalog.getTable table
    return (ctx.rows table).map Prod.snd
  | .nestedLoopJoin left right on nullableRight aliasLeft aliasRight => do
    let names ← rowN2i ctx.catalog (.nestedLoopJoin left right on nullableRight aliasLeft aliasRight) none
    let info ← ctx.catalog.getTable right.table
    let rightRows ← openPlan ctx right
    let leftRows ← openPlan ctx left
    collectRows (nestedRow on names nullableRight (columnMap info.columns).items.length rightRows) leftRows
  | .indexedNestedLoopJoin left right on kind aliasLeft aliasRight rightTable rightIndex rightKeyColumn leftKeyAlias =>
    do
    let info ← ctx.catalog.getTable right.table
    match ctx.indexer.bind fun indexes => indexes.find? fun index => index.info.name = rightIndex with
    | none => return []
    | some index =>
      let rightInfo ← ctx.catalog.getTable rightTable
      if rightKeyColumn ∉ rightInfo.columns.map (·.name) then
        throw ⟨.valueError, quoted rightKeyColumn ++ " is not in list"⟩
      let leftNames ← rowN2i ctx.catalog left leftKeyAlias
      let names ← rowN2i ctx.catalog (.indexedNestedLoopJoin left right on kind aliasLeft aliasRight
        rightTable rightIndex rightKeyColumn leftKeyAlias) none
      match ← extractJoinKeysNested on leftNames (columnMap info.columns) aliasRight with
      | none => return []
      | some (keyIdx, _) =>
        let leftRows ← openPlan ctx left
        collectRows (indexedRow on names (kind = .left) (columnMap info.columns).items.length (ctx.rows rightTable)
          (ctx.search index) keyIdx) leftRows

omit [Runtime X]

/-- `_require_table`. -/
def requireTable (catalog : Catalog) (name : String) : Except Exc TableMeta :=
  match catalog.byName.get? name with
  | some info => .ok info
  | none => .error ⟨.unknownTableError, name⟩

def LogicalPlan.aliasName : LogicalPlan X → Option String
  | tableRef table none => some table
  | tableRef table (some aliasName) => some (if aliasName = "" then table else aliasName)
  | join .. => none

structure IndexJoinPlan where
  index : String
  keyColumn : String
  leftAlias : Option String

/-- `_ref_belongs_to`: a bare column is taken for one of the left side. -/
def belongsTo (table : String) (aliasName : Option String) (ref : ColumnName) : Bool :=
  match ref.table with
  | none => false
  | some owner => (aliasName.isSome && aliasName = some owner) || owner = table

/-- Which operand is the right table's column, and under which alias the left one goes. -/
def splitRefs (table : String) (aliasName aliasLeft : Option String) (first second : ColumnName) :
    Option (String × Option String) :=
  if belongsTo table aliasName second then some (second.name, first.table <|> aliasLeft)
  else if belongsTo table aliasName first then some (first.name, second.table <|> aliasLeft)
  else none

/-- `_try_indexed_join`. -/
def tryIndexedJoin (right : LogicalPlan X) (on : Option (Expr X)) (catalog : Catalog) (indexes : List (LiveIndex X))
    (aliasLeft : Option String) : Except Exc (Option IndexJoinPlan) :=
  match equality? on, right with
  | some (first, second), .tableRef table aliasName => do
    let info ← requireTable catalog table
    return (splitRefs table aliasName aliasLeft first second).bind fun (keyColumn, leftAlias) =>
      (indexes.find? fun index => index.info.table = info.name ∧ index.info.columns = [keyColumn]).map fun index =>
        ⟨index.info.name, keyColumn, leftAlias⟩
  | _, _ => .ok none

/-- `emit_physical`. -/
def emitPhysical (catalog : Catalog) (indexer : Option (List (LiveIndex X))) : LogicalPlan X → Except Exc (Plan X)
  | .tableRef table _ => do
    let info ← requireTable catalog table
    return .seqScan info.name
  | .join left right kind on nullableRight => do
    let leftPlan ← emitPhysical catalog indexer left
    let rightPlan ← emitPhysical catalog indexer right
    let rightInfo ← requireTable catalog rightPlan.table
    let chosen ← indexer.elim (.ok none) fun indexes => tryIndexedJoin right on catalog indexes left.aliasName
    match chosen with
    | some plan =>
      return .indexedNestedLoopJoin leftPlan rightPlan on kind left.aliasName right.aliasName rightInfo.name
        plan.index plan.keyColumn plan.leftAlias
    | none => return .nestedLoopJoin leftPlan rightPlan on nullableRight left.aliasName right.aliasName

end Tinydb.Executor
