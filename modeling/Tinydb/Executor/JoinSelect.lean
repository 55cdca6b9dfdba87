import Tinydb.Executor.Projection

/-! A SELECT over joined tables (`executor/logical.py`, `executor/physical.py`).

The FROM clause is a table and the tables joined to it one after the other. Names are checked
against the aliases before a plan is made; the select list is turned into labels by bare
names, with the names of all joined tables in one list.
-/

namespace Tinydb.Executor

open Lib Tinydb.Types Sql Storage Index
open Storage.Heap (Rid)

structure FromTable where
  table : String
  aliasName : Option String
  deriving DecidableEq, Repr

/-- `kind JOIN right ON on`. -/
structure JoinClause (X : Type) where
  kind : JoinKind
  right : FromTable
  on : Expr X

/-- A SELECT over ON-joins without aggregates and GROUP BY. -/
structure JoinSelect (X : Type) where
  first : FromTable
  joins : List (JoinClause X)
  filter : Option (Expr X)
  clauses : Clauses X

namespace JoinSelect

variable {X : Type}

def tables (stmt : JoinSelect X) : List FromTable := stmt.first :: stmt.joins.map (·.right)

end JoinSelect

def FromTable.plan {X : Type} (source : FromTable) : LogicalPlan X := .tableRef source.table source.aliasName

/-- `_emit_from`: every join has all that came before it on its left side. -/
def emitFrom {X : Type} (first : FromTable) (joins : List (JoinClause X)) : LogicalPlan X :=
  joins.foldl (fun left clause => .join left clause.right.plan clause.kind (some clause.on) (clause.kind = .left))
  first.plan

variable {X : Type}

/-- `build_alias_map`. -/
def buildAliasMap (tables : List FromTable) : Dict String String :=
  Dict.ofWrites (tables.map fun source => (source.aliasName.getD source.table, source.table))

def aliasedTables (tables : List FromTable) : List String := (tables.filter (·.aliasName.isSome)).map (·.table)

/-- `_build_catalog_owner`: every column of the joined tables with its table. A table that does not exist is passed
over. -/
def columnOwners (catalog : Catalog) (tables : List FromTable) : List (String × String) :=
  tables.flatMap fun source =>
    match (buildAliasMap tables).get? (source.aliasName.getD source.table) with
    | none => []
    | some canonical =>
      match catalog.getTable canonical with
      | .error _ => []
      | .ok info => info.columns.map fun column => (column.name, canonical)

/-- `_walk_expr` of the logical planner. -/
def validateColumns (tables : List FromTable) (owners : List (String × String)) : Expr X → Except Exc Unit
  | .columnRef _ (some table) =>
    match (buildAliasMap tables).get? table with
    | none =>
      if table ∈ owners.map Prod.fst ∨ table ∈ owners.map Prod.snd then
        if table ∈ aliasedTables tables then
          .error ⟨.bareColumnNotAliasedError,
            "table " ++ quoted table ++ " is aliased; use the alias, not the original name"⟩
        else .ok ()
      else .error ⟨.unknownAliasError, "unknown table alias " ++ quoted table⟩
    | some canonical =>
      if canonical ∈ aliasedTables tables ∧ table = canonical then
        .error ⟨.bareColumnNotAliasedError,
          "table " ++ quoted canonical ++ " is aliased; use the alias, not the original name"⟩
      else .ok ()
  | .columnRef name none =>
    if ((owners.filter (·.1 = name)).map Prod.snd).dedup.length > 1 then
      .error ⟨.ambiguousColumnError, "column " ++ quoted name ++
        " is ambiguous across JOINed tables; qualify with table alias"⟩
    else .ok ()
  | .binaryOp _ left right => do
    validateColumns tables owners left
    validateColumns tables owners right
  | _ => .ok ()

def validateItems (tables : List FromTable) (owners : List (String × String)) : List (SelectItem X) → Except Exc Unit
  | [] => .ok ()
  | .expr (.columnRef name table) :: items => do
    validateColumns tables owners (.columnRef name table : Expr X)
    validateItems tables owners items
  | _ :: items => validateItems tables owners items

/-- `emit_logical`. -/
def emitLogical (catalog : Catalog) (stmt : JoinSelect X) : Except Exc (LogicalPlan X) := do
  let owners := columnOwners catalog stmt.tables
  match stmt.filter with
  | none => pure ()
  | some predicate => validateColumns stmt.tables owners predicate
  validateItems stmt.tables owners stmt.clauses.columns
  return emitFrom stmt.first stmt.joins

def joinedNames (catalog : Catalog) (tables : List FromTable) : Except Exc (List String) := do
  let infos ← tables.mapM fun source => requireTable catalog source.table
  return infos.flatMap columnNames

variable [Runtime X]

/-- `_plan_select` for a join. -/
def planJoinSelect (catalog : Catalog) (indexer : Option (List (LiveIndex X))) (stmt : JoinSelect X) :
    Except Exc (Plan X × List String) := do
  let logical ← emitLogical catalog stmt
  let plan ← emitPhysical catalog indexer logical
  let names ← joinedNames catalog stmt.tables
  match stmt.filter with
  | none => pure ()
  | some predicate => walkExpr names predicate
  return (plan, joinProjectionColumns names stmt.clauses.columns)

/-- `Filter` above a join. -/
def filterJoined (names : NameMap) (filter : Option (Expr X)) (rows : List (Row X)) : Except Exc (List (Row X)) := do
  let answers ← rows.mapM fun row => do return (row, ← accepts filter names row)
  return (answers.filter Prod.snd).map Prod.fst

def selectJoin (ctx : Snapshot X) (stmt : JoinSelect X) : Except Exc (List (Row X)) := do
  let (plan, labels) ← planJoinSelect ctx.catalog ctx.indexer stmt
  let names ← rowN2i ctx.catalog plan none
  let rows ← openPlan ctx plan
  let kept ← filterJoined names stmt.filter rows
  answer names.get? plan.table labels stmt.clauses kept

end Tinydb.Executor
