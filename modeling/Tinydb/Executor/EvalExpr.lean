import Tinydb.Lib.Program
import Tinydb.Sql.Ast

/-! Expressions over a decoded row (`executor/eval_expr.py`). -/

namespace Tinydb.Executor

open Lib Tinydb.Types Sql

variable {X : Type} [Runtime X]

/-- The positions of column names in a row. -/
abbrev NameIdx := String → Option ℕ

/-- `name_to_idx`: the position of a column; of two columns with one name the later one. -/
def nameToIdx : List Column → String → Option ℕ
  | [], _ => none
  | column :: columns, name =>
    match nameToIdx columns name with
    | some i => some (i + 1)
    | none => if column.name = name then some 0 else none

theorem nameToIdx_isSome {columns : List Column} {name : String} :
    (nameToIdx columns name).isSome ↔ ∃ column ∈ columns, column.name = name := by
  induction columns with
  | nil => simp [nameToIdx]
  | cons column columns ih =>
    rw [nameToIdx]
    cases later : nameToIdx columns name with
    | some j =>
      obtain ⟨here, member, same⟩ := ih.mp (by rw [later]; rfl)
      exact ⟨fun _ => ⟨here, List.mem_cons_of_mem _ member, same⟩, fun _ => rfl⟩
    | none =>
      have absent : ∀ other ∈ columns, other.name ≠ name := fun other member same => by
        have := ih.mpr ⟨other, member, same⟩
        rw [later] at this
        cases this
      by_cases same : column.name = name
      · simp [same]
      · simpa [same] using absent

/-- `row[i]`. -/
def rowAt (row : Row X) (i : ℕ) : Except Exc (Value X) :=
  match row[i]? with
  | some value => .ok value
  | none => .error ⟨.indexError, "tuple index out of range"⟩

/-- `_eq`. -/
def sqlEq (a b : Value X) : Bool :=
  if a.isNone || b.isNone then a.isNone && b.isNone else a.eq b

/-- A column under its qualified name if the map has it, else under its bare name. -/
def evalColumn (index : NameIdx) (row : Row X) (name : String) (table : Option String) : Except Exc (Value X) :=
  match table.bind fun table => index (table ++ "." ++ name) with
  | some i => rowAt row i
  | none =>
    match index name with
    | some i => rowAt row i
    | none => .error ⟨.unknownColumnError, name⟩

def strictly (left right : Value X) (result : Except Exc (Value X)) : Except Exc (Value X) :=
  if left.isNone || right.isNone then .ok .none else result

/-- The map from names to positions is the caller's: of one table, or of the rows of a join. -/
def evalExpr (index : NameIdx) (row : Row X) : Expr X → Except Exc (Value X)
  | .literal value => .ok value
  | .typedLiteral _ value => .ok value
  | .columnRef name table => evalColumn index row name table
  | .binaryOp .and left right => do
    let left ← evalExpr index row left
    if left.truthy then evalExpr index row right else return left
  | .binaryOp .or left right => do
    let left ← evalExpr index row left
    if left.truthy then return left else evalExpr index row right
  | .binaryOp .eq left right => do
    let left ← evalExpr index row left
    let right ← evalExpr index row right
    return .bool (sqlEq left right)
  | .binaryOp .ne left right => do
    let left ← evalExpr index row left
    let right ← evalExpr index row right
    return .bool (!sqlEq left right)
  | .binaryOp (.order op) left right => do
    let left ← evalExpr index row left
    let right ← evalExpr index row right
    strictly left right (do return .bool (← left.order op right))
  | .binaryOp (.arith op) left right => do
    let left ← evalExpr index row left
    let right ← evalExpr index row right
    strictly left right (left.arith op right)
  | .unaryOp .isNull operand => do
    let value ← evalExpr index row operand
    return .bool value.isNone
  | .unaryOp .isNotNull operand => do
    let value ← evalExpr index row operand
    return .bool !value.isNone
  | .unaryOp .not operand => do
    let value ← evalExpr index row operand
    return .bool !value.truthy
  | .unaryOp .neg _ => .error ⟨.notImplementedError, "unsupported unary op: '-'"⟩
  | .aggregate func _ =>
    .error ⟨.notImplementedError, "aggregate " ++ func ++ " is not implemented in T-5.2"⟩

def keeps (columns : List Column) (filter : Option (Expr X)) (row : Row X) : Except Exc Bool :=
  match filter with
  | none => .ok true
  | some predicate => do return (← evalExpr (nameToIdx columns) row predicate).truthy

end Tinydb.Executor
