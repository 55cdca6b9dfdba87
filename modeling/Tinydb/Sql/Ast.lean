import Tinydb.Types.Value

/-! Syntax trees of statements and expressions (`sql/ast.py`). -/

namespace Tinydb.Executor

inductive JoinKind where
  | inner | left
  deriving DecidableEq, Repr

end Tinydb.Executor

namespace Tinydb.Sql

open Tinydb.Types

inductive BinOp where
  | and | or | eq | ne
  | order (op : Order)
  | arith (op : Arith)
  deriving DecidableEq, Repr

inductive UnOp where
  | not | isNull | isNotNull | neg
  deriving DecidableEq, Repr

inductive Expr (X : Type) where
  | literal (value : Value X)
  | typedLiteral (tag : TypeTag) (value : Value X)
  | columnRef (name : String) (table : Option String)
  | binaryOp (op : BinOp) (left right : Expr X)
  | unaryOp (op : UnOp) (operand : Expr X)
  | aggregate (func column : String)
  deriving DecidableEq

structure Assignment (X : Type) where
  column : String
  value : Expr X
  deriving DecidableEq

/-- An entry of the select list. -/
inductive SelectItem (X : Type) where
  | star
  | expr (e : Expr X)
  deriving DecidableEq

structure OrderBy where
  column : String
  descending : Bool
  deriving DecidableEq, Repr

/-- What a SELECT without grouping does with the rows of its source. -/
structure Clauses (X : Type) where
  columns : List (SelectItem X)
  orderBy : List OrderBy
  limit : Option ℤ
  offset : Option ℤ

/-- What a FROM clause names. -/
inductive TableRef (X : Type) where
  | table (name : String) (aliasName : Option String)
  | join (left right : TableRef X) (kind : Executor.JoinKind) (on : Option (Expr X))
      (columns : List String) (nullableRight : Bool)
  deriving DecidableEq

structure Select (X : Type) where
  columns : List (SelectItem X)
  source : TableRef X
  filter : Option (Expr X)
  orderBy : List OrderBy
  limit : Option ℤ
  offset : Option ℤ
  groupBy : List String
  deriving DecidableEq

/-- The statements of the grammar. -/
inductive Parsed (X : Type) where
  | createTable (name : String) (columns : List Column)
  | dropTable (name : String) (ifExists : Bool)
  | createIndex (name table : String) (columns : List String) (unique : Bool)
  | insert (table : String) (columns : Option (List String)) (values : List (Row X))
  | select (stmt : Select X)
  | update (table : String) (setClauses : List (Assignment X)) (filter : Option (Expr X))
  | delete (table : String) (filter : Option (Expr X))
  deriving DecidableEq

/-- The statements on a single table. A SELECT is kept as far as its source of rows. -/
inductive Statement (X : Type) where
  | createTable (name : String) (columns : List Column)
  | createIndex (name table : String) (columns : List String) (unique : Bool)
  | insert (table : String) (columns : Option (List String)) (values : List (Row X))
  | select (table : String) (filter : Option (Expr X))
  | update (table : String) (setClauses : List (Assignment X)) (filter : Option (Expr X))
  | delete (table : String) (filter : Option (Expr X))

end Tinydb.Sql
