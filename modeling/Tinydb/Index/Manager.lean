import Tinydb.Executor.EvalExpr
import Tinydb.Storage.Catalog
import Tinydb.Types.Codec

/-! The indexes of a database, what their trees hold and the hooks DML calls on them (`index/btree.py`,
`index/manager.py`).

Of a tree only the entries are kept, in leaf order. An entry goes behind the last one that is not
greater, and every change rewrites the leaf, so a key that cannot be encoded is found out after it
went into the leaf. A key with a NULL in it is never indexed and never clashes.
-/

namespace Tinydb.Index

open Lib Tinydb.Types Storage Heap Executor Program

abbrev Key (X : Type) := List (Value X)

namespace Key

variable {X : Type}

/-- `_key_contains_none`. -/
def containsNone (key : Key X) : Bool := key.any (·.isNone)

variable [Runtime X]

def eq : Key X → Key X → Bool
  | [], [] => true
  | a :: as, b :: bs => a.eq b && eq as bs
  | _, _ => false

def tupleOrder (op : Order) : Key X → Key X → Except Exc Bool
  | [], [] => .ok (op.decideBy false true)
  | [], _ :: _ => .ok (op.decideBy true false)
  | _ :: _, [] => .ok (op.decideBy false false)
  | a :: as, b :: bs => if a.eq b then tupleOrder op as bs else a.order op b

def order (op : Order) : Key X → Key X → Except Exc Bool
  | [a], [b] => a.order op b
  | as, bs => tupleOrder op as bs

def repr : Key X → String
  | [a] => Runtime.repr a
  | as => "(" ++ ", ".intercalate (as.map Runtime.repr) ++ ")"

def encode (tag : TypeTag) : Key X → Except Exc Bytes
  | [a] => encodeValue a tag
  | as => do return TypeTag.json.byte :: (← lengthPrefixed (utf8 (← Runtime.tupleDumps as)))

end Key

abbrev Entry (X : Type) := Key X × Rid

structure BTree (X : Type) where
  keyType : TypeTag
  entries : List (Entry X)

namespace BTree

variable {X : Type}

def new (keyType : TypeTag) : BTree X := ⟨keyType, []⟩

variable [Runtime X]

/-- The rids of every entry under `key`, in leaf order. The pages give fewer once a split cut between equal keys. -/
def search (tree : BTree X) (key : Key X) : List Rid := (tree.entries.filter fun entry => entry.1.eq key).map Prod.snd

def holds (op : Order) (a b : Key X) : Bool :=
  match a.order op b with
  | .ok answer => answer
  | .error _ => false

def raisesOrHolds (op : Order) (a b : Key X) : Bool :=
  match a.order op b with
  | .ok answer => answer
  | .error _ => true

/-- The rids with a key from `lo` to `hi`; a comparison that raises ends the range. -/
def range (tree : BTree X) (lo hi : Key X) : List Rid :=
  if raisesOrHolds .gt lo hi then []
  else (tree.entries.filter fun entry => holds .ge entry.1 lo && holds .le entry.1 hi).map Prod.snd

/-- How many leading entries stand in the relation to `key`. -/
def bound (op : Order) : List (Entry X) → Key X → Except Exc ℕ
  | [], _ => .ok 0
  | entry :: rest, key => do
    if ← entry.1.order op key then return (← bound op rest key) + 1 else return 0

/-- `_lower_bound` and `_upper_bound` on a leaf in key order. -/
def lowerBound : List (Entry X) → Key X → Except Exc ℕ := bound .lt

def upperBound : List (Entry X) → Key X → Except Exc ℕ := bound .le

/-- `_write_leaf`: every key of the leaf is encoded again. -/
def write : Program Exc (BTree X) Unit := do
  let tree ← read
  forEach tree.entries fun entry => do
    let encoded ← ofExcept (entry.1.encode tree.keyType)
    if encoded.length > 0xFFFF then
      raise ⟨.valueError, "encoded key too long: " ++ toString encoded.length ++ " bytes (max 65535)"⟩
    else
      return

def insert (key : Key X) (rid : Rid) : Program Exc (BTree X) Unit := do
  let tree ← read
  let pos ← ofExcept (upperBound tree.entries key)
  modify fun tree => { tree with entries := tree.entries.take pos ++ (key, rid) :: tree.entries.drop pos }
  write

/-- The entries without the first one for `key` and `rid`. -/
def without (entries : List (Entry X)) (key : Key X) (rid : Rid) : List (Entry X) :=
  entries.eraseP fun entry => entry.1.eq key && entry.2 = rid

def delete (key : Key X) (rid : Rid) : Program Exc (BTree X) Unit := do
  let tree ← read
  let _ ← ofExcept (lowerBound tree.entries key)
  let _ ← ofExcept (upperBound tree.entries key)
  if tree.entries.any fun entry => entry.1.eq key && entry.2 = rid then
    modify fun tree => { tree with entries := without tree.entries key rid }
    write
  else
    return

end BTree

structure LiveIndex (X : Type) where
  info : IndexMeta
  tree : BTree X

variable {X : Type} [Runtime X]

/-- `_indexed_key_type`. -/
def indexedKeyType (table : TableMeta) (columns : List String) : TypeTag :=
  match columns with
  | [name] => ((nameToIdx table.columns name).bind (table.columns[·]?)).elim .null (·.tag)
  | _ => .json

def keyColumn (table : TableMeta) (row : Row X) (name : String) : Except Exc (Value X) :=
  match nameToIdx table.columns name with
  | some i => rowAt row i
  | none => .error ⟨.keyError, quoted name⟩

/-- `_extract_key`. -/
def extractKey (table : TableMeta) (row : Row X) : List String → Except Exc (Key X)
  | [] => .ok []
  | name :: names => do
    let value ← keyColumn table row name
    return value :: (← extractKey table row names)

def violation (index : LiveIndex X) (key : Key X) : Exc :=
  ⟨.constraintViolation, "UNIQUE constraint violated on " ++ quoted index.info.table ++ "." ++
    ".".intercalate index.info.columns ++ ": duplicate key " ++ key.repr⟩

/-- `check_unique` on one index. -/
def checkIndex (table : TableMeta) (row : Row X) (index : LiveIndex X) : Except Exc Unit :=
  if index.info.table = table.name ∧ index.info.unique then do
    let key ← extractKey table row index.info.columns
    if key.containsNone ∨ index.tree.search key = [] then return else throw (violation index key)
  else
    .ok ()

def checkUnique (table : TableMeta) (row : Row X) : List (LiveIndex X) → Except Exc Unit
  | [] => .ok ()
  | index :: indexes => do
    checkIndex table row index
    checkUnique table row indexes

def onTree {α : Type} (p : Program Exc (BTree X) α) : Program Exc (LiveIndex X) α :=
  zoom (·.tree) (fun tree index => { index with tree }) p

/-- `on_insert` on one index. -/
def insertInto (table : TableMeta) (rid : Rid) (row : Row X) : Program Exc (LiveIndex X) Unit := do
  let index ← read
  if index.info.table ≠ table.name then
    return
  else
    let key ← ofExcept (extractKey table row index.info.columns)
    if key.containsNone then
      return
    else if index.info.unique ∧ index.tree.search key ≠ [] then
      raise (violation index key)
    else
      onTree (BTree.insert key rid)

/-- `on_delete` on one index. -/
def deleteFrom (table : TableMeta) (rid : Rid) (row : Row X) : Program Exc (LiveIndex X) Unit := do
  let index ← read
  if index.info.table ≠ table.name then
    return
  else
    let key ← ofExcept (extractKey table row index.info.columns)
    if key.containsNone then return else onTree (BTree.delete key rid)

def onInsert (table : TableMeta) (rid : Rid) (row : Row X) : Program Exc (List (LiveIndex X)) Unit :=
  each (insertInto table rid row)

def onDelete (table : TableMeta) (rid : Rid) (row : Row X) : Program Exc (List (LiveIndex X)) Unit :=
  each (deleteFrom table rid row)

end Tinydb.Index
