import Tinydb.Index.Manager

/-! Serving a WHERE clause from an index (`executor/index_plan.py`, `executor/planner.py`,
`executor/index_scan.py`).

The matcher takes one bound on one column, or a conjunction of bounds on the same
column, and does not look at which side of a comparison the column stands. The
planner turns what it finds into a range of the index.
-/

namespace Tinydb.Executor

open Lib Tinydb.Types Sql Storage Heap Index

variable {X : Type}

inductive BoundOp where
  | eq
  | order (op : Order)
  deriving DecidableEq, Repr

namespace BoundOp

def isLower : BoundOp → Bool
  | order .gt | order .ge => true
  | _ => false

def isUpper : BoundOp → Bool
  | order .lt | order .le => true
  | _ => false

def isClosed : BoundOp → Bool
  | eq | order .ge | order .le => true
  | _ => false

def ofBinOp : BinOp → Option BoundOp
  | .eq => some eq
  | .order op => some (order op)
  | _ => none

end BoundOp

structure Bound (X : Type) where
  op : BoundOp
  value : Value X
  deriving DecidableEq

/-- `hi` is the second bound of a conjunction. -/
structure IndexablePredicate (X : Type) where
  column : String
  lo : Bound X
  hi : Option (Bound X)
  deriving DecidableEq

def literalValue : Expr X → Option (Value X)
  | .literal value | .typedLiteral _ value => some value
  | _ => none

def knownColumn (known : List String) : Expr X → Option String
  | .columnRef name _ => if name ∈ known then some name else none
  | _ => none

/-- `_split_col_lit`: the operator is not turned round when the literal stands first. -/
def splitColLit (known : List String) (left right : Expr X) : Option (String × Value X) :=
  match knownColumn known left, literalValue right with
  | some column, some value => some (column, value)
  | _, _ =>
    match knownColumn known right, literalValue left with
    | some column, some value => some (column, value)
    | _, _ => none

def singleBound (known : List String) : Expr X → Option (IndexablePredicate X)
  | .binaryOp op left right => do
    let op ← BoundOp.ofBinOp op
    let (column, value) ← splitColLit known left right
    if value.isNone then none else some ⟨column, ⟨op, value⟩, none⟩
  | _ => none

variable [Runtime X]

def pick {α : Type} (test : Except Exc Bool) (yes no : α) : Except Exc α := do
  if ← test then return yes else return no

/-- `_tighter_lower`. -/
def tighterLower (a b : IndexablePredicate X) : Except Exc (IndexablePredicate X) := do
  if ← a.lo.value.order .gt b.lo.value then
    return a
  else
    pick (b.lo.value.order .gt a.lo.value) b (if a.lo.op = .order .gt then a else b)

/-- `_tighter_upper`. -/
def tighterUpper (a b : IndexablePredicate X) : Except Exc (IndexablePredicate X) := do
  if ← a.lo.value.order .lt b.lo.value then
    return a
  else
    pick (b.lo.value.order .lt a.lo.value) b (if a.lo.op = .order .lt then a else b)

def mergeLower (a b : IndexablePredicate X) : Except Exc (IndexablePredicate X) :=
  if a.lo.op = .order .gt ∧ b.lo.op = .order .ge then pick (a.lo.value.order .ge b.lo.value) a b
  else if a.lo.op = .order .ge ∧ b.lo.op = .order .gt then pick (b.lo.value.order .ge a.lo.value) b a
  else tighterLower a b

def mergeUpper (a b : IndexablePredicate X) : Except Exc (IndexablePredicate X) :=
  if a.lo.op = .order .lt ∧ b.lo.op = .order .le then pick (a.lo.value.order .le b.lo.value) a b
  else if a.lo.op = .order .le ∧ b.lo.op = .order .lt then pick (b.lo.value.order .le a.lo.value) b a
  else tighterUpper a b

def mergeSameColumn (a b : IndexablePredicate X) : Except Exc (IndexablePredicate X) :=
  if a.lo.op.isLower ∧ b.lo.op.isUpper then .ok ⟨a.column, a.lo, some b.lo⟩
  else if a.lo.op.isUpper ∧ b.lo.op.isLower then .ok ⟨b.column, b.lo, some a.lo⟩
  else if a.lo.op.isLower ∧ b.lo.op.isLower then mergeLower a b
  else if a.lo.op.isUpper ∧ b.lo.op.isUpper then mergeUpper a b
  else .ok ⟨a.column, a.lo, some b.lo⟩

def extractIndexable (known : List String) : Expr X → Except Exc (Option (IndexablePredicate X))
  | .binaryOp .and left right => do
    let left ← extractIndexable known left
    let right ← extractIndexable known right
    match left, right with
    | some a, some b => if a.column = b.column then return some (← mergeSameColumn a b) else return none
    | _, _ => return none
  | other => .ok (singleBound known other)

/-- A range of an index; a missing end is open. The index stands for its name. -/
structure IndexScan (X : Type) where
  index : LiveIndex X
  lo : Option (Value X)
  hi : Option (Value X)
  loInclusive : Bool
  hiInclusive : Bool

inductive Source (X : Type) where
  | seqScan
  | indexScan (scan : IndexScan X)

def columnNames (info : TableMeta) : List String := info.columns.map (·.name)

/-- `_walk_expr`. -/
def walkExpr (known : List String) : Expr X → Except Exc Unit
  | .columnRef name _ => if name ∈ known then .ok () else .error ⟨.unknownColumnError, name⟩
  | .binaryOp _ left right => do
    walkExpr known left
    walkExpr known right
  | _ => .ok ()

def findIndexForColumn (info : TableMeta) (column : String) (indexes : List (LiveIndex X)) : Option (LiveIndex X) :=
  indexes.find? fun index => index.info.table = info.name ∧ index.info.columns = [column]

def boundsOf (predicate : IndexablePredicate X) (index : LiveIndex X) : IndexScan X :=
  match predicate.hi with
  | none =>
    if predicate.lo.op = .eq then ⟨index, some predicate.lo.value, some predicate.lo.value, true, true⟩
    else ⟨index, some predicate.lo.value, none, predicate.lo.op.isClosed, true⟩
  | some hi => ⟨index, some predicate.lo.value, some hi.value, predicate.lo.op.isClosed, hi.op.isClosed⟩

/-- `_try_index_plan`. -/
def tryIndexPlan (predicate : Expr X) (info : TableMeta) (indexer : Option (List (LiveIndex X))) :
    Except Exc (Option (IndexScan X)) := do
  match ← extractIndexable (columnNames info) predicate, indexer with
  | some found, some indexes =>
    return (findIndexForColumn info found.column indexes).map (boundsOf found)
  | _, _ => return none

def planSource (filter : Option (Expr X)) (info : TableMeta) (indexer : Option (List (LiveIndex X))) :
    Except Exc (Source X) :=
  match filter with
  | none => .ok .seqScan
  | some predicate => do
    walkExpr (columnNames info) predicate
    match ← tryIndexPlan predicate info indexer with
    | some found => return .indexScan found
    | none => return .seqScan

def passesLo (lo : Option (Value X)) (inclusive : Bool) (key : Key X) : Except Exc Bool :=
  match lo with
  | none => .ok true
  | some lo => key.order (if inclusive then .ge else .gt) [lo]

def isPastHi (hi : Option (Value X)) (inclusive : Bool) (key : Key X) : Except Exc Bool :=
  match hi with
  | none => .ok false
  | some hi => key.order (if inclusive then .gt else .ge) [hi]

namespace IndexScan

/-- The loop over the leaves, from the first entry that is not below `lo`. -/
def walk (scan : IndexScan X) : List (Entry X) → Except Exc (List Rid)
  | [] => .ok []
  | (key, rid) :: rest => do
    if ← isPastHi scan.hi scan.hiInclusive key then
      return []
    else if ← passesLo scan.lo scan.loInclusive key then
      return rid :: (← walk scan rest)
    else
      walk scan rest

def start (scan : IndexScan X) : Except Exc ℕ :=
  match scan.lo with
  | none => .ok 0
  | some lo => BTree.lowerBound scan.index.tree.entries [lo]

/-- `_walk_leaves`. -/
def walkLeaves (scan : IndexScan X) : Except Exc (List Rid) := do
  let start ← scan.start
  scan.walk (scan.index.tree.entries.drop start)

/-- Equality goes to `search`, a closed range to `range`, everything else walks the leaves. -/
def rids (scan : IndexScan X) : Except Exc (List Rid) :=
  match scan.lo, scan.hi with
  | some lo, some hi =>
    if scan.loInclusive ∧ scan.hiInclusive then
      .ok (if lo.eq hi then scan.index.tree.search [lo] else scan.index.tree.range [lo] [hi])
    else
      scan.walkLeaves
  | _, _ => scan.walkLeaves

end IndexScan

end Tinydb.Executor
