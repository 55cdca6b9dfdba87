import Mathlib.Algebra.BigOperators.Group.List.Basic
import Tinydb.Executor.SortOrder
import Tinydb.Lib.Grouping

/-! Aggregates and GROUP BY (`executor/aggregate.py`).

One pass over the rows keeps, for every combination of key values, one accumulator per
aggregate. What comes out is read off the groups: the key, then the aggregates over the
rows of the group, which for INT and TEXT columns are those of their definitions.
-/

namespace Tinydb.Executor

open Lib Tinydb.Types Sql List

variable {X : Type} [Runtime X] {index : NameIdx} {aggregates : List (String × String)} {keys : List String}
  {rows members : List (Row X)}

/-- `_new_state`. -/
structure AggState (X : Type) where
  count : ℕ
  sum : Value X
  min : Value X
  max : Value X

def newState : AggState X := ⟨0, .none, .none, .none⟩

/-- `min(a, b)`. -/
def pyMin (a b : Value X) : Except Exc (Value X) := do
  if ← b.order .lt a then return b else return a

/-- `max(a, b)`. -/
def pyMax (a b : Value X) : Except Exc (Value X) := do
  if ← b.order .gt a then return b else return a

/-- The first value, then the choice between what was kept and the next value. -/
def better (choose : Value X → Value X → Except Exc (Value X)) (old value : Value X) : Except Exc (Value X) :=
  if old.isNone then .ok value else choose old value

/-- `_accumulate`; there is no value for `*`. -/
def accumulate (func : String) (value : Option (Value X)) (state : AggState X) : Except Exc (AggState X) :=
  if func = "COUNT" then
    if value.any Value.isNone then .ok state else .ok { state with count := state.count + 1 }
  else
    match value with
    | none => .ok state
    | some value =>
      if value.isNone then .ok state
      else if func = "SUM" ∨ func = "AVG" then do
        let sum ← (if state.sum.truthy then state.sum else .int 0).arith .add value
        return { state with count := state.count + 1, sum := sum }
      else if func = "MIN" then do
        return { state with min := ← better pyMin state.min value }
      else if func = "MAX" then do
        return { state with max := ← better pyMax state.max value }
      else .ok state

/-- `_finalize`. -/
def finalize (func : String) (state : AggState X) : Except Exc (Value X) :=
  if func = "COUNT" then .ok (.int state.count)
  else if func = "MIN" then .ok state.min
  else if func = "MAX" then .ok state.max
  else if state.count = 0 then .ok .none
  else if func = "SUM" then .ok state.sum
  else state.sum.arith .div (.int state.count)

/-- `_resolve`. -/
def resolveColumn (index : NameIdx) (column : String) (row : Row X) : Except Exc (Option (Value X)) :=
  if column = "*" then .ok none
  else
    match index column with
    | none => .error ⟨.unknownColumnError, column⟩
    | some i => do return some (← rowAt row i)

/-- `_extract_key`: nothing if a key column is NULL. -/
def extractGroupKey (index : NameIdx) : List String → Row X → Except Exc (Option (List (Value X)))
  | [], _ => .ok (some [])
  | column :: columns, row =>
    match index column with
    | none => .error ⟨.unknownColumnError, column⟩
    | some i => do
      let value ← rowAt row i
      if value.isNone then return none
      else return (← extractGroupKey index columns row).map (value :: ·)

def hashKey : List (Value X) → Except Exc Unit
  | [] => .ok ()
  | .foreign x :: rest =>
    if Runtime.kind x = .container then .error ⟨.typeError, "unhashable type: " ++ quoted (Runtime.typeName x)⟩
      else hashKey rest
  | _ :: rest => hashKey rest

/-- `==` of tuples. -/
def tupleEq : List (Value X) → List (Value X) → Bool
  | a :: as, b :: bs => a.eq b && tupleEq as bs
  | [], [] => true
  | _, _ => false

def groupKey (index : NameIdx) (keys : List String) (row : Row X) : Except Exc (Option (List (Value X))) := do
  match ← extractGroupKey index keys row with
  | none => return none
  | some key => do
    hashKey key
    return some key

def foldRow (index : NameIdx) (aggregate : String × String) (state : AggState X) (row : Row X) :
    Except Exc (AggState X) := do
  accumulate aggregate.1 (← resolveColumn index aggregate.2 row) state

def foldRows (index : NameIdx) (aggregates : List (String × String)) (states : List (AggState X)) (row : Row X) :
    Except Exc (List (AggState X)) := (aggregates.zip states).mapM fun pair => foldRow index pair.1 pair.2 row

def finalizeAll (aggregates : List (String × String)) (states : List (AggState X)) : Except Exc (Row X) :=
  (aggregates.zip states).mapM fun pair => finalize pair.1.1 pair.2

def emitRow (aggregates : List (String × String)) (group : List (Value X) × List (AggState X)) :
    Except Exc (Row X) := do
  return group.1 ++ (← finalizeAll aggregates group.2)

/-- `_emit`. -/
def emit (aggregates : List (String × String)) (keys : List String)
    (groups : List (List (Value X) × List (AggState X))) :
    Except Exc (List (Row X)) :=
  if keys = [] ∧ groups = [] then do
    return [← finalizeAll aggregates (aggregates.map fun _ => newState)]
  else groups.mapM (emitRow aggregates)

/-- `Aggregate.open`, on the rows of its source. -/
def aggregateRows (index : NameIdx) (aggregates : List (String × String)) (keys : List String)
    (rows : List (Row X)) : Except Exc (List (Row X)) := do
  let groups ← collect tupleEq (aggregates.map fun _ => newState) (foldRows index aggregates) (groupKey index keys) rows
  emit aggregates keys groups

def aggregateValue (index : NameIdx) (aggregate : String × String) (rows : List (Row X)) : Except Exc (Value X) := do
  finalize aggregate.1 (← rows.foldlM (foldRow index aggregate) newState)

def groupsBy (keys : List String) (key : Row X → Option (List (Value X))) (rows : List (Row X)) :
    List (List (Value X) × List (Row X)) :=
  if keys = [] ∧ gather tupleEq (Lib.keyed key rows) = [] then [([], [])] else gather tupleEq (Lib.keyed key rows)

def GroupRow (index : NameIdx) (aggregates : List (String × String)) (group : List (Value X) × List (Row X))
    (out : Row X) : Prop :=
  ∃ values, out = group.1 ++ values ∧
    Forall₂ (fun aggregate value => aggregateValue index aggregate group.2 = .ok value) aggregates values

theorem foldRows_eq_ok_iff {states : List (AggState X)} :
    members.foldlM (foldRows index aggregates) (aggregates.map fun _ => newState) = .ok states ↔
      Forall₂ (fun aggregate state => members.foldlM (foldRow index aggregate) newState = .ok state)
      aggregates states := by
  induction members using reverseRecOn generalizing states with
  | nil =>
    simp only [foldlM_nil, pure, Except.pure, Except.ok.injEq]
    rw [← forall₂_eq_eq_eq, forall₂_map_left_iff]
  | append_singleton members row ih =>
    simp only [foldlM_concat_eq_ok, ih]
    exact mapM_zip_iff

theorem groupValues_iff {values : Row X} :
    (∃ states, members.foldlM (foldRows index aggregates) (aggregates.map fun _ => newState) = .ok states ∧
      finalizeAll aggregates states = .ok values) ↔
      Forall₂ (fun aggregate value => aggregateValue index aggregate members = .ok value) aggregates values := by
  simp only [foldRows_eq_ok_iff, aggregateValue, bind_ok_iff]
  exact mapM_zip_iff

theorem aggregateRows_eq_ok_iff {key : Row X → Option (List (Value X))} {out : List (Row X)}
    (known : ∀ row ∈ rows, groupKey index keys row = .ok (key row)) :
    aggregateRows index aggregates keys rows = .ok out ↔
      Forall₂ (GroupRow index aggregates) (groupsBy keys key rows) out := by
  rw [aggregateRows, bind_ok_iff]
  simp only [collect_eq_ok_iff known, groupsBy]
  split_ifs with none
  · obtain ⟨noKeys, noGroups⟩ := none
    simp only [noGroups, Folds, forall₂_nil_left_iff, exists_eq_left, emit, noKeys, and_self, if_true]
    simp only [bind_ok_iff, pure, Except.pure, Except.ok.injEq, forall₂_cons_left_iff, forall₂_nil_left_iff,
      GroupRow, ← groupValues_iff, foldlM_nil]
    simp [eq_comm]
  · have emits (sums : List (List (Value X) × List (AggState X))) :
        Folds (aggregates.map fun _ => newState) (foldRows index aggregates)
        (gather tupleEq (Lib.keyed key rows)) sums ∧
          emit aggregates keys sums = .ok out ↔
        Folds (aggregates.map fun _ => newState) (foldRows index aggregates)
        (gather tupleEq (Lib.keyed key rows)) sums ∧
          sums.mapM (emitRow aggregates) = .ok out := by
      refine and_congr_right fun folds => ?_
      rw [emit, if_neg]
      rintro ⟨noKeys, rfl⟩
      exact none ⟨noKeys, forall₂_nil_right_iff.mp folds⟩
    rw [exists_congr emits]
    unfold Folds
    rw [mapM_related_iff]
    simp only [emitRow, bind_ok_iff, pure, Except.pure, Except.ok.injEq]
    constructor
    · refine fun each => each.imp fun group o => ?_
      rintro ⟨sum, ⟨isKey, folded⟩, values, finalized, rfl⟩
      exact ⟨values, by rw [isKey], groupValues_iff.mp ⟨sum.2, folded, finalized⟩⟩
    · refine fun each => each.imp fun group o => ?_
      rintro ⟨values, rfl, each⟩
      obtain ⟨states, folded, finalized⟩ := groupValues_iff.mpr each
      exact ⟨(group.1, states), ⟨rfl, folded⟩, values, finalized, rfl⟩

end Tinydb.Executor
