import Tinydb.Executor.IndexPlan
import Tinydb.Executor.Join
import Tinydb.Lib.Sorting

/-! Select lists, sorting and slicing (`Project`, `Sort` and `Limit` of `executor/ops.py`, `executor/planner.py`,
`executor/physical.py`).

The planner turns the select list into a list of labels, and `Project` walks the labels with the
items beside them. A label is looked up among the names of the row first; only if there is no
such name the item at the label's position is evaluated.
-/

namespace Tinydb.Executor

open Lib Tinydb.Types Sql Storage Index List Runtime

variable {X : Type} [Runtime X] {index : NameIdx} {table : String} {items : List (SelectItem X)}
  {labels : List String} {base out : List (Row X)} {keys : List OrderBy} {rows sorted : List (Row X)}

def label : Expr X → String
  | .columnRef name _ => name
  | .aggregate func column => func ++ "(" ++ column ++ ")"
  | .literal value => "L:" ++ repr value
  | .typedLiteral tag value => "L[" ++ tag.name ++ "]:" ++ repr value
  | .binaryOp .. => "BinaryOp"
  | .unaryOp .. => "UnaryOp"

def addName (out : List String) (name : String) : List String := if name ∈ out then out else out ++ [name]

/-- One item of `_project_columns`: columns are listed once, other items always. -/
def projectItem (names : List String) (out : List String) : SelectItem X → Except Exc (List String)
  | .star => .ok (names.foldl addName out)
  | .expr (.columnRef name table) =>
    if name ∈ names then .ok (addName out (label (.columnRef name table : Expr X)))
      else .error ⟨.unknownColumnError, name⟩
  | .expr e => .ok (out ++ [label e])

/-- `_project_columns`. -/
def projectColumns (info : TableMeta) (items : List (SelectItem X)) : Except Exc (List String) :=
  match items with
  | [.star] => .ok (columnNames info)
  | items => items.foldlM (projectItem (columnNames info)) []

/-- One item of `_join_projection_columns`: every label is listed once. -/
def joinItem (names : List String) (out : List String) : SelectItem X → List String
  | .star => names.foldl addName out
  | .expr e => addName out (label e)

/-- `_join_projection_columns`, for the columns of all tables of the FROM clause in order. -/
def joinProjectionColumns (names : List String) (items : List (SelectItem X)) : List String :=
  items.foldl (joinItem names) []

/-- The `table` attribute of an item. -/
def qualifier : SelectItem X → Option String
  | .expr (.columnRef _ table) => table
  | _ => none

def evalItem (index : NameIdx) (row : Row X) : SelectItem X → Except Exc (Value X)
  | .star => .error ⟨.notImplementedError, "eval_expr: unsupported Expr node Star"⟩
  | .expr e => evalExpr index row e

/-- The position of a label: under the qualifier of the item beside it if there is such a name, else bare. -/
def slot (index : NameIdx) (item : Option (SelectItem X)) (name : String) : Option ℕ :=
  match (item.bind qualifier).bind fun table => index (table ++ "." ++ name) with
  | some i => some i
  | none => index name

/-- One value of `Project`. The text of the error goes on with the names of the row. -/
def projectValue (index : NameIdx) (row : Row X) (item : Option (SelectItem X)) (name : String) :
    Except Exc (Value X) :=
  match slot index item name with
  | some i => rowAt row i
  | none =>
    match item with
    | some item => evalItem index row item
    | none => .error ⟨.lookupError, "project column " ++ quoted name ++ " not found in upstream row layout"⟩

/-- One row of `Project`. The items are taken by position until there are no more. -/
def projectRow (index : NameIdx) (row : Row X) : List (SelectItem X) → List String → Except Exc (Row X)
  | _, [] => .ok []
  | items, name :: names => do
    let value ← projectValue index row items.head? name
    return value :: (← projectRow index row items.tail names)

/-- A component of a sort key: a value, or a value whose order is turned round. -/
inductive SortValue (X : Type) where
  | plain (value : Value X)
  | marker (value : Value X)

/-- `_neg`. -/
def neg : Value X → Except Exc (SortValue X)
  | .bool b => .ok (.plain (.bool !b))
  | .int i => .ok (.plain (.int (-i)))
  | .foreign x =>
    if kind x = .float then do return .plain (← arith .sub (.int 0) (.foreign x))
    else .ok (.marker (.foreign x))
  | value => .ok (.marker value)

def SortValue.eq : SortValue X → SortValue X → Bool
  | .plain a, .plain b | .marker a, .marker b => a.eq b
  | _, _ => false

def SortValue.less : SortValue X → SortValue X → Except Exc Bool
  | .plain a, .plain b => a.order .lt b
  | .marker a, .marker b => b.order .lt a
  | .plain a, .marker _ => .error
    ⟨.typeError, "'<' not supported between instances of " ++ quoted a.typeName ++ " and '_NegMarker'"⟩
  | .marker _, .plain b =>
    .error ⟨.typeError, "'<' not supported between instances of '_NegMarker' and " ++ quoted b.typeName⟩

/-- One key of a row: NULL is last in ascending and first in descending order. -/
def sortPart (descending : Bool) (value : Value X) : Except Exc (ℕ × SortValue X) :=
  if value.isNone then .ok (if descending then 0 else 1, .plain (.int 0))
  else if descending then do return (1, ← neg value)
  else .ok (0, .plain value)

/-- `_sort_key`. -/
def sortKey (index : NameIdx) (keys : List OrderBy) (row : Row X) : Except Exc (List (ℕ × SortValue X)) :=
  keys.mapM fun key =>
    match index key.column with
    | some i => do sortPart key.descending (← rowAt row i)
    | none => .error ⟨.keyError, quoted key.column⟩

def keyLess : List (ℕ × SortValue X) → List (ℕ × SortValue X) → Except Exc Bool
  | a :: as, b :: bs =>
    if a.1 = b.1 ∧ a.2.eq b.2 then keyLess as bs
    else if a.1 = b.1 then a.2.less b.2
    else .ok (a.1 < b.1)
  | as, bs => .ok (as.length < bs.length)

def sortRows (index : NameIdx) (table : String) (keys : List OrderBy) (rows : List (Row X)) :
    Except Exc (List (Row X)) := do
  match keys.find? fun key => (index key.column).isNone with
  | some key => throw ⟨.unknownColumnError, table ++ "." ++ key.column⟩
  | none =>
    let keyed ← rows.mapM fun row => do return (← sortKey index keys row, row)
    return (← sortBy (fun a b => keyLess a.1 b.1) keyed).map Prod.snd

def labelIndex (labels : List String) : String → Option ℕ := (Dict.ofWrites labels.zipIdx).get?

theorem labelIndex_isSome {name : String} : (labelIndex labels name).isSome ↔ name ∈ labels := by
  rw [labelIndex, Option.isSome_iff_exists, ← Dict.mem_keys_iff, Dict.mem_keys_ofWrites, zipIdx_map_fst]

/-- `_resolve_proj_index`. -/
def resolveProjIndex (index : NameIdx) (item : Option (SelectItem X)) (name : String) : Except Exc ℕ :=
  match slot index item name with
  | some i => .ok i
  | none => .error ⟨.unknownColumnError, quoted name ++ " not in base layout"⟩

/-- `Project` below an optional `Sort`. A key that is not a label is looked up in the rows below `Project`, which are
sorted and cut down afterwards. -/
def sortProjected (index : NameIdx) (table : String) (items : List (SelectItem X)) (labels : List String)
    (keys : List OrderBy) (base : List (Row X)) : Except Exc (List (Row X)) := do
  let rows ← base.mapM fun row => projectRow index row items labels
  if keys = [] then
    return rows
  else if keys.any fun key => (labelIndex labels key.column).isNone then
    let slots ← (items.zip labels).mapM fun pair => resolveProjIndex index (some pair.1) pair.2
    let sorted ← sortRows index table keys base
    sorted.mapM fun row => slots.mapM (rowAt row)
  else
    sortRows (labelIndex labels) table keys rows

/-- `Limit`, left out if there is neither a limit nor an offset other than 0. -/
def limitRows (limit offset : Option ℤ) (rows : List (Row X)) : Except Exc (List (Row X)) :=
  if limit = none ∧ offset.getD 0 = 0 then .ok rows
  else if limit.getD 0 < 0 then .error ⟨.valueError, "LIMIT must be non-negative"⟩
  else if offset.getD 0 < 0 then .error ⟨.valueError, "OFFSET must be non-negative"⟩
  else .ok ((rows.drop (offset.getD 0).toNat).take (limit.getD 0).toNat)

def answer (index : NameIdx) (table : String) (labels : List String) (clauses : Clauses X) (base : List (Row X)) :
    Except Exc (List (Row X)) := do
  limitRows clauses.limit clauses.offset (← sortProjected index table clauses.columns labels clauses.orderBy base)

theorem mem_names_of_sortRows (done : sortRows index table keys rows = .ok sorted) :
    ∀ key ∈ keys, (index key.column).isSome := by
  rw [sortRows] at done
  split at done
  · exact nomatch done
  case h_2 known => simpa [Option.isSome_iff_ne_none] using known

theorem perm_of_sortRows (done : sortRows index table keys rows = .ok sorted) : sorted.Perm rows := by
  rw [sortRows] at done
  split at done
  · exact nomatch done
  · obtain ⟨keyed, encoded, sorting⟩ := bind_ok_iff.mp done
    obtain ⟨ordered, arranged, rfl⟩ := bind_return_iff.mp sorting
    have rows' : keyed.map Prod.snd = rows := map_of_mapM (fun row pair made => by
      obtain ⟨key, -, same⟩ := bind_ok_iff.mp made
      exact Except.ok.inj same ▸ rfl) encoded
    exact rows' ▸ (perm_of_sortBy arranged).map Prod.snd

theorem projectRow_eq_slots {row : Row X} {slots : List ℕ} (covers : labels.length ≤ items.length)
    (resolved : (items.zip labels).mapM (fun pair => resolveProjIndex index (some pair.1) pair.2) = .ok slots) :
    projectRow index row items labels = slots.mapM (rowAt row) := by
  induction labels generalizing items slots with
  | nil =>
    rw [zip_nil_right] at resolved
    cases resolved
    rfl
  | cons name names ih =>
    cases items with
    | nil => simp at covers
    | cons item items =>
      rw [zip_cons_cons, mapM_cons] at resolved
      obtain ⟨i, first, others⟩ := bind_ok_iff.mp resolved
      obtain ⟨rest, later, rfl⟩ := bind_return_iff.mp others
      have here : projectValue index row (some item) name = rowAt row i := by
        rw [resolveProjIndex] at first
        rw [projectValue]
        cases found : slot index (some item) name with
        | none =>
          rw [found] at first
          exact nomatch first
        | some j =>
          rw [found] at first
          cases first
          rfl
      rw [projectRow, head?_cons, tail_cons, here, ih (Nat.le_of_succ_le_succ covers) later, mapM_cons]

omit [Runtime X] in
theorem exists_limited {α : Type} {R : α → Row X → Prop} {sources : List α} {limit offset : Option ℤ}
    (related : Forall₂ R sources rows) (limiting : limitRows limit offset rows = .ok out) :
    ∃ sources', sources'.Subperm sources ∧ Forall₂ R sources' out := by
  rw [limitRows] at limiting
  split_ifs at limiting
  · cases limiting
    exact ⟨sources, .refl _, related⟩
  · cases limiting
    exact ⟨_, ((take_sublist _ _).trans (drop_sublist _ _)).subperm, forall₂_take _ (forall₂_drop _ related)⟩

/-- Every row of the answer is the projection of a row of the source, of different rows for different ones; if the rows
are sorted below `Project`, they are cut down to as many labels as there are items. -/
theorem answer_projects {clauses : Clauses X} (covers : labels.length ≤ clauses.columns.length ∨
      ∀ key ∈ clauses.orderBy, (index key.column).isSome → (labelIndex labels key.column).isSome)
    (answered : answer index table labels clauses base = .ok out) : ∃ rows, rows.Subperm base ∧
      Forall₂ (fun row o => projectRow index row clauses.columns labels = .ok o) rows out := by
  obtain ⟨sorted, sorting, limiting⟩ := bind_ok_iff.mp answered
  have projected : ∃ rows, rows.Perm base ∧
    Forall₂ (fun row o => projectRow index row clauses.columns labels = .ok o) rows sorted := by
    obtain ⟨rows, all, chosen⟩ := bind_ok_iff.mp sorting
    have related := forall₂_of_mapM all
    split at chosen
    · cases chosen
      exact ⟨base, .refl _, related⟩
    · split at chosen
      · obtain ⟨slots, resolved, ordering⟩ := bind_ok_iff.mp chosen
        obtain ⟨ordered, arranged, cut⟩ := bind_ok_iff.mp ordering
        rcases covers with covers | labelled
        · refine ⟨ordered, perm_of_sortRows arranged, (forall₂_of_mapM cut).imp fun row o kept => ?_⟩
          rw [projectRow_eq_slots covers resolved]
          exact kept
        · obtain ⟨key, among, unlabelled⟩ := any_eq_true.mp ‹_›
          have some := labelled key among (mem_names_of_sortRows arranged key among)
          rw [Option.isNone_iff_eq_none.mp unlabelled] at some
          exact nomatch some
      · exact exists_perm_forall₂ related (perm_of_sortRows chosen).symm
  obtain ⟨rows, perm, related⟩ := projected
  obtain ⟨rows', among, related'⟩ := exists_limited related limiting
  exact ⟨rows', among.trans perm.subperm, related'⟩

end Tinydb.Executor
