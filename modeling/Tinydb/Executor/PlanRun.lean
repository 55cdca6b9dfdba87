import Tinydb.Executor.Execute
import Tinydb.Lib.Generator

/-! Running a plan lazily (`executor/ops.py`, `executor/join.py`, `executor/row_iter.py`).

The operators of a plan are generators: a table is opened when its first row is asked
for, and the right table of an indexed join when the first row is fetched from it.
Opening a table is a request, which `heap_for` serves; everything else only reads. A
heap that is bound to a table takes a page from outside its chain, so the rows are those
of the state before the statement.
-/

namespace Tinydb.Executor

open Lib Generator Tinydb.Types Sql Storage Tx Index Program
open Storage.Heap (Rid)

/-- Rows of type `α`; the requests are the tables that are opened. -/
abbrev RowGen (α : Type) := Generator Exc TableMeta α

variable {X : Type} [Runtime X] {db : Database X}

/-- The row at `rid`, if there is one, before the others. -/
def rowThen (info : TableMeta) (mgr : TransactionManager) (rid : Rid) (rest : RowGen (Rid × Row X)) :
    RowGen (Rid × Row X) :=
  .check (readRow info rid mgr).result fun
    | none => rest
    | some row => .yield (rid, row) rest

def slotRows (info : TableMeta) (mgr : TransactionManager) (pid : ℕ) (page : Page) :
    List ℕ → RowGen (Rid × Row X) → RowGen (Rid × Row X)
  | [], rest => rest
  | slotId :: slots, rest => .check (Heap.readSlot page slotId) fun slot =>
    if slot.flags ≠ 0 then rowThen info mgr ⟨pid, slotId⟩ (slotRows info mgr pid page slots rest)
    else slotRows info mgr pid page slots rest

def chainRows (info : TableMeta) (mgr : TransactionManager) : (fuel : ℕ) → (pid : ℕ) → RowGen (Rid × Row X)
  | 0, _ => .fail ⟨.nontermination, "heap chain"⟩
  | fuel + 1, pid =>
    if pid = Heap.NO_NEXT then .done
    else .check (TransactionManager.onPager (Pager.readPage pid) mgr).result fun page =>
      slotRows info mgr pid page (List.range (Heap.slotCount page)) (chainRows info mgr fuel (Heap.nextPid page))

/-- `TableScan`, row by row. -/
def tableRows (info : TableMeta) (mgr : TransactionManager) : RowGen (Rid × Row X) :=
  chainRows info mgr (mgr.pager.numPages + 1) info.heapPid

/-- The pairs of a left row with rows of the right side; without one, the row padded with NULLs if it is to be kept. -/
def pairs (on : Option (Expr X)) (names : NameMap) (keep : Bool) (rightSize : ℕ) (left : Row X) (matched : Bool) :
    RowGen (Row X) → RowGen (Row X)
  | .done => if !matched && keep then .yield (left ++ nulls rightSize) .done else .done
  | .fail e => .fail e
  | .request info rest => .request info (pairs on names keep rightSize left matched rest)
  | .yield right rest => .check (accepts on names (left ++ right)) fun
    | true => .yield (left ++ right) (pairs on names keep rightSize left true rest)
    | false => pairs on names keep rightSize left matched rest

/-- The rows at the rids an index found. The table is opened for each of them. -/
def fetchRows (info : TableMeta) (mgr : TransactionManager) : List Rid → RowGen (Row X)
  | [] => .done
  | rid :: rids => .request info (.check (readRow info rid mgr).result fun
    | none => fetchRows info mgr rids
    | some row => .yield row (fetchRows info mgr rids))

/-- What the pages of an index give: a search reads one leaf, a scan walks the leaves. -/
structure Lookups (X : Type) where
  search : LiveIndex X → Key X → List Rid
  scan : IndexScan X → Except Exc (List Rid)

def probe (db : Database X) (search : Key X → List Rid) (on : Option (Expr X)) (names : NameMap)
    (keep : Bool) (rightSize : ℕ) (info : TableMeta)
    (keyIdx : ℕ) (left : Row X) : RowGen (Row X) :=
  .check (rowAt left keyIdx) fun key =>
    if key.isNone then pairs on names keep rightSize left false .done
    else pairs on names keep rightSize left false (fetchRows info db.txn (search [key]))

/-- `Plan.open`. -/
def Plan.generate (looks : Lookups X) (db : Database X) : Plan X → RowGen (Row X)
  | .seqScan table => .check (db.catalog.getTable table) fun info =>
    .request info ((tableRows info db.txn).flatMap fun item => .yield item.2 .done)
  | .nestedLoopJoin left right on nullableRight aliasLeft aliasRight =>
    .check (rowN2i db.catalog (.nestedLoopJoin left right on nullableRight aliasLeft aliasRight) none) fun names =>
    .check (db.catalog.getTable right.table) fun info =>
    -- the right side is read once, before the first left row
    (right.generate looks db).collect fun rightRows => (left.generate looks db).flatMap fun row =>
      pairs on names nullableRight (columnMap info.columns).items.length row false (.ofList rightRows)
  | .indexedNestedLoopJoin left right on kind aliasLeft aliasRight rightTable rightIndex rightKeyColumn leftKeyAlias =>
    .check (db.catalog.getTable right.table) fun info =>
    match db.indexes.find? fun index => index.info.name = rightIndex with
    | none => .done
    | some index =>
      .check (db.catalog.getTable rightTable) fun rightInfo =>
      if rightKeyColumn ∉ rightInfo.columns.map (·.name)
        then .fail ⟨.valueError, quoted rightKeyColumn ++ " is not in list"⟩
      else
        .check (rowN2i db.catalog left leftKeyAlias) fun leftNames =>
        .check (rowN2i db.catalog (.indexedNestedLoopJoin left right on kind aliasLeft aliasRight rightTable rightIndex
          rightKeyColumn leftKeyAlias) none) fun names =>
        .check (extractJoinKeysNested on leftNames (columnMap info.columns) aliasRight) fun
        | none => .done
        | some (keyIdx, _) => (left.generate looks db).flatMap
          (probe db (looks.search index) on names (kind = .left) (columnMap info.columns).items.length rightInfo keyIdx)

/-- What is done above the source of the rows: WHERE and the select list row by row, sorting and the rest at the end. It
sees nothing but rows. -/
structure Above (X : Type) where
  stage : Row X → Except Exc (List (Row X))
  finish : List (Row X) → Except Exc (List (Row X))

/-- A SELECT over one table or over a join. `check` are the planner's checks of the names in the select list, ORDER BY
and GROUP BY, made before anything is opened; over one table they give the labels. `finish` is all that follows WHERE.
-/
inductive Query (X : Type) where
  | single (table : String) (filter : Option (Expr X)) (check : TableMeta → Except Exc (List String))
    (finish : TableMeta → List String → List (Row X) → Except Exc (List (Row X)))
  | join (source : LogicalPlan X) (check : Catalog → Except Exc Unit) (above : Above X)

def planSingle (db : Database X) (table : String) (filter : Option (Expr X))
    (check : TableMeta → Except Exc (List String)) :
    Except Exc (TableMeta × Source X × List String) := do
  let info ← requireTable db.catalog table
  let source ← planSource filter info (some db.indexes)
  let labels ← check info
  return (info, source, labels)

def planJoin (db : Database X) (source : LogicalPlan X) (check : Catalog → Except Exc Unit) : Except Exc (Plan X) := do
  let plan ← emitPhysical db.catalog (some db.indexes) source
  check db.catalog
  return plan

def joinRows (looks : Lookups X) (db : Database X) (above : Above X) (plan : Plan X) : RowGen (Row X) :=
  (plan.generate looks db).flatMap fun row => .check (above.stage row) .ofList

def Query.run (looks : Lookups X) : Query X → DbM X (List (Row X))
  | .single table filter check finish => do
    let db ← read
    let (info, source, labels) ← ofExcept (planSingle db table filter check)
    heapFor info
    let rows ← sourceRows looks.scan info filter source
    ofExcept (finish info labels rows)
  | .join source check above => do
    let db ← read
    let plan ← ofExcept (planJoin db source check)
    let rows ← (joinRows looks db above plan).run heapFor
    ofExcept (above.finish rows)

omit [Runtime X] in
theorem collectRows_eq_ok {rowsOf : Row X → Except Exc (List (Row X))} {lefts out : List (Row X)}
    (collected : collectRows rowsOf lefts = .ok out) :
    ∃ f : Row X → List (Row X), (∀ left ∈ lefts, rowsOf left = .ok (f left)) ∧ out = lefts.flatMap f := by
  refine ⟨fun left => (rowsOf left).toOption.getD [], ?_⟩
  induction lefts generalizing out with
  | nil => exact ⟨nofun, (Except.ok.inj collected).symm⟩
  | cons left rest ih =>
    obtain ⟨here, first, collected⟩ := bind_ok_iff.mp collected
    obtain ⟨others, later, rfl⟩ := bind_return_iff.mp collected
    obtain ⟨each, rfl⟩ := ih later
    have one : (rowsOf left).toOption.getD [] = here := by rw [first]; rfl
    refine ⟨fun other member => ?_, by rw [List.flatMap_cons, one]⟩
    rcases List.mem_cons.mp member with rfl | member
    · exact first.trans (congrArg _ one.symm)
    · exact each other member

variable {looks : Lookups X} {on : Option (Expr X)} {names : NameMap} {left : Row X} {info : TableMeta}
  {rows : List (Rid × Row X)} {out : List (Row X)}

theorem yields_pairs {g : RowGen (Row X)} {rights found : List (Row X)} (taken : g.Yields rights)
    (joined : matching on names left rights = .ok found) (keep matched : Bool) (size : ℕ) :
    (pairs on names keep size left matched g).Yields
    (if matched then found else padded keep (left ++ nulls size) found) := by
  induction taken generalizing found matched with
  | done =>
    cases joined
    cases matched with
    | false =>
      cases keep with
      | false => exact .done
      | true => exact .yield .done
    | true => exact .done
  | request _ ih => exact .request (ih joined matched)
  | yield _ ih =>
    obtain ⟨accepted, first, joined⟩ := bind_ok_iff.mp joined
    obtain ⟨others, later, rfl⟩ := bind_return_iff.mp joined
    rw [pairs, first]
    cases accepted with
    | true => cases matched <;> exact .yield (ih later true)
    | false => exact ih later matched

/-- At the rids, a table has the rows that are told. -/
def HasAt (info : TableMeta) (mgr : TransactionManager) (rows : List (Rid × Row X)) (rids : List Rid) : Prop :=
  ∀ rid ∈ rids, (readRow info rid mgr).result = .ok ((rows.find? fun item => item.1 = rid).map Prod.snd)

theorem yields_fetchRows {rids : List Rid} (has : HasAt info db.txn rows rids) :
    (fetchRows info db.txn rids).Yields (fetch rows rids) := by
  induction rids with
  | nil => exact .done
  | cons rid rids ih =>
    obtain ⟨here, later⟩ := List.forall_mem_cons.mp has
    rw [fetchRows, here, fetch, List.filterMap_cons]
    cases (rows.find? fun item => item.1 = rid).map Prod.snd with
    | none => exact .request (ih later)
    | some row => exact .request (.yield (ih later))

theorem yields_probe {search : Key X → List Rid} {keep : Bool} {size keyIdx : ℕ}
    (has : ∀ key, HasAt info db.txn rows (search key))
    (joined : indexedRow on names keep size rows search keyIdx left = .ok out) :
    (probe db search on names keep size info keyIdx left).Yields out := by
  obtain ⟨key, keyed, joined⟩ := bind_ok_iff.mp joined
  rw [probe, keyed]
  show Yields (if key.isNone then _ else _) out
  split_ifs at joined ⊢
  · cases joined
    exact yields_pairs .done rfl keep false size
  · obtain ⟨found, matched, rfl⟩ := bind_return_iff.mp joined
    exact yields_pairs (yields_fetchRows (has _)) matched keep false size

/-- Every index a plan looks into is one of the table it is joined with. -/
def Plan.OwnIndexes (indexes : List (LiveIndex X)) : Plan X → Prop
  | .seqScan _ => True
  | .nestedLoopJoin left right .. => left.OwnIndexes indexes ∧ right.OwnIndexes indexes
  | .indexedNestedLoopJoin left _ _ _ _ _ rightTable rightIndex .. =>
    left.OwnIndexes indexes ∧ ∀ index ∈ indexes, index.info.name = rightIndex → index.info.table = rightTable

/-- The rows of the tables, as a scan and as a fetch by the rids of an index give them. -/
structure Shows (looks : Lookups X) (db : Database X) (rows : String → List (Rid × Row X)) : Prop where
  scan : ∀ table info, db.catalog.getTable table = .ok info → (tableRows info db.txn).Yields (rows table)
  fetch : ∀ index ∈ db.indexes, ∀ info, db.catalog.getTable index.info.table = .ok info →
    ∀ key, HasAt info db.txn (rows index.info.table) (looks.search index key)

/-- Where a plan opens, its generator yields the same rows. -/
theorem yields_generate {rows : String → List (Rid × Row X)} (shows : Shows looks db rows) {plan : Plan X}
    (own : plan.OwnIndexes db.indexes)
    (opened : openPlan ⟨db.catalog, rows, some db.indexes, looks.search⟩ plan = .ok out) :
    (plan.generate looks db).Yields out := by
  induction plan generalizing out with
  | seqScan table =>
    obtain ⟨info, got, rfl⟩ := bind_return_iff.mp opened
    rw [Plan.generate, show db.catalog.getTable table = .ok info from got, List.map_eq_flatMap]
    exact .request ((shows.scan table info got).flatMap fun _ _ => .yield .done)
  | nestedLoopJoin left right on keep aliasLeft aliasRight ihLeft ihRight =>
    obtain ⟨names, named, opened⟩ := bind_ok_iff.mp opened
    obtain ⟨info, got, opened⟩ := bind_ok_iff.mp opened
    obtain ⟨rights, below, opened⟩ := bind_ok_iff.mp opened
    obtain ⟨lefts, beside, collected⟩ := bind_ok_iff.mp opened
    obtain ⟨rowsOf, each, rfl⟩ := collectRows_eq_ok collected
    rw [Plan.generate, named, show db.catalog.getTable _ = .ok info from got]
    refine (ihRight own.2 below).collect ((ihLeft own.1 beside).flatMap fun row member => ?_)
    obtain ⟨found, joined, padding⟩ := bind_return_iff.mp (each row member)
    rw [← padding]
    exact yields_pairs (yields_ofList rights) joined keep false _
  | indexedNestedLoopJoin left right on kind aliasLeft aliasRight rightTable rightIndex rightKeyColumn
      leftKeyAlias ih =>
    obtain ⟨info, got, opened⟩ := bind_ok_iff.mp opened
    simp only [Plan.generate, check, show db.catalog.getTable _ = .ok info from got]
    split at opened
    case h_1 missing =>
      cases opened
      rw [show db.indexes.find? _ = none from missing]
      exact .done
    case h_2 index present =>
      rw [show db.indexes.find? _ = some index from present]
      obtain ⟨rightInfo, got', opened⟩ := bind_ok_iff.mp opened
      dsimp only at got' opened
      split_ifs at opened with listed
      swap
      · obtain ⟨_, thrown, -⟩ := bind_ok_iff.mp opened
        cases thrown
      obtain ⟨leftNames, leftNamed, opened⟩ := bind_ok_iff.mp opened
      obtain ⟨names, named, opened⟩ := bind_ok_iff.mp opened
      obtain ⟨keys, extracted, opened⟩ := bind_ok_iff.mp opened
      simp only [got', if_neg (not_not_intro listed), leftNamed, named, extracted]
      cases keys with
      | none =>
        cases opened
        exact .done
      | some keys =>
        obtain ⟨lefts, beside, collected⟩ := bind_ok_iff.mp opened
        obtain ⟨rowsOf, each, rfl⟩ := collectRows_eq_ok collected
        have among := List.mem_of_find?_eq_some present
        obtain rfl := own.2 index among (by simpa using List.find?_some present)
        exact (ih own.1 beside).flatMap fun row member =>
          yields_probe (shows.fetch index among rightInfo got') (each row member)

end Tinydb.Executor
