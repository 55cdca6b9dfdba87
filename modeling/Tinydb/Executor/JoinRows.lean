import Tinydb.Executor.Join

/-! The rows of an indexed join against those of the nested loop.

The nested loop joins a left row with every partner: NULL equals NULL there. The indexed
join looks only at the right rows that the index finds under the value that the FIRST operand
of ON has in the left row, whichever side the operand was meant for.
-/

namespace Tinydb.Executor

open Lib Tinydb.Types Sql Storage Index List Dict
open Storage.Heap (Rid)

variable {X : Type} {name indexName : String} {i : ℕ} {names keyNames : NameMap} {columns : List Column}
  {aliasName : Option String} {ref : ColumnName} {row : Row X} {rids : List Rid} {source : LogicalPlan X}

theorem le_foldl_max (l : List ℕ) (start : ℕ) : start ≤ l.foldl max start ∧ ∀ n ∈ l, n ≤ l.foldl max start := by
  induction l generalizing start with
  | nil => exact ⟨le_refl _, nofun⟩
  | cons n l ih =>
    obtain ⟨above, others⟩ := ih (max start n)
    exact ⟨le_trans (le_max_left ..) above, forall_mem_cons.mpr ⟨le_trans (le_max_right ..) above, others⟩⟩

theorem lt_mapWidth (found : names.get? name = some i) : i < mapWidth names :=
  (le_foldl_max _ 0).2 _ (mem_map_of_mem (mem_of_get? found))

theorem lt_of_mem_positions (nameOf : Column → String) {item : String × ℕ}
    (member : item ∈ columns.zipIdx.map fun item => (nameOf item.1, item.2)) : item.2 < columns.length := by
  obtain ⟨⟨column, i⟩, place, rfl⟩ := mem_map.mp member
  simpa using snd_lt_of_mem_zipIdx place

theorem get?_leafMap_lt (found : (leafMap columns aliasName).get? name = some i) : i < columns.length := by
  cases aliasName with
  | none => exact lt_of_mem_positions (·.name) (mem_of_mem_items_ofWrites (mem_of_get? found))
  | some aliasName =>
    rcases mem_append.mp (mem_of_mem_items_ofWrites (mem_of_get? found)) with bare | qualified
    · exact lt_of_mem_positions (·.name) bare
    · exact lt_of_mem_positions (aliasName ++ "." ++ ·.name) qualified

theorem le_mapWidth_leafMap (columns : List Column) (aliasName : Option String) :
    columns.length ≤ mapWidth (leafMap columns aliasName) := by
  rcases eq_nil_or_concat' columns with rfl | ⟨first, last, rfl⟩
  · exact Nat.zero_le _
  · have lastly : ∃ name, (leafMap (first ++ [last]) aliasName).get? name = some first.length := by
      cases aliasName with
      | none =>
        refine ⟨last.name, ?_⟩
        simp [leafMap, zipIdx_append, ofWrites_concat, get?_set]
      | some aliasName =>
        refine ⟨aliasName ++ "." ++ last.name, ?_⟩
        simp only [leafMap, zipIdx_append, map_append, zipIdx_singleton, map_cons, map_nil]
        rw [← append_assoc, ofWrites_concat, get?_set]
        simp
    obtain ⟨name, found⟩ := lastly
    have := lt_mapWidth found
    rw [length_append, length_singleton]
    exact this

theorem exists_get?_of_resolve (resolved : resolve names ref = some i) :
    ∃ name, names.get? name = some i := by
  rw [resolve] at resolved
  split at resolved
  case h_1 j qualified =>
    cases resolved
    obtain ⟨table, -, found⟩ := Option.bind_eq_some_iff.mp qualified
    exact ⟨_, found⟩
  case h_2 => exact ⟨_, resolved⟩

theorem lt_width_of_rowN2i {catalog : Catalog} {plan : Plan X} {first second : Option String} {names others : NameMap}
    (named : rowN2i catalog plan first = .ok names) (renamed : rowN2i catalog plan second = .ok others)
    (found : others.get? name = some i) : i < mapWidth names := by
  cases plan with
  | seqScan table =>
    rw [rowN2i, bind_ok_iff] at named renamed
    obtain ⟨info, known, same⟩ := named
    obtain ⟨info', known', same'⟩ := renamed
    cases known.symm.trans known'
    cases same
    cases same'
    exact lt_of_lt_of_le (get?_leafMap_lt found) (le_mapWidth_leafMap ..)
  | nestedLoopJoin | indexedNestedLoopJoin =>
    rw [rowN2i] at named renamed
    cases named.symm.trans renamed
    exact lt_mapWidth found

/-- The condition `first = second`. -/
def onEqual (first second : ColumnName) : Option (Expr X) := some (.binaryOp .eq first.expr second.expr)

theorem equality?_onEqual (first second : ColumnName) :
    equality? (onEqual first second : Option (Expr X)) = some (first, second) := rfl

def valueAt (row : Row X) (i : ℕ) : Value X := row.getD i .none

theorem rowAt_of_lt (inside : i < row.length) : rowAt row i = .ok (valueAt row i) := by
  simp [rowAt, valueAt, inside]

variable {right : Row X} {on : Option (Expr X)} {rows : List (Rid × Row X)} {j : ℕ} {index : LiveIndex X}
  {key table : String}
  {search : Key X → List Rid} {first second : ColumnName} {a b width size : ℕ} {left : Row X} {rightRows : List (Row X)}
  {keyAlias aliasLeft aliasRight tableAlias : Option String} {kind : JoinKind} {catalog : Catalog} {info : TableMeta}
  {leftRows : List (Row X)}

theorem evalColumn_of_resolve (resolved : resolve names ref = some i) (row : Row X) :
    evalColumn names.get? row ref.name ref.table = rowAt row i := by
  rw [resolve] at resolved
  rw [evalColumn]
  generalize ref.table.bind _ = qualified at resolved ⊢
  cases qualified with
  | some j =>
    cases resolved
    rfl
  | none => rw [show names.get? ref.name = some i from resolved]

/-- Where the operands of ON stand. -/
def Operands (names : NameMap) (first second : ColumnName) (a b : ℕ) : Prop :=
  resolve names first = some a ∧ resolve names second = some b

/-- Both positions are in every combined row. -/
def Inside (a b : ℕ) (left : Row X) (rightRows : List (Row X)) : Prop :=
  ∀ right ∈ rightRows, a < (left ++ right).length ∧ b < (left ++ right).length

theorem collectRows_of_rowsOf {rowsOf : Row X → Except Exc (List (Row X))} {found : Row X → List (Row X)}
    {leftRows : List (Row X)} (each : ∀ left ∈ leftRows, rowsOf left = .ok (found left)) :
    collectRows rowsOf leftRows = .ok (leftRows.flatMap found) := by
  induction leftRows with
  | nil => rfl
  | cons left rest ih =>
    obtain ⟨here, others⟩ := forall_mem_cons.mp each
    rw [collectRows, here, ih others]
    rfl

theorem fetch_own (distinct : (rows.map Prod.fst).Nodup) (part : List (Rid × Row X))
    (own : ∀ item ∈ part, item ∈ rows) :
    fetch rows (part.map Prod.fst) = part.map Prod.snd := by
  induction part with
  | nil => rfl
  | cons item part ih =>
    obtain ⟨here, others⟩ := forall_mem_cons.mp own
    have found : (rows.find? fun other => other.1 = item.1).map Prod.snd = some item.2 :=
      get?_of_mem (d := ⟨rows, distinct⟩) here
    have rest := ih others
    rw [fetch] at rest ⊢
    rw [map_cons, map_cons, filterMap_cons]
    simp only [found, rest]

/-- Distinct rids of a table lead to the rows at them, in another order. -/
theorem fetch_perm (distinct : (rows.map Prod.fst).Nodup) (once : rids.Nodup)
    (known : rids ⊆ rows.map Prod.fst) :
    (fetch rows rids).Perm ((rows.filter fun item => item.1 ∈ rids).map Prod.snd) := by
  have same : rids.Perm ((rows.filter fun item => item.1 ∈ rids).map Prod.fst) := by
    refine (perm_ext_iff_of_nodup once (distinct.sublist (filter_sublist.map _))).mpr fun rid => ?_
    refine ⟨fun found => ?_, fun listed => ?_⟩
    · obtain ⟨item, member, rfl⟩ := mem_map.mp (known found)
      exact mem_map_of_mem (mem_filter.mpr ⟨member, decide_eq_true found⟩)
    · obtain ⟨item, member, rfl⟩ := mem_map.mp listed
      exact of_decide_eq_true (mem_filter.mp member).2
  refine (same.filterMap _).trans (Perm.of_eq ?_)
  exact fetch_own distinct _ fun item member => (mem_filter.mp member).1

theorem mem_of_mem_fetch (fetched : row ∈ fetch rows rids) : row ∈ rows.map Prod.snd := by
  obtain ⟨rid, -, found⟩ := mem_filterMap.mp fetched
  obtain ⟨item, first, rfl⟩ := Option.map_eq_some_iff.mp found
  exact mem_map_of_mem (mem_of_find?_eq_some first)

def looksPadded (width size : ℕ) (combined : Row X) : Bool :=
  (combined.drop width).length = size && (combined.drop width).all (·.isNone)

theorem looksPadded_append {left : Row X} (wide : left.length = width) :
    looksPadded width size (left ++ right) = true ↔ right = nulls size := by
  rw [looksPadded, ← wide, drop_left, nulls, eq_replicate_iff]
  simp

theorem map_append_perm_iff {left : Row X} {joins keep : Rid × Row X → Bool} {kept : List (Row X)}
    (kept_perm : kept.Perm (((rows.filter joins).filter keep).map Prod.snd)) :
    (((rows.filter joins).map Prod.snd).map (left ++ ·)).Perm (kept.map (left ++ ·)) ↔
      ∀ item ∈ rows, joins item = true → keep item = true := by
  have every : (∀ item ∈ rows, joins item = true → keep item = true) ↔
    ∀ item ∈ rows.filter joins, keep item = true := by
    simp only [mem_filter, and_imp]
  rw [every]
  constructor
  · intro perm
    have size := perm.length_eq
    simp only [length_map, kept_perm.length_eq] at size
    exact length_filter_eq_length_iff.mp size.symm
  · intro all
    rw [filter_eq_self.mpr all] at kept_perm
    exact (kept_perm.map _).symm

theorem mem_columnMap : name ∈ columns.map (·.name) ↔ ∃ i, (columnMap columns).get? name = some i := by
  rw [← mem_keys_iff, columnMap, mem_keys_ofWrites, map_map]
  have names : columns.zipIdx.map (Prod.fst ∘ fun item => (item.1.name, item.2)) = columns.map (·.name) := by
    rw [← zipIdx_map_fst 0 columns, map_map]
    simp
  rw [names]

def Registered (catalog : Catalog) (info : TableMeta) : Prop := catalog.byName.get? info.name = some info

theorem Registered.getTable (known : Registered catalog info) : catalog.getTable info.name = .ok info := by
  rw [Catalog.getTable, known]

theorem Registered.requireTable (known : Registered catalog info) : requireTable catalog info.name = .ok info := by
  rw [Executor.requireTable, known]

theorem emitPhysical_tableRef (known : Registered catalog info) (indexer : Option (List (LiveIndex X)))
    (aliasName : Option String) :
    emitPhysical catalog indexer (.tableRef info.name aliasName) = .ok (.seqScan info.name) := by
  rw [emitPhysical, known.requireTable]
  rfl

theorem splitRefs_some (split : splitRefs table aliasName aliasLeft first second = some (key, keyAlias)) :
    belongsTo table aliasName second = true → second.name = key := by
  intro belongs
  rw [splitRefs, if_pos belongs] at split
  exact (Prod.mk.inj (Option.some.inj split)).1

theorem belongsTo_alias {owner : String} (owned : ref.table = some owner)
    (right : (LogicalPlan.tableRef table aliasName : LogicalPlan X).aliasName = some owner) :
    belongsTo table aliasName ref = true := by
  rw [belongsTo, owned]
  cases aliasName with
  | none =>
    cases right
    simp
  | some aliasName =>
    rw [LogicalPlan.aliasName] at right
    have same := Option.some.inj right
    split_ifs at same with empty <;> simp [same]

theorem tryIndexedJoin_some {indexes : List (LiveIndex X)} {plan : IndexJoinPlan} (known : Registered catalog info)
    (tried : tryIndexedJoin (.tableRef info.name tableAlias) on catalog indexes aliasLeft = .ok (some plan)) :
    ∃ first second, equality? on = some (first, second) ∧
      splitRefs info.name tableAlias aliasLeft first second = some (plan.keyColumn, plan.leftAlias) := by
  cases equal : equality? on with
  | none =>
    simp only [tryIndexedJoin, equal] at tried
    cases tried
  | some refs =>
    simp only [tryIndexedJoin, equal, known.requireTable] at tried
    obtain ⟨⟨key, keyAlias⟩, split, chosen⟩ := Option.bind_eq_some_iff.mp (Except.ok.inj tried)
    obtain ⟨index, -, rfl⟩ := Option.map_eq_some_iff.mp chosen
    exact ⟨refs.1, refs.2, rfl, split⟩

theorem emitPhysical_indexed {indexer : Option (List (LiveIndex X))} {kind' : JoinKind}
    {on' : Option (Expr X)} {nullable : Bool} {left right : Plan X} {index : String} (known : Registered catalog info)
    (built : emitPhysical catalog indexer (.join source (.tableRef info.name tableAlias) kind on nullable) =
      .ok (.indexedNestedLoopJoin left right on' kind' aliasLeft aliasRight table index key keyAlias)) :
    right = .seqScan info.name ∧ table = info.name ∧
      aliasRight = (LogicalPlan.tableRef info.name tableAlias : LogicalPlan X).aliasName ∧
      ∃ first second, equality? on = some (first, second) ∧
        splitRefs info.name tableAlias source.aliasName first second = some (key, keyAlias) := by
  rw [emitPhysical] at built
  obtain ⟨leftPlan, -, built⟩ := bind_ok_iff.mp built
  obtain ⟨rightPlan, emitted, built⟩ := bind_ok_iff.mp built
  cases (emitPhysical_tableRef known indexer tableAlias).symm.trans emitted
  obtain ⟨rightInfo, required, built⟩ := bind_ok_iff.mp built
  cases known.requireTable.symm.trans required
  obtain ⟨chosen, tried, built⟩ := bind_ok_iff.mp built
  cases chosen with
  | none => cases built
  | some plan =>
    cases built
    refine ⟨rfl, rfl, rfl, ?_⟩
    cases indexer with
    | none => cases tried
    | some indexes => exact tryIndexedJoin_some known tried

/-- Where the indexed join reads the key of a left row: it takes the first operand of ON for the left column. It reads
none if the second operand does not have the name of a right column. -/
def keyPosition (keyNames : NameMap) (columns : List Column) (first second : ColumnName) : Option ℕ :=
  if second.name ∈ columns.map (·.name) then resolve keyNames first else none

theorem extractJoinKeysNested_onEqual (keyNames : NameMap) (first : ColumnName)
    (owned : second.table.isSome → second.table = aliasRight → second.name ∈ info.columns.map (·.name)) :
    ∃ position, extractJoinKeysNested (onEqual first second : Option (Expr X)) keyNames
    (columnMap info.columns) aliasRight =
      .ok ((keyPosition keyNames info.columns first second).map (·, position)) := by
  rw [extractJoinKeysNested, equality?_onEqual, keyPosition]
  by_cases listed : second.name ∈ info.columns.map (·.name)
  · obtain ⟨i, found⟩ := mem_columnMap.mp listed
    refine ⟨i + keyNames.items.length, bind_ok_iff.mpr ⟨some (i + keyNames.items.length), ?_, ?_⟩⟩
    · rw [rightIdx, found]
      split_ifs <;> rfl
    · rw [if_pos listed]
      cases resolve keyNames first <;> rfl
  · have absent : (columnMap info.columns).get? second.name = none := by
      rw [← Option.not_isSome_iff_eq_none, Option.isSome_iff_exists]
      exact fun found => listed (mem_columnMap.mpr found)
    refine ⟨0, bind_ok_iff.mpr ⟨none, ?_, ?_⟩⟩
    · rw [rightIdx, absent, if_neg fun ⟨qualified, same⟩ => listed (owned qualified same)]
      rfl
    · rw [if_neg listed]
      cases resolve keyNames first <;> rfl

variable [Runtime X]

/-- Whether the values at two positions of a combined row are equal for ON. -/
def pairEqual (a b : ℕ) (left right : Row X) : Bool := sqlEq (valueAt (left ++ right) a) (valueAt (left ++ right) b)

def partners (a b : ℕ) (rightRows : List (Row X)) (left : Row X) : List (Row X) := rightRows.filter (pairEqual a b left)

theorem accepts_onEqual (operands : Operands names first second a b)
    (inside : a < (left ++ right).length ∧ b < (left ++ right).length) :
    accepts (onEqual first second) names (left ++ right) = .ok (pairEqual a b left right) := by
  have evalFirst := (evalColumn_of_resolve operands.1 (left ++ right)).trans (rowAt_of_lt inside.1)
  have evalSecond := (evalColumn_of_resolve operands.2 (left ++ right)).trans (rowAt_of_lt inside.2)
  simp only [accepts, onEqual, ColumnName.expr, evalExpr, evalFirst, evalSecond]
  rfl

theorem matching_of_accepts {joins : Row X → Bool}
    (decided : ∀ right ∈ rightRows, accepts on names (left ++ right) = .ok (joins right)) :
    matching on names left rightRows = .ok ((rightRows.filter joins).map (left ++ ·)) := by
  induction rightRows with
  | nil => rfl
  | cons right rest ih =>
    obtain ⟨here, others⟩ := forall_mem_cons.mp decided
    rw [matching, here, ih others, filter_cons]
    cases joins right <;> rfl

/-- The entries of an index on the column at `j`: every row whose value there is not NULL, under that value. -/
def keyed (j : ℕ) (rows : List (Rid × Row X)) : List (Entry X) :=
  (rows.filter fun item => !(valueAt item.2 j).isNone).map fun item => ([valueAt item.2 j], item.1)

/-- In an index that holds exactly the keys of a table, a look-up that gives only rids under the key gives each of them
once, and all are rids of the table. -/
theorem nodup_of_part {tree : BTree X} (distinct : (rows.map Prod.fst).Nodup) (exact : tree.entries.Perm (keyed j rows))
    {key : Key X} (part : rids.Sublist (tree.search key)) : rids.Nodup ∧ rids ⊆ rows.map Prod.fst := by
  have listed : (tree.entries.map Prod.snd).Perm
    ((rows.filter fun item => !(valueAt item.2 j).isNone).map Prod.fst) := by
    refine (exact.map _).trans (Perm.of_eq ?_)
    rw [keyed, map_map]
    rfl
  have within : rids.Sublist (tree.entries.map Prod.snd) := part.trans (filter_sublist.map _)
  have own : ((rows.filter fun item => !(valueAt item.2 j).isNone).map Prod.fst).Sublist (rows.map Prod.fst) :=
    filter_sublist.map _
  exact ⟨(listed.nodup_iff.mpr (distinct.sublist own)).sublist within, fun rid member =>
    own.subset (listed.subset (within.subset member))⟩

/-- The partners of a left row that the index gives for the value at `q`; none for NULL. -/
def indexedPartners (a b q : ℕ) (rows : List (Rid × Row X)) (search : Key X → List Rid) (left : Row X) : List (Row X) :=
  if (valueAt left q).isNone then [] else partners a b (fetch rows (search [valueAt left q])) left

theorem matching_onEqual (operands : Operands names first second a b) (inside : Inside a b left rightRows) :
    matching (onEqual first second) names left rightRows = .ok ((partners a b rightRows left).map (left ++ ·)) :=
  matching_of_accepts fun right member => accepts_onEqual operands (inside right member)

theorem nestedRow_onEqual (operands : Operands names first second a b) (inside : Inside a b left rightRows)
    (keep : Bool) :
    nestedRow (onEqual first second) names keep size rightRows left =
      .ok (padded keep (left ++ nulls size) ((partners a b rightRows left).map (left ++ ·))) :=
  bind_ok_iff.mpr ⟨_, matching_onEqual operands inside, rfl⟩

theorem indexedRow_onEqual {q : ℕ} (operands : Operands names first second a b) (insideKey : q < left.length)
    (inside : Inside a b left (rows.map Prod.snd)) (keep : Bool) :
    indexedRow (onEqual first second) names keep size rows search q left =
      .ok (padded keep (left ++ nulls size) ((indexedPartners a b q rows search left).map (left ++ ·))) := by
  rw [indexedRow, indexedPartners]
  refine bind_ok_iff.mpr ⟨_, rowAt_of_lt insideKey, ?_⟩
  by_cases none : (valueAt left q).isNone
  · rw [if_pos none, if_pos none]
    rfl
  · rw [if_neg none, if_neg none]
    exact bind_ok_iff.mpr ⟨_, matching_onEqual operands fun right fetched =>
      inside right (mem_of_mem_fetch fetched), rfl⟩

variable {ctx : Snapshot X} {left : Plan X}

/-- The rows the join is driven by, laid out as the names of their plan say. -/
structure LeftRows (ctx : Snapshot X) (left : Plan X) (aliasLeft : Option String) (names : NameMap)
    (rows : List (Row X)) :
    Prop where
  opened : openPlan ctx left = .ok rows
  named : rowN2i ctx.catalog left aliasLeft = .ok names
  widths : ∀ row ∈ rows, row.length = mapWidth names

/-- A table with an index that holds exactly its rows with a key that is not NULL, and in which a look-up gives rids
under the key. The key column stands at `j`. -/
structure RightTable (ctx : Snapshot X) (info : TableMeta) (indexName key : String) (index : LiveIndex X)
    (j : ℕ) : Prop where
  known : Registered ctx.catalog info
  widths : ∀ row ∈ (ctx.rows info.name).map Prod.snd, row.length = info.columns.length
  rids : ((ctx.rows info.name).map Prod.fst).Nodup
  found : (ctx.indexer.bind fun indexes => indexes.find? fun index => index.info.name = indexName) = some index
  column : (columnMap info.columns).get? key = some j
  exact : index.tree.entries.Perm (keyed j (ctx.rows info.name))
  part : ∀ key, (ctx.search index key).Sublist (index.tree.search key)

theorem openPlan_seqScan (known : Registered ctx.catalog info) :
    openPlan ctx (.seqScan info.name) = .ok ((ctx.rows info.name).map Prod.snd) :=
  bind_ok_iff.mpr ⟨info, known.getTable, rfl⟩

theorem openPlan_nested (driving : LeftRows ctx left aliasLeft names leftRows) (known : Registered ctx.catalog info)
    (operands : Operands (mergeMaps names (leafMap info.columns aliasRight)) first second a b)
    (inside : ∀ left ∈ leftRows, Inside a b left ((ctx.rows info.name).map Prod.snd)) (keep : Bool) :
    openPlan ctx (.nestedLoopJoin left (.seqScan info.name) (onEqual first second) keep aliasLeft aliasRight) =
      .ok (leftRows.flatMap fun left => padded keep (left ++ nulls (columnMap info.columns).items.length)
        ((partners a b ((ctx.rows info.name).map Prod.snd) left).map (left ++ ·))) := by
  have rightNames : rowN2i ctx.catalog (.seqScan info.name : Plan X) aliasRight =
    .ok (leafMap info.columns aliasRight) :=
    bind_ok_iff.mpr ⟨info, known.getTable, rfl⟩
  rw [openPlan]
  refine bind_ok_iff.mpr ⟨_, bind_ok_iff.mpr ⟨_, driving.named, bind_ok_iff.mpr ⟨_, rightNames, rfl⟩⟩, ?_⟩
  refine bind_ok_iff.mpr ⟨info, known.getTable, ?_⟩
  refine bind_ok_iff.mpr ⟨_, openPlan_seqScan known, bind_ok_iff.mpr ⟨_, driving.opened, ?_⟩⟩
  exact collectRows_of_rowsOf fun left among => nestedRow_onEqual operands (inside left among) keep

theorem openPlan_indexed (driving : LeftRows ctx left aliasLeft names leftRows)
    (table : RightTable ctx info indexName key index j)
    (keyNamed : rowN2i ctx.catalog left keyAlias = .ok keyNames)
    (owned : second.table.isSome → second.table = aliasRight → second.name ∈ info.columns.map (·.name))
    (operands : Operands (mergeMaps names (leafMap info.columns aliasRight)) first second a b)
    (inside : ∀ left ∈ leftRows, Inside a b left ((ctx.rows info.name).map Prod.snd)) :
    openPlan ctx (.indexedNestedLoopJoin left (.seqScan info.name) (onEqual first second) kind
      aliasLeft aliasRight info.name
      indexName key keyAlias) = .ok (match keyPosition keyNames info.columns first second with
        | none => []
        | some q => leftRows.flatMap fun left =>
          padded (kind = .left) (left ++ nulls (columnMap info.columns).items.length)
          ((indexedPartners a b q (ctx.rows info.name) (ctx.search index) left).map (left ++ ·))) := by
  have rightNames : rowN2i ctx.catalog (.seqScan info.name : Plan X) aliasRight =
    .ok (leafMap info.columns aliasRight) :=
    bind_ok_iff.mpr ⟨info, table.known.getTable, rfl⟩
  obtain ⟨position, extracted⟩ := extractJoinKeysNested_onEqual (X := X) keyNames first owned
  rw [openPlan]
  refine bind_ok_iff.mpr ⟨info, table.known.getTable, ?_⟩
  simp only [table.found]
  refine bind_ok_iff.mpr ⟨info, table.known.getTable, ?_⟩
  rw [if_neg (not_not.mpr (mem_columnMap.mpr ⟨j, table.column⟩))]
  refine bind_ok_iff.mpr ⟨_, keyNamed, ?_⟩
  refine bind_ok_iff.mpr ⟨_, bind_ok_iff.mpr ⟨_, driving.named, bind_ok_iff.mpr ⟨_, rightNames, rfl⟩⟩, ?_⟩
  refine bind_ok_iff.mpr ⟨_, extracted, ?_⟩
  cases taken : keyPosition keyNames info.columns first second with
  | none => rfl
  | some q =>
    refine bind_ok_iff.mpr ⟨_, driving.opened, collectRows_of_rowsOf fun left among => ?_⟩
    refine indexedRow_onEqual operands ?_ (inside left among) _
    rw [driving.widths left among]
    rw [keyPosition] at taken
    split_ifs at taken
    obtain ⟨name, found⟩ := exists_get?_of_resolve taken
    exact lt_width_of_rowN2i driving.named keyNamed found

/-- Whether the look-up of the left row's value at `q` leads to a right row. -/
def reached (search : Key X → List Rid) (q : ℕ) (left : Row X) (rid : Rid) : Bool :=
  !(valueAt left q).isNone && rid ∈ search [valueAt left q]

theorem indexedPartners_perm (distinct : (rows.map Prod.fst).Nodup)
    (looks : ∀ key, (search key).Nodup ∧ search key ⊆ rows.map Prod.fst) (q : ℕ) (left : Row X) :
    (indexedPartners a b q rows search left).Perm
      (((rows.filter fun item => pairEqual a b left item.2).filter fun item => reached search q left item.1).map
        Prod.snd) := by
  rw [indexedPartners]
  by_cases none : (valueAt left q).isNone
  · simp [reached, none]
  · have only : reached search q left = fun rid => decide (rid ∈ search [valueAt left q]) := by
      funext rid
      simp [reached, none]
    obtain ⟨once, known⟩ := looks [valueAt left q]
    rw [if_neg none, only, partners, filter_comm]
    exact ((fetch_perm distinct once known).filter _).trans (Perm.of_eq filter_map)

/-- What it takes for the two joins to give the same rows. The look-up of the value the key is read from has to give
every partner of a left row; in a LEFT join a single partner that looks like the padding does no harm. Without a key
position the indexed join gives nothing at all. -/
def SameRows (kind : JoinKind) (key : Option ℕ) (search : Key X → List Rid) (a b size : ℕ) (leftRows : List (Row X))
    (rows : List (Rid × Row X)) : Prop :=
  match key, kind with
  | some q, kind => ∀ left ∈ leftRows,
      (∀ item ∈ rows, pairEqual a b left item.2 = true → reached search q left item.1 = true) ∨
        (kind = .left ∧ partners a b (rows.map Prod.snd) left = [nulls size])
  | none, .inner => ∀ left ∈ leftRows, partners a b (rows.map Prod.snd) left = []
  | none, .left => leftRows = []

theorem padded_joins_perm_iff (widths : ∀ row ∈ leftRows, row.length = width) (distinct : (rows.map Prod.fst).Nodup)
    (looks : ∀ key, (search key).Nodup ∧ search key ⊆ rows.map Prod.fst) (q : ℕ) (kind : JoinKind) :
    (leftRows.flatMap fun left => padded (kind = .left) (left ++ nulls size)
        ((partners a b (rows.map Prod.snd) left).map (left ++ ·))).Perm
      (leftRows.flatMap fun left => padded (kind = .left) (left ++ nulls size)
        ((indexedPartners a b q rows search left).map (left ++ ·))) ↔
      SameRows kind (some q) search a b size leftRows rows := by
  have perm (left : Row X) := indexedPartners_perm (a := a) (b := b) distinct looks q left
  have all (left : Row X) : partners a b (rows.map Prod.snd) left =
      (rows.filter fun item => pairEqual a b left item.2).map Prod.snd := filter_map
  have sub (left : Row X) : ((indexedPartners a b q rows search left).map (left ++ ·)).Subperm
      ((partners a b (rows.map Prod.snd) left).map (left ++ ·)) := by
    rw [all]
    exact ((perm left).map _).subperm.trans ((filter_sublist.map _).map _).subperm
  cases kind with
  | inner =>
    simp only [reduceCtorEq, decide_false, padded_false]
    rw [perm_flatMap_iff fun left _ => sub left]
    simp only [SameRows, reduceCtorEq, false_and, or_false]
    exact forall₂_congr fun left _ => by rw [all, map_append_perm_iff (perm left)]
  | left =>
    simp only [decide_true]
    rw [perm_padded_iff (looksPadded width size) fun left _ => sub left]
    · simp only [SameRows, true_and]
      refine forall₂_congr fun left _ => or_congr (by rw [all, map_append_perm_iff (perm left)]) ?_
      rw [map_eq_singleton_iff]
      simp
    · exact fun left among => (looksPadded_append (widths left among)).mpr rfl
    · intro left among combined member looks
      obtain ⟨right, -, rfl⟩ := mem_map.mp member
      rw [(looksPadded_append (widths left among)).mp looks]

/-- The plan that `emit_physical` builds gives the rows of the nested loop exactly under `SameRows`. -/
theorem indexed_join_same_rows_iff {right : Plan X} {table key : String}
    (built : emitPhysical ctx.catalog ctx.indexer
        (.join source (.tableRef info.name tableAlias) kind (onEqual first second) (kind = .left)) =
        .ok (.indexedNestedLoopJoin left right (onEqual first second) kind aliasLeft aliasRight
          table indexName key keyAlias))
    (driving : LeftRows ctx left aliasLeft names leftRows) (keyNamed : rowN2i ctx.catalog left keyAlias = .ok keyNames)
    (indexed : RightTable ctx info indexName key index j)
    (operands : Operands (mergeMaps names (leafMap info.columns aliasRight)) first second a b)
    (equates : (a < mapWidth names ∧ b = mapWidth names + j) ∨ (a = mapWidth names + j ∧ b < mapWidth names)) :
    ∃ nestedRows indexedRows,
      openPlan ctx (.nestedLoopJoin left right (onEqual first second) (kind = .left) aliasLeft aliasRight) =
      .ok nestedRows ∧
      openPlan ctx (.indexedNestedLoopJoin left right (onEqual first second) kind aliasLeft
        aliasRight table indexName key keyAlias) = .ok indexedRows ∧
      (nestedRows.Perm indexedRows ↔ SameRows kind (keyPosition keyNames info.columns first second)
        (ctx.search index) a b (columnMap info.columns).items.length leftRows (ctx.rows info.name)) := by
  obtain ⟨rfl, rfl, rfl, first', second', equal, split⟩ := emitPhysical_indexed indexed.known built
  cases (equality?_onEqual first second).symm.trans equal
  have position : j < info.columns.length :=
    lt_of_mem_positions (·.name) (mem_of_mem_items_ofWrites (mem_of_get? indexed.column))
  have inside : ∀ left ∈ leftRows, Inside a b left ((ctx.rows info.name).map Prod.snd) := by
    intro left among right member
    rw [length_append, driving.widths left among, indexed.widths right member]
    omega
  -- A second operand under the right table's alias is the key column, so extracting the keys cannot raise.
  have owned : second.table.isSome → second.table =
    (LogicalPlan.tableRef info.name tableAlias : LogicalPlan X).aliasName →
      second.name ∈ info.columns.map (·.name) := by
    intro qualified same
    obtain ⟨owner, owns⟩ := Option.isSome_iff_exists.mp qualified
    rw [splitRefs_some split (belongsTo_alias owns (same.symm.trans owns))]
    exact mem_columnMap.mpr ⟨j, indexed.column⟩
  refine ⟨_, _, openPlan_nested driving indexed.known operands inside _,
    openPlan_indexed driving indexed keyNamed owned operands inside, ?_⟩
  cases taken : keyPosition keyNames info.columns first second with
  | some q =>
    have looks (lookup : Key X) := nodup_of_part indexed.rids indexed.exact (indexed.part lookup)
    exact padded_joins_perm_iff driving.widths indexed.rids looks q kind
  | none =>
    simp only [perm_nil, flatMap_eq_nil_iff]
    cases kind with
    | inner => simp [SameRows]
    | left =>
      simp only [SameRows, decide_true, padded_ne_nil, imp_false]
      exact eq_nil_iff_forall_not_mem.symm

def users : TableMeta := ⟨1, "users", [⟨"id", .int, false, false, false⟩], 2⟩

def orders : TableMeta := ⟨2, "orders", [⟨"uid", .int, false, false, false⟩], 3⟩

def ordersIndex (rows : List (Rid × Row Unit)) : LiveIndex Unit :=
    ⟨⟨"by_uid", "orders", ["uid"], false⟩, ⟨.int, keyed 0 rows⟩⟩

/-- Both tables hold the same rows of one column, and `orders` has an index. -/
def shop (rows : List (Rid × Row Unit)) : Snapshot Unit :=
  { catalog := ⟨.ofWrites [("users", users), ("orders", orders)], 3⟩
    rows := fun _ => rows
    indexer := some [ordersIndex rows]
    search := fun index => index.tree.search }

def userId : ColumnName := ⟨"id", some "u"⟩

def orderUser : ColumnName := ⟨"uid", some "o"⟩

/-- `users u JOIN orders o ON first = second` as planned. -/
def shopPlan (first second : ColumnName) : Plan Unit :=
  .indexedNestedLoopJoin (.seqScan "users") (.seqScan "orders") (onEqual first second) .inner (some "u") (some "o")
    "orders" "by_uid" "uid" (some "u")

def shopJoin (first second : ColumnName) : LogicalPlan Unit :=
  .join (.tableRef "users" (some "u")) (.tableRef "orders" (some "o")) .inner (onEqual first second)
  (JoinKind.inner = .left)

theorem shop_planned (rows : List (Rid × Row Unit)) (first second : ColumnName)
    (written : (first, second) = (userId, orderUser) ∨ (first, second) = (orderUser, userId)) :
    emitPhysical (shop rows).catalog (shop rows).indexer (shopJoin first second) = .ok (shopPlan first second) := by
  rcases written with same | same <;> obtain ⟨rfl, rfl⟩ := Prod.mk.inj same <;> rfl

variable {rows : List (Rid × Row Unit)}

theorem shop_users (widths : ∀ row ∈ rows.map Prod.snd, row.length = 1) :
    LeftRows (shop rows) (.seqScan "users") (some "u") (leafMap users.columns (some "u")) (rows.map Prod.snd) :=
  ⟨rfl, rfl, widths⟩

theorem shop_orders (widths : ∀ row ∈ rows.map Prod.snd, row.length = 1)
    (distinct : (rows.map Prod.fst).Nodup) : RightTable (shop rows) orders "by_uid" "uid" (ordersIndex rows) 0 :=
  ⟨rfl, widths, distinct, rfl, rfl, Perm.refl _, fun _ => Sublist.refl _⟩

def shopLoop (first second : ColumnName) : Plan Unit :=
  .nestedLoopJoin (.seqScan "users") (.seqScan "orders") (onEqual first second) (JoinKind.inner = .left)
  (some "u") (some "o")

def shopNames : NameMap := mergeMaps (leafMap users.columns (some "u")) (leafMap orders.columns (some "o"))

/-- With a key and a NULL in either table, `ON u.id = o.uid` loses the pair of NULLs and `ON o.uid = u.id` every pair.
-/
theorem indexed_join_loses_pairs : let rows : List (Rid × Row Unit) := [(⟨4, 0⟩, [.int 1]), (⟨4, 1⟩, [.none])]
    LeftRows (shop rows) (.seqScan "users") (some "u") (leafMap users.columns (some "u")) (rows.map Prod.snd) ∧
    RightTable (shop rows) orders "by_uid" "uid" (ordersIndex rows) 0 ∧
    Operands shopNames userId orderUser 0 1 ∧
    ∀ first second, (first, second) = (userId, orderUser) ∨ (first, second) = (orderUser, userId) →
      emitPhysical (shop rows).catalog (shop rows).indexer (shopJoin first second) = .ok (shopPlan first second) ∧
      ∃ found lost, openPlan (shop rows) (shopLoop first second) = .ok found ∧
        openPlan (shop rows) (shopPlan first second) = .ok lost ∧ ¬ found.Perm lost := by
  intro rows
  have widths : ∀ row ∈ rows.map Prod.snd, row.length = 1 := by simp [rows]
  refine ⟨shop_users widths, shop_orders widths (by decide), ⟨rfl, rfl⟩, fun first second written =>
    ⟨shop_planned _ _ _ written, ?_⟩⟩
  rcases written with same | same <;> cases same
  · exact ⟨[[.int 1, .int 1], [.none, .none]], [[.int 1, .int 1]], rfl, rfl,
      fun perm => absurd perm.length_eq (by decide)⟩
  · exact ⟨[[.int 1, .int 1], [.none, .none]], [], rfl, rfl, fun perm => absurd perm.length_eq (by decide)⟩

/-- Two rows with the same key and one with another: five pairs. -/
theorem indexed_join_same_rows_order :
    let rows : List (Rid × Row Unit) := [(⟨4, 0⟩, [.int 1]), (⟨4, 1⟩, [.int 2]), (⟨5, 0⟩, [.int 1])]
    ∃ nestedRows indexedRows, openPlan (shop rows) (shopLoop userId orderUser) = .ok nestedRows ∧
      openPlan (shop rows) (shopPlan userId orderUser) = .ok indexedRows ∧ nestedRows.length = 5 ∧
      nestedRows.Perm indexedRows := by
  intro rows
  have widths : ∀ row ∈ rows.map Prod.snd, row.length = 1 := by simp [rows]
  obtain ⟨nestedRows, indexedRows, nested, indexed, same⟩ := indexed_join_same_rows_iff (a := 0) (b := 1)
    (shop_planned _ _ _ (.inl rfl)) (shop_users widths) rfl (shop_orders widths (by decide))
    ⟨rfl, rfl⟩ (.inl (by decide))
  have found : openPlan (shop rows) (shopLoop userId orderUser) =
      .ok [[.int 1, .int 1], [.int 1, .int 1], [.int 2, .int 2], [.int 1, .int 1], [.int 1, .int 1]] := rfl
  cases found.symm.trans nested
  refine ⟨_, indexedRows, nested, indexed, rfl, same.mpr fun left among => .inl ?_⟩
  revert left
  decide

end Tinydb.Executor
