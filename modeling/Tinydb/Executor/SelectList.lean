import Tinydb.Executor.QueryPages
import Tinydb.Executor.Projection

/-! Select lists over one table.

`Project` knows the select list as a list of labels and as a list of items. A column that
was listed before gets no second label, so from there on the labels are one position ahead
of the items; and a label that happens to be the name of a column stands for the column.
-/

namespace Tinydb.Executor

open Lib Program Tinydb.Types Sql Storage Tx Index List
open Storage.Heap (Rid)

variable {X : Type} [Runtime X] {names before after : List String} {items : List (Expr X)} {e : Expr X}
  {index : NameIdx} {row out delivered : Row X} {labels : List String} {info : TableMeta}
  {scanned : IndexScan X → Except Exc (List Rid)} {db' : Database X}

/-- A SELECT over one table without aggregates and GROUP BY. -/
structure TableSelect (X : Type) where
  table : String
  filter : Option (Expr X)
  clauses : Clauses X

/-- `_plan_select` for one table. -/
def planSelect (catalog : Catalog) (indexes : List (LiveIndex X)) (stmt : TableSelect X) :
    Except Exc (TableMeta × Source X × List String) := do
  let info ← requireTable catalog stmt.table
  let source ← planSource stmt.filter info (some indexes)
  let labels ← projectColumns info stmt.clauses.columns
  match stmt.clauses.orderBy.find? fun key => key.column ∉ columnNames info with
  | some key => throw ⟨.unknownColumnError, key.column⟩
  | none => return (info, source, labels)

def selectTable (scanned : IndexScan X → Except Exc (List Rid)) (stmt : TableSelect X) : DbM X (List (Row X)) := do
  let db ← read
  let (info, source, labels) ← ofExcept (planSelect db.catalog db.indexes stmt)
  heapFor info
  let base ← sourceRows scanned info stmt.filter source
  ofExcept (answer (nameToIdx info.columns) info.name labels stmt.clauses base)

/-- The statement as one of the queries whose pages are counted. -/
def TableSelect.query (stmt : TableSelect X) : Query X :=
  .single stmt.table stmt.filter
    (fun info => do
      let labels ← projectColumns info stmt.clauses.columns
      match stmt.clauses.orderBy.find? fun key => key.column ∉ columnNames info with
      | some key => throw ⟨.unknownColumnError, key.column⟩
      | none => return labels)
    fun info labels base => answer (nameToIdx info.columns) info.name labels stmt.clauses base

theorem run_query (looks : Lookups X) (stmt : TableSelect X) : stmt.query.run looks = selectTable looks.scan stmt := by
  rw [TableSelect.query, Query.run, selectTable]
  congr 1
  funext db
  congr 2
  rw [planSingle, planSelect]
  refine congrArg _ (funext fun info => congrArg _ (funext fun source => ?_))
  rw [bind_assoc]
  refine congrArg _ (funext fun labels => ?_)
  cases stmt.clauses.orderBy.find? fun key => key.column ∉ columnNames info <;> rfl

theorem planSelect_eq_ok_iff {catalog : Catalog} {indexes : List (LiveIndex X)} {stmt : TableSelect X}
    {source : Source X} :
    planSelect catalog indexes stmt = .ok (info, source, labels) ↔ requireTable catalog stmt.table = .ok info ∧
      planSource stmt.filter info (some indexes) = .ok source ∧ projectColumns info stmt.clauses.columns = .ok labels ∧
      ∀ key ∈ stmt.clauses.orderBy, key.column ∈ columnNames info := by
  constructor
  · intro planned
    obtain ⟨info', found, planned⟩ := bind_ok_iff.mp planned
    obtain ⟨source', sourced, planned⟩ := bind_ok_iff.mp planned
    obtain ⟨labels', labelled, planned⟩ := bind_ok_iff.mp planned
    split at planned
    · cases planned
    · obtain ⟨⟩ := planned
      refine ⟨found, sourced, labelled, fun key member => not_not.mp fun unknown => ?_⟩
      exact find?_eq_none.mp ‹_› key member (decide_eq_true unknown)
  · rintro ⟨found, sourced, labelled, known⟩
    have none : stmt.clauses.orderBy.find? (fun key => key.column ∉ columnNames info) = none :=
      find?_eq_none.mpr fun key member => by simpa using known key member
    rw [planSelect, found, ok_bind, sourced, ok_bind, labelled, ok_bind, none]
    rfl

theorem returns_selectTable {stmt : TableSelect X} {db : Database X}
    {out : List (Row X)} : (selectTable scanned stmt).Returns db out db' ↔ ∃ info source labels mid base,
      planSelect db.catalog db.indexes stmt = .ok (info, source, labels) ∧ (heapFor info).Returns db () mid ∧
      (sourceRows scanned info stmt.filter source).Returns mid base db' ∧
      answer (nameToIdx info.columns) info.name labels stmt.clauses base = .ok out := by
  rw [selectTable, returns_read_bind]
  simp only [returns_bind, returns_ofExcept]
  constructor
  · rintro ⟨⟨info, source, labels⟩, _, ⟨planned, rfl⟩, _, mid, bound, base, _, opened, answered, rfl⟩
    exact ⟨info, source, labels, mid, base, planned, bound, opened, answered⟩
  · rintro ⟨info, source, labels, mid, base, planned, bound, opened, answered⟩
    exact ⟨_, db, ⟨planned, rfl⟩, _, mid, bound, base, db', opened, answered, rfl⟩

def isColumn : Expr X → Bool
  | .columnRef .. => true
  | _ => false

def Answers (index : NameIdx) (items : List (Expr X)) (row out : Row X) : Prop :=
  Forall₂ (fun e value => evalExpr index row e = .ok value) items out

def ListedOnce (items : List (Expr X)) : Prop := items.Pairwise fun a b => isColumn b → label a ≠ label b

/-- An item whose label is the name of a column has the value of that column. -/
def Unshadowed (index : NameIdx) (row : Row X) (items : List (Expr X)) : Prop :=
  ∀ e ∈ items, ∀ i, isColumn e = false → index (label e) = some i → evalExpr index row e = rowAt row i

theorem projectItem_cases (added : projectItem names before (.expr e) = .ok after) :
    after = before ++ [label e] ∧ (isColumn e → label e ∉ before) ∨ after = before ∧ isColumn e ∧ label e ∈ before := by
  cases e with
  | columnRef name table =>
    rw [projectItem] at added
    split_ifs at added
    cases added
    rw [addName]
    split_ifs with seen
    · exact .inr ⟨rfl, rfl, seen⟩
    · exact .inl ⟨rfl, fun _ => seen⟩
  | literal | typedLiteral | binaryOp | unaryOp | aggregate => exact .inl ⟨(Except.ok.inj added).symm, nofun⟩

theorem projectItems_cases (listed : (items.map SelectItem.expr).foldlM (projectItem names) before = .ok after) :
    (after = before ++ items.map label ∧ ListedOnce items ∧ ∀ e ∈ items, isColumn e → label e ∉ before) ∨
      (after.length < before.length + items.length ∧
        ¬ (ListedOnce items ∧ ∀ e ∈ items, isColumn e → label e ∉ before)) := by
  induction items generalizing before with
  | nil =>
    cases listed
    exact .inl ⟨by simp, .nil, nofun⟩
  | cons e rest ih =>
    rw [map_cons, foldlM_cons] at listed
    obtain ⟨mid, first, later⟩ := bind_ok_iff.mp listed
    rcases projectItem_cases first with ⟨rfl, new⟩ | ⟨rfl, column, old⟩
    · rcases ih later with ⟨rfl, once, absent⟩ | ⟨short, twice⟩
      · refine .inl ⟨by simp, pairwise_cons.mpr ⟨fun other member column same => ?_, once⟩,
          fun other member column => ?_⟩
        · exact absent other member column (by simp [same])
        · rcases mem_cons.mp member with rfl | member
          · exact new column
          · exact fun old => absent other member column (mem_append_left _ old)
      · refine .inr ⟨by simp at short ⊢; omega, fun ⟨once, absent⟩ =>
          twice ⟨(pairwise_cons.mp once).2, fun other member column old => ?_⟩⟩
        rcases mem_append.mp old with old | same
        · exact absent other (mem_cons_of_mem _ member) column old
        · exact (pairwise_cons.mp once).1 other member column (mem_singleton.mp same).symm
    · refine .inr ⟨?_, fun ⟨_, absent⟩ => absent e mem_cons_self column old⟩
      rcases ih later with ⟨rfl, -⟩ | ⟨short, -⟩
      · simp
      · simp at short ⊢
        omega

theorem projectColumns_expr (info : TableMeta) (items : List (Expr X)) :
    projectColumns info (items.map .expr) = (items.map SelectItem.expr).foldlM (projectItem (columnNames info)) [] := by
  rw [projectColumns]
  intro star
  cases items with
  | nil => exact nomatch star
  | cons e rest => exact nomatch (List.cons.inj star).1

theorem length_projectRow {listed : List (SelectItem X)}
    (projected : projectRow index row listed labels = .ok out) : out.length = labels.length := by
  induction labels generalizing listed out with
  | nil =>
    cases projected
    rfl
  | cons name names ih =>
    obtain ⟨value, -, others⟩ := bind_ok_iff.mp projected
    obtain ⟨rest, later, rfl⟩ := bind_return_iff.mp others
    rw [length_cons, length_cons, ih later]

theorem projectValue_column (index : NameIdx) (row : Row X) (column : isColumn e) :
    projectValue index row (some (.expr e)) (label e) = evalExpr index row e := by
  cases e with
  | columnRef name table =>
    rw [projectValue, slot, evalExpr, evalColumn]
    simp only [qualifier, Option.bind_some, label]
    cases qualified : table.bind fun table => index (table ++ "." ++ name) with
    | some i => rfl
    | none => cases found : index name <;> simp [evalItem, evalExpr, evalColumn, qualified, found]
  | literal | typedLiteral | binaryOp | unaryOp | aggregate => exact Bool.noConfusion column

theorem projectValue_other (index : NameIdx) (row : Row X) (other : isColumn e = false) :
    projectValue index row (some (.expr e)) (label e) = match index (label e) with
      | some i => rowAt row i
      | none => evalExpr index row e := by
  have bare : slot index (some (.expr e)) (label e) = index (label e) := by
    cases e with
    | columnRef => exact nomatch other
    | literal | typedLiteral | binaryOp | unaryOp | aggregate => rfl
  rw [projectValue, bare]
  cases index (label e) <;> rfl

/-- Projected to its labels, one row has the values that the items have on another. -/
def ReadsAs (index : NameIdx) (items : List (Expr X)) (delivered asked : Row X) : Prop :=
  ∀ e ∈ items, projectValue index delivered (some (.expr e)) (label e) = evalExpr index asked e

theorem readsAs_self : ReadsAs index items row row ↔ Unshadowed index row items := by
  refine forall₂_congr fun e _ => ?_
  cases kind : isColumn e with
  | true => exact iff_of_true (projectValue_column index row kind) nofun
  | false =>
    rw [projectValue_other index row kind]
    cases index (label e) with
    | none => exact iff_of_true rfl nofun
    | some i => simp [eq_comm]

theorem projectRow_cons_iff {name : String} {item : SelectItem X} {listed : List (SelectItem X)} :
    projectRow index row (item :: listed) (name :: labels) = .ok out ↔ ∃ value values,
      projectValue index row (some item) name = .ok value ∧ projectRow index row listed labels = .ok values ∧
        out = value :: values := by
  constructor
  · intro projected
    obtain ⟨value, first, others⟩ := bind_ok_iff.mp projected
    obtain ⟨values, later, rfl⟩ := bind_return_iff.mp others
    exact ⟨value, values, first, later, rfl⟩
  · rintro ⟨value, values, first, later, rfl⟩
    exact bind_ok_iff.mpr ⟨value, first, bind_ok_iff.mpr ⟨values, later, rfl⟩⟩

/-- With a label for every item, a row is projected to the answers on the row that it reads as. -/
theorem ReadsAs.projectRow_iff {asked : Row X} (reads : ReadsAs index items delivered asked) :
    projectRow index delivered (items.map .expr) (items.map label) = .ok out ↔ Answers index items asked out := by
  unfold Answers
  induction items generalizing out with
  | nil => exact ⟨fun done => Except.ok.inj done ▸ .nil, fun none => forall₂_nil_left_iff.mp none ▸ rfl⟩
  | cons e rest ih =>
    obtain ⟨here, later⟩ := forall_mem_cons.mp reads
    simp only [map_cons, projectRow_cons_iff, forall₂_cons_left_iff, here, ih later]

theorem readsAs_of_projectRow {asked : Row X}
    (projected : projectRow index delivered (items.map .expr) (items.map label) = .ok out)
    (answers : Answers index items asked out) : ReadsAs index items delivered asked := by
  unfold Answers at answers
  induction answers with
  | nil => exact forall_mem_nil _
  | cons first _ ih =>
    obtain ⟨_, _, here, later, ⟨⟩⟩ := projectRow_cons_iff.mp projected
    exact forall_mem_cons.mpr ⟨here.trans first.symm, ih later⟩

section

variable (listed : projectColumns info (items.map .expr) = .ok labels)
include listed

theorem labels_of_listedOnce (once : ListedOnce items) :
    items.map label = labels := by
  rw [projectColumns_expr] at listed
  rcases projectItems_cases listed with ⟨rfl, -⟩ | ⟨-, twice⟩
  · rw [nil_append]
  · exact (twice ⟨once, fun _ _ _ => not_mem_nil⟩).elim

theorem listedOnce_of_projectRow
    (projected : projectRow index row (items.map .expr) labels = .ok out) (full : out.length = items.length) :
    ListedOnce items := by
  rw [projectColumns_expr] at listed
  rcases projectItems_cases listed with ⟨-, once, -⟩ | ⟨short, -⟩
  · exact once
  · rw [← length_projectRow projected, full] at short
    simp at short

theorem answers_iff (projected : projectRow index row (items.map .expr) labels = .ok out) :
    Answers index items row out ↔ ListedOnce items ∧ Unshadowed index row items := by
  rw [← readsAs_self]
  constructor
  · intro answers
    have once := listedOnce_of_projectRow listed projected answers.length_eq.symm
    obtain rfl := labels_of_listedOnce listed once
    exact ⟨once, readsAs_of_projectRow projected answers⟩
  · rintro ⟨once, reads⟩
    obtain rfl := labels_of_listedOnce listed once
    exact reads.projectRow_iff.mp projected

theorem length_projectColumns : labels.length ≤ items.length := by
  rw [projectColumns_expr] at listed
  rcases projectItems_cases listed with ⟨rfl, -⟩ | ⟨short, -⟩
  · simp
  · simpa using short.le

end

/-- Every row of the result comes from a row of the source, and answers the items on it in their order exactly if no
column is listed after an item with its name and no label stands for a column by accident. -/
theorem select_list_positional_iff {stmt : TableSelect X}
    {db : Database X} {out : List (Row X)} (listed : stmt.clauses.columns = items.map .expr)
    (returned : (selectTable scanned stmt).Returns db out db') :
    ∃ info source mid base rows, requireTable db.catalog stmt.table = .ok info ∧
      planSource stmt.filter info (some db.indexes) = .ok source ∧ (heapFor info).Returns db () mid ∧
      (sourceRows scanned info stmt.filter source).Returns mid base db' ∧ rows.Subperm base ∧
      Forall₂ (fun row o => Answers (nameToIdx info.columns) items row o ↔
        ListedOnce items ∧ Unshadowed (nameToIdx info.columns) row items) rows out := by
  obtain ⟨info, source, labels, mid, base, planned, bound, opened, answered⟩ := returns_selectTable.mp returned
  obtain ⟨found, sourced, labelled, -⟩ := planSelect_eq_ok_iff.mp planned
  rw [listed] at labelled
  have covers : labels.length ≤ stmt.clauses.columns.length := by
    rw [listed, length_map]
    exact length_projectColumns labelled
  obtain ⟨rows, among, related⟩ := answer_projects (.inl covers) answered
  refine ⟨info, source, mid, base, rows, found, sourced, bound, opened, among, related.imp fun row o projected => ?_⟩
  rw [listed] at projected
  exact answers_iff labelled projected

/-- `t (a INT)` with the row `(7)`. -/
def seven : Database Unit := (execute (.insert "t" none [[.int 7]]) (numbers [])).state

/-- `SELECT ... FROM t`. -/
def listOf (items : List (Expr Unit)) : TableSelect Unit := ⟨"t", none, ⟨items.map .expr, [], none, none⟩⟩

def columnA : Expr Unit := .columnRef "a" none

/-- `1 + 2`. -/
def three : Expr Unit := .binaryOp (.arith .add) (.literal (.int 1)) (.literal (.int 2))

/-- `SELECT a, 1 + 2 FROM t`. -/
theorem select_list_positional_sum :
    ∃ db' row, (selectTable IndexScan.rids (listOf [columnA, three])).Returns seven [[.int 7, .int 3]] db' ∧
    Answers (nameToIdx numbersInfo.columns) [columnA, three] row [.int 7, .int 3] := by
  have returned : (selectTable IndexScan.rids (listOf [columnA, three])).Returns seven [[.int 7, .int 3]] _ :=
    ⟨by decide +kernel, rfl⟩
  obtain ⟨info, source, mid, base, rows, found, -, -, -, -, answers⟩ := select_list_positional_iff rfl returned
  obtain rfl : numbersInfo = info := Except.ok.inj (Eq.trans (by decide +kernel) found)
  obtain ⟨row, _, iff, ⟨⟩, rfl⟩ := forall₂_cons_right_iff.mp answers
  refine ⟨_, row, returned, iff.mpr ⟨by simp [ListedOnce, isColumn, columnA, three], fun e member i other named => ?_⟩⟩
  simp only [mem_cons, not_mem_nil, or_false] at member
  rcases member with rfl | rfl
  · exact nomatch other
  · exact nomatch named

/-- `SELECT a, a FROM t` has rows of one value. -/
theorem repeated_column_dropped : ¬ ∀ (stmt : TableSelect Unit) (items : List (Expr Unit))
    (db db' : Database Unit) (out : List (Row Unit)), stmt.clauses.columns = items.map .expr →
    (selectTable IndexScan.rids stmt).Returns db out db' →
    ∀ o ∈ out, o.length = items.length := by
  intro claimed
  have returned : (selectTable IndexScan.rids (listOf [columnA, columnA])).Returns seven [[.int 7]] _ :=
    ⟨by decide +kernel, rfl⟩
  exact absurd (claimed _ [columnA, columnA] _ _ _ rfl returned [.int 7] mem_cons_self) (by decide)

end Tinydb.Executor
