import Tinydb.Executor.PlanRun
import Tinydb.Executor.DmlRows
import Tinydb.Storage.Taken

/-! Which statements take a page.

A heap object makes a new head page before it is pointed at a table's chain. SELECT keeps
the heaps it made, so it takes a page for every table it opens for the first time;
INSERT makes one each time.
-/

namespace Tinydb.Executor

open Lib Program Tinydb.Types Sql Storage Tx Index
open Storage.Heap

variable {X : Type} {db : Database X} {info : TableMeta} {lay : Layout} {J : Database X → Prop}
  {looks : Lookups X} {query : Query X} {heads : List ℕ} {db' : Database X} {records : List (Rid × Bytes)}
  {values : List (Row X)}

theorem returns_heapFor_bound (bound : info.tableId ∈ db.heaps) : (heapFor info).Returns db () db := by
  rw [heapFor, returns_read_bind, if_pos bound]
  exact ⟨rfl, rfl⟩

theorem wp_heapFor_new {P : Pager → Prop} (unbound : info.tableId ∉ db.heaps)
    (made : Heap.new.wp (fun _ mgr => P mgr.pager) (fun _ mgr => P mgr.pager) db.txn) :
    (heapFor info).wp (fun _ (db' : Database X) => P db'.txn.pager) (fun _ db' => P db'.txn.pager) db := by
  rw [heapFor, wp_bind, wp_read, if_neg unbound, wp_bind]
  exact made

def Taken (pg : Pager) (lay : Layout) (db : Database X) : Prop := ∃ lay', Advanced pg lay db.txn.pager lay'

theorem Taken.wp_heapFor {pg : Pager} (info : TableMeta) (taken : Taken pg lay db) :
    (heapFor info).wp (fun _ => Taken (X := X) pg lay) (fun _ => Taken pg lay) db := by
  by_cases bound : info.tableId ∈ db.heaps
  · exact (wp_of_returns (returns_heapFor_bound bound)).mpr taken
  · obtain ⟨lay', advanced⟩ := taken
    exact wp_heapFor_new (P := fun pager => ∃ lay', Advanced pg lay pager lay') bound advanced.wp_new

theorem wp_heapFor_takes (laid : Laid [] db.txn.pager lay) (inStep : db.txn.pager.InStep)
    (unbound : info.tableId ∉ db.heaps) :
    (heapFor info).wp (fun _ => Taken (X := X) db.txn.pager lay) (fun _ => Taken db.txn.pager lay) db :=
  wp_heapFor_new (P := fun pager => ∃ lay', Advanced db.txn.pager lay pager lay') unbound (wp_new_advances laid inStep)

theorem onTxn_lawful : Program.Lawful (fun db : Database X => db.txn) (fun txn db => { db with txn }) :=
  ⟨fun _ _ => rfl, fun _ => rfl, fun _ _ _ => rfl⟩

variable [Runtime X]

/-- The tables a SELECT opens: none if it cannot be planned, the one table of a simple query, and for a join the
tables that rows are read from. The right table of an indexed join is not among them if no key of a left row is in the
index. -/
def Query.opens (looks : Lookups X) (db : Database X) : Query X → List TableMeta
  | .single table filter check _ =>
    match planSingle db table filter check with
    | .ok (info, _) => [info]
    | .error _ => []
  | .join source check above =>
    match planJoin db source check with
    | .ok plan => (joinRows looks db above plan).requests
    | .error _ => []

theorem reads_sourceRows (scanned : IndexScan X → Except Exc (List Rid)) (info : TableMeta) (filter : Option (Expr X))
    (source : Source X) : (sourceRows scanned info filter source).Reads := by
  refine reads_zoom onTxn_lawful (reads_bind ?_ fun rids => ?_)
  · cases source with
    | seqScan => exact reads_scan _
    | indexScan scan => exact reads_ofExcept _
  · exact reads_collect fun rid _ => reads_filterRow rid

theorem wp_single {table : String} {filter : Option (Expr X)} {check : TableMeta → Except Exc (List String)}
    {finish : TableMeta → List String → List (Row X) → Except Exc (List (Row X))}
    (unopened : (Query.single table filter check finish).opens looks db = [] → J db)
    (opened : ∀ info, (Query.single table filter check finish).opens looks db = [info] →
      (heapFor info).wp (fun _ => J) (fun _ => J) db) :
    ((Query.single table filter check finish).run looks).wp (fun _ => J) (fun _ => J) db := by
  rw [Query.run, wp_bind, wp_read, wp_bind]
  rw [Query.opens] at unopened opened
  cases planned : planSingle db table filter check with
  | error e => exact unopened (by rw [planned])
  | ok plan =>
    obtain ⟨info, source, labels⟩ := plan
    rw [planned] at opened
    rw [wp_ofExcept_ok, wp_bind]
    refine (opened info rfl).mono (fun _ db' reached => ?_) fun _ _ reached => reached
    rw [wp_bind]
    refine (reads_sourceRows looks.scan info filter source).wp (fun rows _ => ?_) fun _ _ => reached
    rw [wp_ofExcept]
    exact ⟨fun _ _ => reached, fun _ _ => reached⟩

theorem wp_join {source : LogicalPlan X} {check : Catalog → Except Exc Unit} {above : Above X}
    (unopened : (Query.join source check above).opens looks db = [] → J db)
    (opened : ∀ g : RowGen (Row X), (Query.join source check above).opens looks db = g.requests →
      (g.run heapFor).wp (fun _ => J) (fun _ => J) db) :
    ((Query.join source check above).run looks).wp (fun _ => J) (fun _ => J) db := by
  rw [Query.run, wp_bind, wp_read, wp_bind]
  rw [Query.opens] at unopened opened
  cases planned : planJoin db source check with
  | error e => exact unopened (by rw [planned])
  | ok plan =>
    rw [planned] at opened
    rw [wp_ofExcept_ok, wp_bind]
    refine (opened _ rfl).mono (fun rows db' reached => ?_) fun _ _ reached => reached
    rw [wp_ofExcept]
    exact ⟨fun _ _ => reached, fun _ _ => reached⟩

theorem Query.run_bound (bound : ∀ info ∈ query.opens looks db, info.tableId ∈ db.heaps) :
    (query.run looks db).state = db := by
  refine wp_state (P := (· = db)) ?_
  cases query with
  | single table filter check finish =>
    refine wp_single (fun _ => rfl) fun info opens => ?_
    exact (wp_of_returns (returns_heapFor_bound (bound info (by rw [opens]; exact List.mem_singleton_self _)))).mpr rfl
  | join source check above =>
    refine wp_join (fun _ => rfl) fun g opens => ?_
    have stays : (g.run heapFor db).state = db :=
      g.run_of_idle fun info asked => returns_heapFor_bound (bound info (opens ▸ asked))
    exact wp_iff.mpr ⟨fun _ _ returned => returned.2.symm.trans stays, fun _ _ raised => raised.2.symm.trans stays⟩

theorem Query.run_taken (laid : Laid [] db.txn.pager lay) (inStep : db.txn.pager.InStep)
    (unbound : ∃ info ∈ query.opens looks db, info.tableId ∉ db.heaps) :
    Taken db.txn.pager lay (query.run looks db).state := by
  refine wp_state ?_
  obtain ⟨info, opens, new⟩ := unbound
  cases query with
  | single table filter check finish =>
    refine wp_single (fun none => by simp [none] at opens) fun only single => ?_
    rw [single, List.mem_singleton] at opens
    exact wp_heapFor_takes laid inStep (opens ▸ new)
  | join source check above =>
    refine wp_join (fun none => by simp [none] at opens) fun g requests => ?_
    exact g.wp_run_of_request (fun info (bound : info.tableId ∈ db.heaps) => returns_heapFor_bound bound)
      (fun _ => wp_heapFor_takes laid inStep) (fun info _ => Taken.wp_heapFor info) ⟨info, requests ▸ opens, new⟩

theorem returns_storeRow_forward (columns : info.columns ≠ [])
    (table : TableIn heads db.txn lay info records) {row : Row X}
    (returned : (storeRow info row).Returns db () db') : ∃ lay' records', TableIn heads db'.txn lay' info records' ∧
      db.txn.pager.numPages ≤ db'.txn.pager.numPages ∧ lay'.free <:+ lay.free := by
  obtain ⟨rid, blob, txn, indexes, encoded, placed, -, rfl⟩ := storeRow_returned returned
  have tags : info.tags ≠ [] := fun none => columns (List.map_eq_nil_iff.mp none)
  obtain ⟨lay', inserted⟩ := (wp_insert table.laid table.member (ne_nil_of_encodeRow tags encoded)).returns placed
  exact ⟨lay', _, table.inserted inserted, inserted.moves.forward⟩

theorem returns_storeRows_forward (columns : info.columns ≠ []) (table : TableIn heads db.txn lay info records)
    (returned : (forEach values (storeRow info)).Returns db () db') : ∃ lay', Laid heads db'.txn.pager lay' ∧
      db.txn.pager.numPages ≤ db'.txn.pager.numPages ∧ lay'.free <:+ lay.free := by
  induction values generalizing lay records db with
  | nil =>
    obtain rfl := returns_forEach_nil.mp returned
    exact ⟨lay, table.laid, le_refl _, List.suffix_rfl⟩
  | cons value values ih =>
    obtain ⟨mid, first, later⟩ := returns_forEach_cons.mp returned
    obtain ⟨lay₁, _, table₁, grows₁, suffix₁⟩ := returns_storeRow_forward columns table first
    obtain ⟨lay', laid, grows, suffix⟩ := ih table₁ later
    exact ⟨lay', laid, grows₁.trans grows, suffix.trans suffix₁⟩

theorem insertRows_takes (columns : info.columns ≠ []) (table : TableIn heads db.txn lay info records)
    (known : db.catalog.byName.get? info.name = some info) {n : ℕ}
    (returned : (insertRows info.name values).Returns db n db') :
    db.txn.pager.numPages < db'.txn.pager.numPages ∨ db'.txn.pager.freeHead ≠ db.txn.pager.freeHead := by
  obtain ⟨found, mid, bound, stored, -⟩ := insertRows_returned returned
  obtain ⟨rfl, pid, txn, made, rfl⟩ := dmlContext_returned known bound
  obtain ⟨pager, rfl, lay₁, took, fewer⟩ := (wp_new_fewer table.laid).returns made
  have kept : Kept false heads db.txn lay found.heapPid { db.txn with pager } lay₁ :=
    Kept.of_took table.laid table.member took
  have table₁ : TableIn heads { db.txn with pager } lay₁ found records := table.kept kept
  obtain ⟨lay', laid', grows, suffix⟩ := returns_storeRows_forward columns table₁ stored
  exact (fewer.later grows suffix).pager table.laid laid' (suffix.trans took.free)

def NoneTaken (pg pg' : Pager) : Prop := pg'.numPages = pg.numPages ∧ pg'.freeHead = pg.freeHead

/-- A SELECT leaves the file as it is if the executor has a heap for every table it opens, and only then; an INSERT that
succeeds always takes a page. -/
theorem pages_untouched_iff (looks : Lookups X) (db : Database X) (query : Query X) :
    ((∀ info ∈ query.opens looks db, info.tableId ∈ db.heaps) →
      Heap.SamePages db.txn.pager (query.run looks db).state.txn.pager) ∧
    ∀ heads lay, Laid heads db.txn.pager lay → db.txn.pager.InStep →
      (Heap.SamePages db.txn.pager (query.run looks db).state.txn.pager →
        ∀ info ∈ query.opens looks db, info.tableId ∈ db.heaps) ∧
      ∀ info records columns values result db', TableIn heads db.txn lay info records →
        db.catalog.byName.get? info.name = some info → info.columns ≠ [] →
        (execute (.insert info.name columns values)).Returns db result db' →
        ¬ NoneTaken db.txn.pager db'.txn.pager := by
  refine ⟨fun bound => ?_, fun heads lay laid inStep => ⟨fun same => ?_, ?_⟩⟩
  · rw [Query.run_bound bound]
    exact .refl _
  · by_contra unbound
    push Not at unbound
    obtain ⟨lay', advanced⟩ := Query.run_taken laid.forget inStep unbound
    exact advanced.not_samePages laid.forget inStep same
  · rintro info records columns values result db' table known some inserted ⟨count, head⟩
    obtain ⟨rows, n, -, stored, -⟩ := returns_execute_insert.mp inserted
    exact (insertRows_takes some table known stored).elim count.le.not_gt fun moved => moved head

/-! A table with one column in a new file. -/

def numbersInfo : TableMeta := ⟨1, "t", [⟨"a", .int, false, false, false⟩], 4⟩

def numbers (heaps : List ℕ) : Database Unit := ⟨firstHeap, ⟨Dict.empty.set "t" numbersInfo, 2⟩, [], [], heaps, false⟩

/-- `SELECT * FROM t`. -/
def allNumbers : Query Unit := .single "t" none (fun info => .ok (columnNames info)) fun _ _ => .ok

/-- Of indexes that are read as they are. -/
def contents : Lookups Unit := ⟨fun index => index.tree.search, IndexScan.rids⟩

theorem inStep_firstHeap : firstHeap.pager.InStep := by
  have fits : Pager.HeaderFits { Pager.initNew.zeroed 5 with numPages := 5 } := by decide
  obtain ⟨fits, page, header⟩ := Pager.inStep_headed fits
  exact ⟨fits, page, (Pager.put_file_other _ _ (by decide)).trans header⟩

/-- With a heap for the table, SELECT leaves the file alone; an INSERT does not. -/
theorem pages_untouched_bound :
    Heap.SamePages (numbers [1]).txn.pager (allNumbers.run contents (numbers [1])).state.txn.pager ∧
    ∃ db', (execute (.insert "t" none [[.int 7]])).Returns (numbers [1]) [[.int 1]] db' ∧
      ¬ NoneTaken (numbers [1]).txn.pager db'.txn.pager := by
  obtain ⟨lay, table⟩ := tableIn_firstHeap numbersInfo rfl
  have iff := pages_untouched_iff contents (numbers [1]) allNumbers
  refine ⟨iff.1 (by decide +kernel), _, ⟨by decide +kernel, rfl⟩, ?_⟩
  exact (iff.2 [4] lay table.laid inStep_firstHeap).2 numbersInfo [] none [[.int 7]] [[.int 1]] _ table rfl (by decide)
    ⟨by decide +kernel, rfl⟩

/-- The first SELECT takes a page, and so does an INSERT that finds room on the table's page. -/
theorem first_select_takes_page :
    ¬ Heap.SamePages (numbers []).txn.pager (allNumbers.run contents (numbers [])).state.txn.pager ∧
    (∃ blob, encodeRowCoerced (X := Unit) [.int 7] numbersInfo.tags = .ok blob ∧
      HasRoom ((numbers []).txn.pager.file numbersInfo.heapPid) blob) ∧
    ¬ NoneTaken (numbers []).txn.pager (execute (.insert "t" none [[.int 7]]) (numbers [])).state.txn.pager := by
  refine ⟨fun same => ?_, ?_, fun same => ?_⟩
  · exact absurd same.1 (by decide +kernel)
  · refine ⟨_, rfl, ?_⟩
    rw [HasRoom, show (numbers []).txn.pager.file numbersInfo.heapPid = emptyPage from file_firstHeap,
      freeBytes_emptyPage]
    decide
  · exact absurd same.1 (by decide +kernel)

end Tinydb.Executor
