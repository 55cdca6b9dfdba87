import Tinydb.Index.CatalogText
import Tinydb.Storage.HeapChain

/-! The catalog with its two pages (`storage/catalog.py`).

Tables are kept on page 1 and indexes on page 2, both rewritten as a whole by every
change. What a new catalog on the same file finds are the definitions in the order of
their names, up to the first that has no room on its page.
-/

namespace Tinydb.Index

open Lib Program Tinydb.Types Storage Heap List Pager Dict

/-- A kind of entry: its name and its text. -/
structure EntryFormat (E : Type) where
  name : E → String
  dumps : E → Bytes
  loads : Bytes → Except Exc E
  loads_dumps : ∀ entry, loads (dumps entry) = .ok entry
  dumps_nonempty : ∀ entry, dumps entry ≠ []

def tableFormat : EntryFormat TableMeta :=
  ⟨TableMeta.name, serializeMeta, deserializeMeta, deserializeMeta_serializeMeta, fun _ => jsonBytes_nonempty _⟩

theorem serializeIndexMeta_nonempty (entry : IndexEntry) : serializeIndexMeta entry ≠ [] := jsonBytes_nonempty _

def indexFormat : EntryFormat IndexEntry :=
  ⟨fun entry => entry.name, serializeIndexMeta, deserializeIndexMeta, deserializeIndexMeta_serializeIndexMeta,
    serializeIndexMeta_nonempty⟩

variable {E : Type} (format : EntryFormat E)

def sortedEntries (entries : Dict String E) : List E :=
  (entries.items.map Prod.snd).mergeSort fun a b => decide (format.name a ≤ format.name b)

def entryBlobs (entries : Dict String E) : List Bytes := (sortedEntries format entries).map format.dumps

/-- `_persist` and `_persist_indexes`. -/
def persist (pid : ℕ) (entries : Dict String E) : PagerM Unit := do
  let page ← ofExcept (catalogPage (entryBlobs format entries))
  writePage pid page.bytes

/-- The loop of `_load_from_disk` and `_load_indexes_from_disk`. -/
def loadPage (pid : ℕ) : PagerM (List E) := do
  let page ← readPage pid
  ofExcept ((catalogEntries page).mapM format.loads)

def byNames (entries : List E) : Dict String E := ofWrites (entries.map fun entry => (format.name entry, entry))

def Fits (entries : Dict String E) : Prop := CATALOG_HEADER_SIZE + blobsSize (entryBlobs format entries) ≤ PAGE_SIZE

variable {name : String} {pg : Pager} {pid : ℕ} {format : EntryFormat E} {entries : Dict String E} {entry : E}

def UnderName (format : EntryFormat E) (entries : Dict String E) : Prop :=
  ∀ name entry, entries.get? name = some entry → format.name entry = name

section

variable (named : UnderName format entries)
include named

theorem UnderName.set (isNamed : format.name entry = name) :
    UnderName format (entries.set name entry) := by
  intro other found there
  rw [get?_set] at there
  split at there
  case isTrue same =>
    cases there
    exact isNamed.trans same.symm
  case isFalse => exact named other found there

theorem UnderName.erase (name : String) : UnderName format (entries.erase name) := by
  intro other found there
  have item : (other, found) ∈ entries.items := (mem_filter.mp (mem_of_get? there)).1
  exact named other found (get?_of_mem item)

theorem mem_sortedEntries :
    entry ∈ sortedEntries format entries ↔ entries.get? (format.name entry) = some entry := by
  rw [sortedEntries, (mergeSort_perm ..).mem_iff, mem_map]
  constructor
  · rintro ⟨⟨name, _⟩, item, rfl⟩
    have found := get?_of_mem item
    rwa [← named name _ found] at found
  · intro found
    exact ⟨_, mem_of_get? found, rfl⟩

theorem sortedEntries_nodup : ((sortedEntries format entries).map format.name).Nodup := by
  have keys : (entries.items.map Prod.snd).map format.name = entries.items.map Prod.fst := by
    rw [map_map]
    exact map_congr_left fun item among => named item.1 item.2 (get?_of_mem among)
  refine ((mergeSort_perm ..).map format.name).nodup_iff.mpr ?_
  rw [keys]
  exact entries.distinct

end

theorem get?_byNames {list : List E} (distinct : (list.map format.name).Nodup) :
    (byNames format list).get? name = some entry ↔ entry ∈ list ∧ format.name entry = name := by
  rw [byNames, get?_ofWrites_of_nodup (by rw [map_map]; exact distinct), mem_map]
  constructor
  · rintro ⟨entry', among, same⟩
    cases same
    exact ⟨among, rfl⟩
  · rintro ⟨among, rfl⟩
    exact ⟨entry, among, rfl⟩

theorem byNames_take_iff (named : UnderName format entries) (k : ℕ) :
    (∀ name, (byNames format ((sortedEntries format entries).take k)).get? name = entries.get? name) ↔
      (sortedEntries format entries).length ≤ k := by
  have distinct := sortedEntries_nodup named
  have front : (((sortedEntries format entries).take k).map format.name).Nodup :=
    distinct.sublist ((take_sublist k _).map format.name)
  constructor
  · intro same
    by_contra few
    -- the next entry is a definition, and is not among the first
    obtain ⟨entry, next⟩ : ∃ entry, ((sortedEntries format entries).drop k)[0]? = some entry := by
      refine ⟨_, getElem?_eq_getElem ?_⟩
      rw [length_drop]
      omega
    have behind := mem_of_getElem? next
    have found := (mem_sortedEntries named).mp (mem_of_mem_drop behind)
    rw [← same, get?_byNames front] at found
    exact disjoint_take_drop distinct.of_map (le_refl k) found.1 behind
  · intro all name
    refine Option.ext fun entry => ?_
    rw [get?_byNames front, take_of_length_le all, mem_sortedEntries named]
    constructor
    · rintro ⟨found, rfl⟩
      exact found
    · intro found
      have isNamed := named name entry found
      rw [isNamed]
      exact ⟨found, rfl⟩

def OnPage (format : EntryFormat E) (page : Page) (entries : Dict String E) : Prop :=
  catalogEntries page = fitting CATALOG_HEADER_SIZE (entryBlobs format entries)

theorem OnPage.reads (onPage : OnPage format (pg.file pid) entries) (named : UnderName format entries)
    (inside : pid < pg.numPages) : ∃ list, (loadPage format pid).Returns pg list pg ∧
      ((∀ name, (byNames format list).get? name = entries.get? name) ↔ Fits format entries) := by
  obtain ⟨k, front⟩ : ∃ k, fitting CATALOG_HEADER_SIZE (entryBlobs format entries) =
    (entryBlobs format entries).take k :=
    ⟨_, prefix_iff_eq_take.mp (fitting_front ..)⟩
  refine ⟨(sortedEntries format entries).take k, ?_, ?_⟩
  · have loaded : (catalogEntries (pg.file pid)).mapM format.loads = .ok ((sortedEntries format entries).take k) := by
      rw [onPage, front, entryBlobs, ← map_take]
      exact mapM_map format.loads_dumps _
    rw [loadPage, returns_bind]
    refine ⟨pg.file pid, pg, ?_, returns_ofExcept.mpr ⟨loaded, rfl⟩⟩
    rw [Program.Returns, readPage_apply inside]
    exact ⟨rfl, rfl⟩
  · rw [byNames_take_iff named, Fits, ← fitting_eq_iff (by decide), front, take_eq_self_iff, entryBlobs, length_map]

/-- What a catalog holds in memory. -/
structure Definitions where
  byName : Dict String TableMeta
  indexByName : Dict String IndexEntry
  nextTableId : ℕ

structure CatalogFile where
  pager : Pager
  defs : Definitions

namespace CatalogFile

abbrev CatalogM := Program Exc CatalogFile

def onPager {α : Type} (p : PagerM α) : CatalogM α := zoom CatalogFile.pager (fun pager c => { c with pager }) p

/-- `Catalog(pager)`. -/
def load : PagerM Definitions := do
  let tables ← loadPage tableFormat CATALOG_PAGE
  let indexes ← loadPage indexFormat INDEX_CATALOG_PAGE
  return ⟨byNames tableFormat tables, byNames indexFormat indexes, (tables.map (·.tableId)).foldl max 0 + 1⟩

/-- `Heap(pager)`: a fresh page with an empty header. -/
def newHeap : PagerM ℕ := do
  let pid ← allocatePage
  let page ← readPage pid
  let data ← ofExcept (Heap.writeHeader page.bytes NO_NEXT 0 DATA_START)
  writePage pid data
  return pid

def storeTables (tables : Dict String TableMeta) : CatalogM Unit := do
  modify fun c => { c with defs := { c.defs with byName := tables } }
  onPager (persist tableFormat CATALOG_PAGE tables)

def storeIndexes (indexes : Dict String IndexEntry) : CatalogM Unit := do
  modify fun c => { c with defs := { c.defs with indexByName := indexes } }
  onPager (persist indexFormat INDEX_CATALOG_PAGE indexes)

def createTable (name : String) (columns : List Column) : CatalogM Unit := do
  let c ← read
  if (c.defs.byName.get? name).isSome then
    raise ⟨.valueError, "table " ++ quoted name ++ " already exists"⟩
  else if columns = [] then
    raise ⟨.valueError, "table must have at least one column"⟩
  else
    let tableId := c.defs.nextTableId
    modify fun c => { c with defs := { c.defs with nextTableId := tableId + 1 } }
    let heapPid ← onPager newHeap
    storeTables (c.defs.byName.set name ⟨tableId, name, columns, heapPid⟩)

def dropTable (name : String) : CatalogM Unit := do
  let c ← read
  if (c.defs.byName.get? name).isNone then
    raise ⟨.keyError, quoted name⟩
  else
    storeTables (c.defs.byName.erase name)

def createIndex (name table : String) (columns : List String) (rootPid : ℕ) (unique : Bool) : CatalogM Unit := do
  let c ← read
  if (c.defs.indexByName.get? name).isSome then
    raise ⟨.valueError, "index " ++ quoted name ++ " already exists"⟩
  else if (c.defs.byName.get? table).isNone then
    raise ⟨.keyError, quoted table⟩
  else if columns = [] then
    raise ⟨.valueError, "index must reference at least one column"⟩
  else
    storeIndexes (c.defs.indexByName.set name ⟨⟨name, table, columns, unique⟩, rootPid⟩)

def dropIndex (name : String) : CatalogM Unit := do
  let c ← read
  if (c.defs.indexByName.get? name).isNone then
    raise ⟨.keyError, quoted name⟩
  else
    storeIndexes (c.defs.indexByName.erase name)

/-- A call on the catalog. -/
inductive Call where
  | createTable (name : String) (columns : List Column)
  | dropTable (name : String)
  | createIndex (name table : String) (columns : List String) (rootPid : ℕ) (unique : Bool)
  | dropIndex (name : String)

def Call.perform : Call → CatalogM Unit
  | createTable name columns => CatalogFile.createTable name columns
  | dropTable name => CatalogFile.dropTable name
  | createIndex name table columns rootPid unique => CatalogFile.createIndex name table columns rootPid unique
  | dropIndex name => CatalogFile.dropIndex name

def new : CatalogFile := ⟨initNew, ⟨.empty, .empty, 1⟩⟩

/-- Both pages hold what had room of the definitions; the pages of the file are handed out one after the other. -/
structure Filed (c : CatalogFile) : Prop where
  reserved : RESERVED_PAGES ≤ c.pager.numPages
  noFree : c.pager.freeHead = NO_FREE
  tables : OnPage tableFormat (c.pager.file CATALOG_PAGE) c.defs.byName
  indexes : OnPage indexFormat (c.pager.file INDEX_CATALOG_PAGE) c.defs.indexByName
  tablesNamed : UnderName tableFormat c.defs.byName
  indexesNamed : UnderName indexFormat c.defs.indexByName

theorem entryBlobs_empty (format : EntryFormat E) : entryBlobs format .empty = [] := by
  show (mergeSort ([] : List E) _).map format.dumps = []
  rw [mergeSort_nil, map_nil]

theorem onPage_zero (format : EntryFormat E) : OnPage format zeroPage .empty := by
  have front : slice zeroPage.bytes 0 4 = replicate 4 0 := by
    show (replicate PAGE_SIZE 0).take 4 = _
    rw [take_replicate]
    rfl
  have none : catalogEntries zeroPage = [] := if_neg (by rw [front]; decide)
  rw [OnPage, none, entryBlobs_empty]
  rfl

theorem filed_new : Filed new where
  reserved := le_refl _
  noFree := rfl
  tables := onPage_zero tableFormat
  indexes := onPage_zero indexFormat
  tablesNamed := nofun
  indexesNamed := nofun

theorem wp_persist (format : EntryFormat E) (nonzero : pid ≠ 0) (inside : pid < pg.numPages) (entries : Dict String E) :
    (persist format pid entries).wp (fun _ pg' => ∃ page, pg' = pg.put pid page ∧ OnPage format page entries)
      (fun _ _ => ¬ (entryBlobs format entries).length < 2 ^ 16) pg := by
  rw [persist, wp_bind]
  cases packed : catalogPage (entryBlobs format entries) with
  | error e =>
    intro few
    rw [catalogPage, if_pos few] at packed
    cases packed
  | ok page =>
    rw [wp_ofExcept_ok]
    have written : (writePage pid page.bytes).Returns pg () (pg.put pid page) := by
      rw [Program.Returns, writePage_inside nonzero inside]
      exact ⟨rfl, rfl⟩
    refine (wp_of_returns written).mpr ⟨page, rfl, catalogEntries_fitting (fun blob among => ?_) packed⟩
    obtain ⟨entry, -, rfl⟩ := mem_map.mp among
    exact format.dumps_nonempty entry

theorem wp_newHeap (reserved : RESERVED_PAGES ≤ pg.numPages) (noFree : pg.freeHead = NO_FREE) :
    newHeap.wp (fun pid pg' => pid = pg.numPages ∧ RESERVED_PAGES ≤ pg'.numPages ∧ pg'.freeHead = NO_FREE ∧
      ∀ q, q ≠ 0 → q < RESERVED_PAGES → pg'.file q = pg.file q)
      (fun _ _ => ¬ Pager.HeaderFits { pg with numPages := pg.numPages + 1 }) pg := by
  rw [newHeap, wp_bind, allocatePage, wp_bind, wp_read, if_neg (by simp [noFree]), wp_bind,
    wp_extendTo (Nat.lt_succ_self _)]
  refine ⟨fun _ => ?_, fun large => large⟩
  have positive : pg.numPages ≠ 0 := by
    unfold RESERVED_PAGES at reserved
    omega
  have inside : pg.numPages < (pg.extended (pg.numPages + 1)).numPages := Nat.lt_succ_self _
  have read : (readPage pg.numPages).Returns (pg.extended (pg.numPages + 1))
      ((pg.extended (pg.numPages + 1)).file pg.numPages) (pg.extended (pg.numPages + 1)) := by
    rw [Program.Returns, readPage_apply inside]
    exact ⟨rfl, rfl⟩
  rw [wp_pure, wp_bind, wp_of_returns read, wp_bind, writeHeader_eq _ (by decide), wp_ofExcept_ok,
    wp_bind]
  generalize withHeader ((pg.extended (pg.numPages + 1)).file pg.numPages) NO_NEXT 0 DATA_START = page
  have written : (writePage pg.numPages page.bytes).Returns (pg.extended (pg.numPages + 1)) ()
      ((pg.extended (pg.numPages + 1)).put pg.numPages page) := by
    rw [Program.Returns, writePage_inside positive inside]
    exact ⟨rfl, rfl⟩
  rw [wp_of_returns written, wp_pure]
  refine ⟨rfl, Nat.le_succ_of_le reserved, noFree, fun q nonzero early => ?_⟩
  have other : q ≠ pg.numPages := by omega
  rw [put_file_other _ _ other, extended, headed, put_file_other _ _ nonzero]
  exact if_neg (by omega)

variable {c : CatalogFile}

theorem Filed.wp_storeTables (filed : Filed c) {tables : Dict String TableMeta}
    (named : UnderName tableFormat tables) : (storeTables tables).wp (fun _ => Filed) (fun _ _ => True) c := by
  rw [storeTables, wp_bind, wp_modify, onPager, wp_zoom]
  refine (wp_persist tableFormat (by decide) (Nat.lt_of_lt_of_le (by decide) filed.reserved) _).mono
    (fun _ pg' written => ?_) fun _ _ _ => trivial
  obtain ⟨page, rfl, onPage⟩ := written
  refine ⟨filed.reserved, filed.noFree, ?_, ?_, named, filed.indexesNamed⟩
  · show OnPage _ ((c.pager.put CATALOG_PAGE page).file CATALOG_PAGE) _
    rwa [put_file_same]
  · show OnPage _ ((c.pager.put CATALOG_PAGE page).file INDEX_CATALOG_PAGE) _
    rw [put_file_other _ _ (by decide)]
    exact filed.indexes

theorem Filed.wp_storeIndexes (filed : Filed c) {indexes : Dict String IndexEntry}
    (named : UnderName indexFormat indexes) : (storeIndexes indexes).wp (fun _ => Filed) (fun _ _ => True) c := by
  rw [storeIndexes, wp_bind, wp_modify, onPager, wp_zoom]
  refine (wp_persist indexFormat (by decide) (Nat.lt_of_lt_of_le (by decide) filed.reserved) _).mono
    (fun _ pg' written => ?_) fun _ _ _ => trivial
  obtain ⟨page, rfl, onPage⟩ := written
  refine ⟨filed.reserved, filed.noFree, ?_, ?_, filed.tablesNamed, named⟩
  · show OnPage _ ((c.pager.put INDEX_CATALOG_PAGE page).file CATALOG_PAGE) _
    rw [put_file_other _ _ (by decide)]
    exact filed.tables
  · show OnPage _ ((c.pager.put INDEX_CATALOG_PAGE page).file INDEX_CATALOG_PAGE) _
    rwa [put_file_same]

theorem Filed.perform (filed : Filed c) (call : Call) : call.perform.wp (fun _ => Filed) (fun _ _ => True) c := by
  cases call with
  | createTable name columns =>
    rw [Call.perform, CatalogFile.createTable, wp_bind, wp_read]
    split
    · trivial
    split
    · trivial
    rw [wp_bind, wp_modify, wp_bind, onPager, wp_zoom]
    refine (wp_newHeap filed.reserved filed.noFree).mono (fun heapPid pg' made => ?_) fun _ _ _ => trivial
    obtain ⟨-, reserved, noFree, kept⟩ := made
    have named : UnderName tableFormat (c.defs.byName.set name ⟨c.defs.nextTableId, name, columns, heapPid⟩) :=
      filed.tablesNamed.set rfl
    have filed' : Filed ⟨pg', { c.defs with nextTableId := c.defs.nextTableId + 1 }⟩ := by
      refine ⟨reserved, noFree, ?_, ?_, filed.tablesNamed, filed.indexesNamed⟩
      · show OnPage _ (pg'.file CATALOG_PAGE) _
        rw [kept _ (by decide) (by decide)]
        exact filed.tables
      · show OnPage _ (pg'.file INDEX_CATALOG_PAGE) _
        rw [kept _ (by decide) (by decide)]
        exact filed.indexes
    exact filed'.wp_storeTables named
  | dropTable name =>
    rw [Call.perform, CatalogFile.dropTable, wp_bind, wp_read]
    split
    · trivial
    · exact filed.wp_storeTables (filed.tablesNamed.erase name)
  | createIndex name table columns rootPid unique =>
    rw [Call.perform, CatalogFile.createIndex, wp_bind, wp_read]
    split
    · trivial
    split
    · trivial
    split
    · trivial
    · have named : UnderName indexFormat (c.defs.indexByName.set name ⟨⟨name, table, columns, unique⟩, rootPid⟩) :=
        filed.indexesNamed.set rfl
      exact filed.wp_storeIndexes named
  | dropIndex name =>
    rw [Call.perform, CatalogFile.dropIndex, wp_bind, wp_read]
    split
    · trivial
    · exact filed.wp_storeIndexes (filed.indexesNamed.erase name)

def run (calls : List Call) : CatalogM Unit := forEach calls Call.perform

theorem filed_run {calls : List Call} (returned : (run calls).Returns new () c) : Filed c := by
  have ends : (run calls).wp (fun _ => Filed) (fun _ _ => True) new :=
    wp_forEach (fun _ => Filed) filed_new (fun call _ _ filed => filed.perform call) fun _ filed => filed
  exact ends.returns returned

theorem Filed.returns_load (filed : Filed c) : ∃ loaded, load.Returns c.pager loaded c.pager ∧
    ((∀ name, loaded.byName.get? name = c.defs.byName.get? name) ↔ Fits tableFormat c.defs.byName) ∧
    ((∀ name, loaded.indexByName.get? name = c.defs.indexByName.get? name) ↔ Fits indexFormat c.defs.indexByName) := by
  obtain ⟨tables, readTables, sameTables⟩ :=
    filed.tables.reads filed.tablesNamed (Nat.lt_of_lt_of_le (by decide) filed.reserved)
  obtain ⟨indexes, readIndexes, sameIndexes⟩ :=
    filed.indexes.reads filed.indexesNamed (Nat.lt_of_lt_of_le (by decide) filed.reserved)
  refine ⟨⟨byNames tableFormat tables, byNames indexFormat indexes, (tables.map (·.tableId)).foldl max 0 + 1⟩,
    ?_, sameTables, sameIndexes⟩
  rw [load, returns_bind]
  refine ⟨tables, c.pager, readTables, ?_⟩
  rw [returns_bind]
  exact ⟨indexes, c.pager, readIndexes, returns_pure.mpr ⟨rfl, rfl⟩⟩

/-- A new catalog lists the tables and indexes of the running one if and only if they all have room on their page. -/
theorem reload_same_iff (calls : List Call) (c : CatalogFile) (returned : (run calls).Returns new () c) :
    ∃ loaded, load.Returns c.pager loaded c.pager ∧ (((∀ name, loaded.byName.get? name = c.defs.byName.get? name) ∧
        ∀ name, loaded.indexByName.get? name = c.defs.indexByName.get? name) ↔
      Fits tableFormat c.defs.byName ∧ Fits indexFormat c.defs.indexByName) := by
  obtain ⟨loaded, returned, tables, indexes⟩ := (filed_run returned).returns_load
  exact ⟨loaded, returned, and_congr tables indexes⟩

theorem Filed.returns_createTable (filed : Filed c) {columns : List Column}
    (absent : c.defs.byName.get? name = none) (some' : columns ≠ [])
    (fits : Pager.HeaderFits { c.pager with numPages := c.pager.numPages + 1 })
    (few : c.defs.byName.items.length + 1 < 2 ^ 16) :
    ∃ c', (run [.createTable name columns]).Returns c () c' ∧
      c'.defs.byName = c.defs.byName.set name ⟨c.defs.nextTableId, name, columns, c.pager.numPages⟩ := by
  have ends : (createTable name columns).wp (fun _ c' =>
      c'.defs.byName = c.defs.byName.set name ⟨c.defs.nextTableId, name, columns, c.pager.numPages⟩)
      (fun _ _ => False) c := by
    rw [createTable, wp_bind, wp_read, if_neg (by simp [absent]), if_neg some', wp_bind, wp_modify,
      wp_bind, onPager, wp_zoom]
    refine (wp_newHeap filed.reserved filed.noFree).mono (fun heapPid pg' made => ?_) fun _ _ large => large fits
    obtain ⟨rfl, reserved, -, -⟩ := made
    rw [storeTables, wp_bind, wp_modify, onPager, wp_zoom]
    refine (wp_persist tableFormat (by decide) (Nat.lt_of_lt_of_le (by decide) reserved) _).mono (fun _ _ _ => rfl)
      fun _ _ many => many ?_
    rw [entryBlobs, length_map, sortedEntries, length_mergeSort, length_map,
      items_set_of_not_mem _ (get?_eq_none.mp absent), length_append]
    exact few
  obtain ⟨_, c', returned, tables⟩ := ends.exists_returns
  exact ⟨c', returns_forEach_cons.mpr ⟨c', returned, returns_forEach_nil.mpr rfl⟩, tables⟩

theorem entryBlobs_single {info : TableMeta} :
    entryBlobs tableFormat (empty.set name info) = [serializeMeta info] := by
  show (mergeSort [info] _).map serializeMeta = _
  rw [mergeSort_singleton, map_singleton]

def columnX : Column := ⟨"x", .int, false, false, false⟩

def dropping : List Call :=
  [.createTable "t" [columnX], .dropTable "t", .createTable "u" [columnX], .createIndex "i" "u" ["x"] 6 true]

/-- A dropped table is gone after a reload, and a short one with an index is there. -/
theorem reload_same_dropped : ∃ c loaded, (run dropping).Returns new () c ∧ load.Returns c.pager loaded c.pager ∧
    loaded.byName.get? "t" = none ∧ loaded.byName.get? "u" = some ⟨2, "u", [columnX], 5⟩ := by
  have returned : (run dropping).Returns new () _ := returns_of_isOk (by decide +kernel)
  obtain ⟨loaded, loadedAt, same⟩ := reload_same_iff _ _ returned
  rw [Fits, Fits] at same
  have kept := (same.mpr (by decide +kernel)).1
  refine ⟨_, loaded, returned, loadedAt, ?_⟩
  rw [kept, kept]
  decide +kernel

/-- A table whose definition is longer than a page is gone after a reload, without an error before. -/
theorem reload_loses_table : ∃ (calls : List Call) (c : CatalogFile), (run calls).Returns new () c ∧
      ¬ ∃ loaded, load.Returns c.pager loaded c.pager ∧ (∀ name, loaded.byName.get? name = c.defs.byName.get? name) ∧
        ∀ name, loaded.indexByName.get? name = c.defs.indexByName.get? name := by
  obtain ⟨name, long⟩ : ∃ name : String, 4096 ≤ name.toList.length :=
    ⟨String.ofList (replicate 4096 'a'), by rw [String.toList_ofList, length_replicate]⟩
  obtain ⟨c, returned, tables⟩ : ∃ c, (run [.createTable name [⟨"x", .int, false, false, false⟩]]).Returns new () c ∧
      c.defs.byName = empty.set name ⟨1, name, [⟨"x", .int, false, false, false⟩], 4⟩ :=
    filed_new.returns_createTable rfl nofun (by decide) (by decide)
  refine ⟨_, c, returned, fun ⟨loaded, loadedAt, same, _⟩ => ?_⟩
  obtain ⟨loaded', loadedAt', fits, -⟩ := (filed_run returned).returns_load
  obtain ⟨rfl, -⟩ := loadedAt.unique loadedAt'
  have room := fits.mp same
  rw [tables, Fits, entryBlobs_single] at room
  have longer := name_le_serializeMeta ⟨1, name, [⟨"x", .int, false, false, false⟩], 4⟩
  have size (blob : Bytes) : blobsSize [blob] = 2 + blob.length := rfl
  rw [size] at room
  unfold PAGE_SIZE at room
  simp only at longer
  omega

end CatalogFile

end Tinydb.Index
