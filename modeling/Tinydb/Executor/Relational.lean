import Tinydb.Executor.DmlRows
import Tinydb.Executor.Execute
import Tinydb.Types.Datetime

/-! INSERT, UPDATE and DELETE as operations on a multiset of rows.

`meaning` says what a statement is for. A table holds records, so what a statement
writes is seen again only as the codec reads it: the rows afterwards are the ones meant
just if every value written survives being stored.
-/

namespace Tinydb.Executor

open Lib Tinydb.Types Sql Storage Heap Tx Index List

theorem eq_of_perm_of_rank {α : Type} {rank : α → ℕ} {lower upper : List α}
    (below : Forall₂ (fun a b => a = b ∨ rank a < rank b) lower upper) (perm : lower.Perm upper) : lower = upper := by
  have total : (lower.map rank).sum = (upper.map rank).sum := (perm.map rank).sum_eq
  have weak {l u : List α} (below : Forall₂ (fun a b => a = b ∨ rank a < rank b) l u) : (l.map rank).sum ≤
    (u.map rank).sum := by
    induction below with
    | nil => exact le_refl _
    | cons first _ ih =>
      simp only [map_cons, sum_cons]
      rcases first with rfl | less <;> omega
  clear perm
  induction below with
  | nil => rfl
  | cons first rest ih =>
    have others := weak rest
    simp only [map_cons, sum_cons] at total
    rcases first with rfl | less
    · rw [ih (by omega)]
    · omega

variable {X : Type} {record : Bytes} {targets : List (Row X)} {info : TableMeta}
  {rank : TypeTag → Value X → ℕ} {given : Row X} {records : List (Rid × Bytes)} {heads : List ℕ} {lay : Layout}
  {rows : List (Rid × Row X)} {db db' : Database X} {txn : TransactionManager} {values old : List (Row X)}
  {news : List (Rid × Bytes)} {clauses : List (Assignment X)} {filter : Option (Expr X)} {visited : List (Rid × Bytes)}
  {a : ℤ} {d : Datetime}

def givenRows (info : TableMeta) (columns : Option (List String)) (values : List (Row X)) : List (Row X) :=
  match columns with
  | none => values
  | some names => values.map (expandRow info names)

theorem expandRows_ok {table : String} {names : List String} {rows : List (Row X)}
    (expanded : expandRows info table names values = .ok rows) : rows = values.map (expandRow info names) := by
  induction values generalizing rows with
  | nil => exact (Except.ok.inj expanded).symm
  | cons value values ih =>
    rw [expandRows] at expanded
    split_ifs at expanded
    obtain ⟨rest, others, rfl⟩ := bind_return_iff.mp expanded
    rw [ih others]
    rfl

theorem length_givenRows (columns : Option (List String)) (values : List (Row X)) :
    (givenRows info columns values).length = values.length := by
  cases columns with
  | none => rfl
  | some names => exact length_map _

theorem planInsert_ok {columns : Option (List String)} {rows : List (Row X)}
    (known : db.catalog.byName.get? info.name = some info)
    (planned : planInsert db.catalog info.name columns values = .ok rows) :
    rows = givenRows info columns values := by
  obtain ⟨found, looked, planned⟩ := bind_ok_iff.mp planned
  rw [requireTable, known] at looked
  cases looked
  cases columns with
  | none => exact (Except.ok.inj planned).symm
  | some names =>
    dsimp only at planned
    split at planned
    · cases planned
    · exact expandRows_ok planned

variable [Runtime X]

def replacement (info : TableMeta) (clauses : List (Assignment X)) (filter : Option (Expr X)) (old : Row X) : Row X :=
  if kept info filter old then
    match updated info info.name clauses old with
    | .ok new => coercedRow info.tags new
    | .error _ => old
  else old

def meaning (info : TableMeta) : Statement X → List (Row X) → List (Row X)
  | .insert _ columns values, rows => (givenRows info columns values).map (coercedRow info.tags) ++ rows
  | .update _ clauses filter, rows => rows.map (replacement info clauses filter)
  | .delete _ filter, rows => rows.filter fun row => !kept info filter row
  | _, rows => rows

def affected (info : TableMeta) : Statement X → List (Row X) → ℕ
  | .insert _ _ values, _ => values.length
  | .update _ _ filter, rows => (rows.filter (kept info filter)).length
  | .delete _ filter, rows => (rows.filter (kept info filter)).length
  | _, _ => 0

def written (info : TableMeta) : Statement X → List (Row X) → List (Row X)
  | .insert _ columns values, _ => (givenRows info columns values).map (coercedRow info.tags)
  | .update _ clauses filter, rows => (rows.filter (kept info filter)).map (replacement info clauses filter)
  | _, _ => []

/-- The statements that change rows of a table. -/
inductive ChangesRows (table : String) : Statement X → Prop
  | insert (columns : Option (List String)) (values : List (Row X)) : ChangesRows table (.insert table columns values)
  | update (clauses : List (Assignment X)) (filter : Option (Expr X)) : ChangesRows table (.update table clauses filter)
  | delete (filter : Option (Expr X)) : ChangesRows table (.delete table filter)

/-- The statement did what it is for: a scan yields the rows meant, up to order, and their number was reported. -/
def Refines (info : TableMeta) (stmt : Statement X) (rows : List (Row X)) (txn : TransactionManager)
    (result : List (Row X)) :
    Prop :=
  (∃ found : List (Rid × Row X), (tableScan info).Returns txn found txn ∧
    (found.map Prod.snd).Perm (meaning info stmt rows)) ∧
    result = [[.int (affected info stmt rows)]]

def WrittenFor (info : TableMeta) (record : Bytes) (target : Row X) : Prop :=
  decodeRow record info.tags = .ok target ∨
    ∃ given, encodeRowCoerced given info.tags = .ok record ∧ target = coercedRow info.tags given

theorem storedRow_of_survive {tags : List TypeTag} (encoded : EncodedRow given tags record)
    (survive : Forall₂ Survives tags (coercedRow tags given)) : StoredRow given tags (coercedRow tags given) := by
  induction encoded with
  | nil => exact .nil
  | cons first _ ih =>
    obtain ⟨⟨bs, same, read⟩, later⟩ := forall₂_cons.mp survive
    cases (asIs_coerced first).symm.trans same
    exact .cons ⟨_, first, read⟩ (ih later)

theorem decodeRow_coercedRow_iff (packs : .float ∈ info.tags → PacksDoubles X)
    (encoded : encodeRowCoerced given info.tags = .ok record) :
    decodeRow record info.tags = .ok (coercedRow info.tags given) ↔
      Forall₂ Survives info.tags (coercedRow info.tags given) := by
  rw [decodeRow_iff packs encoded]
  exact ⟨fun stored => stored.eq_coercedRow_iff.mp rfl, storedRow_of_survive (encodedRow encoded)⟩

theorem decodedRows_of_forall {rows : List (Row X)}
    (reads : Forall₂ (fun item row => decodeRow item.2 info.tags = .ok row) records rows) :
    (decodedRows info records).map Prod.snd = rows := by
  induction reads with
  | nil => rfl
  | @cons item row records rows first _ ih =>
    rw [decodedRows, filterMap_cons, first]
    exact congrArg (row :: ·) ih

theorem decodes_of_forall {rows : List (Row X)}
    (reads : Forall₂ (fun item row => decodeRow item.2 info.tags = .ok row) records rows) :
    ∀ item ∈ records, ∃ row : Row X, decodeRow item.2 info.tags = .ok row := by
  induction reads with
  | nil => exact nofun
  | cons first _ ih => exact forall_mem_cons.mpr ⟨⟨_, first⟩, ih⟩

theorem exists_decoded
    (decodes : ∀ item ∈ records, ∃ row : Row X, decodeRow item.2 info.tags = .ok row) :
    ∃ rows : List (Row X), Forall₂ (fun item row => decodeRow item.2 info.tags = .ok row) records rows := by
  induction records with
  | nil => exact ⟨[], .nil⟩
  | cons item records ih =>
    obtain ⟨⟨row, decoded⟩, others⟩ := forall_mem_cons.mp decodes
    obtain ⟨rows, rest⟩ := ih others
    exact ⟨row :: rows, .cons decoded rest⟩

/-- The records of a table are read as the rows meant, up to order, just if each is read as the row it was written
for. -/
theorem reads_targets_iff (packs : .float ∈ info.tags → PacksDoubles X) (normal : Normalizing rank)
    (writes : Forall₂ (fun item target => WrittenFor info item.2 target) records targets) :
    ((∀ item ∈ records, ∃ row : Row X, decodeRow item.2 info.tags = .ok row) ∧
        ((decodedRows info records).map Prod.snd).Perm targets) ↔
      Forall₂ (fun item target => decodeRow item.2 info.tags = .ok target) records targets := by
  constructor
  · rintro ⟨decodes, perm⟩
    obtain ⟨rows, reads⟩ := exists_decoded decodes
    rw [decodedRows_of_forall reads] at perm
    have below : Forall₂ (fun row target => row = target ∨ rowRank rank info.tags row < rowRank rank info.tags target)
        rows targets := by
      clear perm decodes
      induction reads generalizing targets with
      | nil =>
        cases writes
        exact .nil
      | cons decoded _ ih =>
        obtain ⟨target, targets, first, rest, rfl⟩ := forall₂_cons_left_iff.mp writes
        refine .cons ?_ (ih rest)
        rcases first with same | ⟨given, encoded, rfl⟩
        · exact .inl (Except.ok.inj (decoded.symm.trans same))
        · exact ((decodeRow_iff packs encoded).mp decoded).rank normal
    rwa [eq_of_perm_of_rank below perm] at reads
  · intro reads
    exact ⟨decodes_of_forall reads, .of_eq (decodedRows_of_forall reads)⟩

theorem TableIn.scans_iff (holds : TableIn heads txn lay info records) :
    (∃ found : List (Rid × Row X), (tableScan info).Returns txn found txn ∧ (found.map Prod.snd).Perm targets) ↔
      (∀ item ∈ records, ∃ row : Row X, decodeRow item.2 info.tags = .ok row) ∧
        ((decodedRows info records).map Prod.snd).Perm targets := by
  constructor
  · rintro ⟨found, scanned, perm⟩
    obtain ⟨decodes, same⟩ := holds.returns_tableScan.mp ⟨found, scanned, .refl _⟩
    exact ⟨decodes, (same.map _).trans perm⟩
  · rintro ⟨decodes, perm⟩
    obtain ⟨found, scanned, same⟩ := holds.returns_tableScan.mpr ⟨decodes, .refl _⟩
    exact ⟨found, scanned, (same.map _).trans perm⟩

theorem scans_inserted_iff (packs : .float ∈ info.tags → PacksDoubles X) (normal : Normalizing rank)
    (holds : TableIn heads txn lay info (news ++ records))
    (encoded : Forall₂ (fun value new => encodeRowCoerced value info.tags = .ok new.2) values news)
    (reads : Forall₂ (fun item row => decodeRow item.2 info.tags = .ok row) records old) :
    (∃ found : List (Rid × Row X), (tableScan info).Returns txn found txn ∧
        (found.map Prod.snd).Perm (values.map (coercedRow info.tags) ++ old)) ↔
      ∀ row ∈ values.map (coercedRow info.tags), Forall₂ Survives info.tags row := by
  have writes : Forall₂ (fun item target => WrittenFor info item.2 target) (news ++ records)
      (values.map (coercedRow info.tags) ++ old) := by
    refine rel_append ?_ (reads.imp fun _ _ decoded => .inl decoded)
    rw [forall₂_map_right_iff]
    exact encoded.flip.imp fun _ value encodes => .inr ⟨value, encodes, rfl⟩
  rw [holds.scans_iff, reads_targets_iff packs normal writes]
  clear holds writes
  induction encoded with
  | nil => simpa using reads
  | cons first _ ih =>
    rw [map_cons, cons_append, cons_append, forall₂_cons, forall_mem_cons,
      decodeRow_coercedRow_iff packs first]
    exact and_congr_right fun _ => ih

theorem Rewritten.replacement {old new : Rid × Bytes} {row : Row X}
    (rewritten : Rewritten info clauses filter old new) (decoded : decodeRow old.2 info.tags = .ok row) :
    if kept info filter row then
      ∃ given, encodeRowCoerced given info.tags = .ok new.2 ∧
      replacement info clauses filter row = coercedRow info.tags given
    else new = old ∧ replacement info clauses filter row = row := by
  obtain ⟨row', decoded', turned⟩ := rewritten
  cases decoded.symm.trans decoded'
  rw [Executor.replacement]
  split_ifs at turned ⊢
  · obtain ⟨assigned, computed, encoded⟩ := turned
    exact ⟨assigned, encoded, by rw [computed]⟩
  · exact ⟨turned, rfl⟩

theorem scans_updated_iff (packs : .float ∈ info.tags → PacksDoubles X) (normal : Normalizing rank)
    (holds : TableIn heads txn lay info news) (rewritten : Forall₂ (Rewritten info clauses filter) visited news)
    (reads : Forall₂ (fun item row => decodeRow item.2 info.tags = .ok row) visited old) :
    (∃ found : List (Rid × Row X), (tableScan info).Returns txn found txn ∧
        (found.map Prod.snd).Perm (old.map (replacement info clauses filter))) ↔
      ∀ row ∈ (old.filter (kept info filter)).map (replacement info clauses filter),
      Forall₂ Survives info.tags row := by
  have writes : Forall₂ (fun item target => WrittenFor info item.2 target) news
    (old.map (replacement info clauses filter)) := by
    clear holds
    induction rewritten generalizing old with
    | nil =>
      cases reads
      exact .nil
    | cons first _ ih =>
      obtain ⟨row, old, decoded, rest, rfl⟩ := forall₂_cons_left_iff.mp reads
      refine .cons ?_ (ih rest)
      have turned := first.replacement decoded
      split_ifs at turned
      · obtain ⟨given, encoded, same⟩ := turned
        exact .inr ⟨given, encoded, same⟩
      · rw [turned.1, turned.2]
        exact .inl decoded
  rw [holds.scans_iff, reads_targets_iff packs normal writes]
  clear holds writes
  induction rewritten generalizing old with
  | nil =>
    cases reads
    exact ⟨fun _ => nofun, fun _ => .nil⟩
  | cons first _ ih =>
    obtain ⟨row, old, decoded, rest, rfl⟩ := forall₂_cons_left_iff.mp reads
    have turned := first.replacement decoded
    rw [map_cons, forall₂_cons, filter_cons]
    split_ifs at turned ⊢
    · obtain ⟨given, encoded, same⟩ := turned
      rw [map_cons, forall_mem_cons, same, decodeRow_coercedRow_iff packs encoded]
      exact and_congr_right fun _ => ih rest
    · rw [turned.1, turned.2]
      exact (and_iff_right decoded).trans (ih rest)

theorem exists_visited (holds : TableIn heads db.txn lay info records)
    (scanned : (tableScan info).Returns db.txn rows db.txn) (perm : visited.Perm records) :
    ∃ old : List (Row X), Forall₂ (fun item row => decodeRow item.2 info.tags = .ok row) visited old ∧
      old.Perm (rows.map Prod.snd) := by
  obtain ⟨decodes, same⟩ := holds.returns_tableScan.mp ⟨rows, scanned, .refl _⟩
  obtain ⟨old, reads⟩ := exists_decoded fun item member => decodes item (perm.mem_iff.mp member)
  refine ⟨old, reads, ?_⟩
  rw [← decodedRows_of_forall reads]
  exact ((decodedRows_perm perm).trans same).map _

theorem filter_not_hits (filter : Option (Expr X))
    (reads : Forall₂ (fun item row => decodeRow item.2 info.tags = .ok row) records old) :
    Forall₂ (fun item row => decodeRow item.2 info.tags = .ok row) (records.filter fun item => !hits info filter item.2)
      (old.filter fun row => !kept info filter row) := by
  induction reads with
  | nil => exact .nil
  | cons decoded _ ih =>
    rw [filter_cons, filter_cons, hits_of_decoded decoded]
    split_ifs
    · exact .cons decoded ih
    · exact ih

theorem filter_hits_length (filter : Option (Expr X))
    (reads : Forall₂ (fun item row => decodeRow item.2 info.tags = .ok row) records old) :
    (records.filter fun item => hits info filter item.2).length = (old.filter (kept info filter)).length := by
  induction reads with
  | nil => rfl
  | cons decoded _ ih =>
    rw [filter_cons, filter_cons, hits_of_decoded decoded]
    split_ifs
    · exact congrArg (· + 1) ih
    · exact ih

theorem scan_congr {targets' : List (Row X)} (perm : targets.Perm targets') :
    (∃ found : List (Rid × Row X), (tableScan info).Returns txn found txn ∧ (found.map Prod.snd).Perm targets) ↔
      ∃ found : List (Rid × Row X), (tableScan info).Returns txn found txn ∧ (found.map Prod.snd).Perm targets' :=
  exists_congr fun _ => and_congr_right fun _ => ⟨fun same => same.trans perm, fun same => same.trans perm.symm⟩

/-- An INSERT, UPDATE or DELETE that comes back did what it is for just if the rows it writes survive being stored. -/
theorem dml_refines_relations_iff {stmt : Statement X} (changes : ChangesRows info.name stmt)
    (columns : info.columns ≠ [])
    (packs : .float ∈ info.tags → PacksDoubles X) (normal : Normalizing rank)
    (table : TableIn heads db.txn lay info records)
    (known : db.catalog.byName.get? info.name = some info) (scanned : (tableScan info).Returns db.txn rows db.txn)
    {result : List (Row X)} (returned : (execute stmt).Returns db result db') :
    Refines info stmt (rows.map Prod.snd) db'.txn result ↔
      ∀ row ∈ written info stmt (rows.map Prod.snd), Forall₂ Survives info.tags row := by
  have sound : Sound heads info (fun _ _ => True) lay records db := ⟨table, trivial, known⟩
  have inv := indexInvariant_true (X := X) info
  cases changes with
  | insert names values =>
    obtain ⟨given, n, planned, inserted, rfl⟩ := returns_execute_insert.mp returned
    obtain rfl := planInsert_ok known planned
    obtain ⟨lay', news, encoded, after, -, rfl⟩ := sound.returns_insertRows inv columns inserted
    obtain ⟨old, reads, perm⟩ := exists_visited table scanned (.refl _)
    have scans := scans_inserted_iff packs normal after.table encoded reads
    refine (and_iff_left ?_).trans ((scan_congr (perm.symm.append_left _)).trans scans)
    rw [affected, length_givenRows]
  | update clauses filter =>
    obtain ⟨n, -, updated, rfl⟩ := returns_execute_update.mp returned
    obtain ⟨lay', visited, news, perm, rewritten, after, -, rfl⟩ := sound.returns_updateRows inv columns updated
    obtain ⟨old, reads, same⟩ := exists_visited table scanned perm
    have scans := scans_updated_iff packs normal after.table rewritten reads
    refine (and_iff_left ?_).trans ?_
    · rw [affected, ← (perm.filter _).length_eq, filter_hits_length filter reads, (same.filter _).length_eq]
    · refine (scan_congr (same.symm.map _)).trans (scans.trans (forall_congr' fun row => imp_congr_left ?_))
      exact ((same.filter _).map _).mem_iff
  | delete filter =>
    obtain ⟨n, -, deleted, rfl⟩ := returns_execute_delete.mp returned
    obtain ⟨lay', after, -, rfl⟩ := sound.returns_deleteRows inv deleted
    obtain ⟨old, reads, same⟩ := exists_visited table scanned (.refl _)
    refine iff_of_true ⟨?_, ?_⟩ nofun
    · refine (scan_congr (same.filter _)).mp (after.table.scans_iff.mpr ?_)
      have left := filter_not_hits filter reads
      exact ⟨decodes_of_forall left, .of_eq (decodedRows_of_forall left)⟩
    · rw [affected, filter_hits_length filter reads, (same.filter _).length_eq]

/-- `t (a INT, d DATETIME)`, in a new file. -/
def eventsInfo : TableMeta := ⟨1, "t", [⟨"a", .int, false, false, false⟩, ⟨"d", .datetime, false, false, false⟩], 4⟩

def events : Database (Object Datetime) := ⟨firstHeap, ⟨Dict.empty.set "t" eventsInfo, 2⟩, [], [], [], false⟩

/-- `(a, DATETIME)` of a number of microseconds. -/
def event (a : ℤ) (d : Datetime) : Row (Object Datetime) := [.int a, .foreign (.other d)]

def insertEvent (d : Datetime) : Statement (Object Datetime) := .insert "t" none [event 0 d]

/-- `UPDATE t SET a = 1`. -/
def setA : Statement (Object Datetime) := .update "t" [⟨"a", .literal (.int 1)⟩] none

theorem survive_event (range : -(2 ^ 63) ≤ a ∧ a ≤ 2 ^ 63 - 1)
    (stays : Datetime.storedMicros d.micros = d.micros) : Forall₂ Survives eventsInfo.tags (event a d) := by
  obtain ⟨bs, stored⟩ := storedAs_int (X := Object Datetime) range
  exact .cons ⟨bs, stored.encoded, stored.delimited⟩ (.cons (survives_datetime stays) .nil)

theorem short_event (encoded : encodeRowCoerced (event a d) eventsInfo.tags = .ok record) : record.length ≤ 4078 := by
  obtain ⟨first, left, others⟩ := bind_ok_iff.mp encoded
  obtain ⟨rest, last, rfl⟩ := bind_return_iff.mp others
  obtain ⟨second, right, rfl⟩ := bind_return_iff.mp last
  have one : first.length ≤ 8 + 1 := length_encodeColumn_le left rfl nofun
  have two : second.length ≤ 8 + 1 := length_encodeColumn_le right rfl nofun
  simp only [length_append, length_nil]
  omega

def insertTwo (first second : Datetime) : Statement (Object Datetime) :=
  .insert "t" none [event 0 first, event 1 second]

/-- The epoch and a half second behind it. -/
theorem dml_refines_relations_two : ∃ first second : Datetime, first.micros = 0 ∧ second.micros = 500000 ∧
    ∃ db' lay, TableIn [4] events.txn lay eventsInfo [] ∧
      (execute (insertTwo first second)).Returns events [[.int 2]] db' ∧
      Refines eventsInfo (insertTwo first second) [] db'.txn [[.int 2]] := by
  refine ⟨⟨0, by decide, by decide⟩, ⟨500000, by decide, by decide⟩, rfl, rfl, ?_⟩
  obtain ⟨lay, table⟩ := tableIn_firstHeap eventsInfo rfl
  have returned : (execute (insertTwo ⟨0, by decide, by decide⟩ ⟨500000, by decide, by decide⟩)).Returns events
      [[.int 2]] _ := ⟨by decide +kernel, rfl⟩
  obtain ⟨found, scanned, none⟩ := (table.returns_tableScan (X := Object Datetime)).mpr ⟨nofun, .refl _⟩
  obtain rfl := none.eq_nil
  have changes (first second) : ChangesRows eventsInfo.name (insertTwo first second) := .insert _ _
  refine ⟨_, lay, table, returned, ?_⟩
  refine (dml_refines_relations_iff (changes ..) (by decide)
    (fun float => by simp [eventsInfo, TableMeta.tags] at float) normalizing_datetime
    table rfl scanned returned).mpr fun row among => ?_
  rcases mem_pair.mp among with rfl | rfl
  · exact survive_event (by decide) (by decide +kernel)
  · exact survive_event (by decide) (by decide +kernel)

/-- UPDATE of one column moves a datetime in another. -/
theorem update_moves_datetime : ¬ ∀ (heads : List ℕ) (lay : Layout) (records : List (Rid × Bytes))
    (info : TableMeta) (db db' : Database (Object Datetime)) (stmt : Statement (Object Datetime))
    (rows : List (Rid × Row (Object Datetime)))
    (result : List (Row (Object Datetime))), ChangesRows info.name stmt → info.columns ≠ [] →
    TableIn heads db.txn lay info records → (∀ item ∈ records, item.2.length ≤ 4078) →
    db.catalog.byName.get? info.name = some info → (∀ index ∈ db.indexes, index.info.table ≠ info.name) →
    (tableScan info).Returns db.txn rows db.txn → (∀ row ∈ written info stmt (rows.map Prod.snd), ∀ record,
      encodeRowCoerced row info.tags = .ok record → record.length ≤ 4078) →
    (execute stmt).Returns db result db' → Refines info stmt (rows.map Prod.snd) db'.txn result := by
  intro claimed
  -- 3.919 ms after the epoch is stored as 3.918 ms, and that as 3.917 ms
  obtain ⟨lay, table⟩ := tableIn_firstHeap eventsInfo rfl
  have sound : Sound [4] eventsInfo (fun _ _ => True) lay [] events := ⟨table, trivial, rfl⟩
  have inserted : (execute (insertEvent ⟨3919, by decide, by decide⟩)).Returns events [[.int 1]]
      (execute (insertEvent ⟨3919, by decide, by decide⟩) events).state := ⟨by decide +kernel, rfl⟩
  generalize made : (execute (insertEvent ⟨3919, by decide, by decide⟩) events).state = db at inserted
  obtain ⟨given, n, planned, stored, -⟩ := returns_execute_insert.mp inserted
  obtain rfl := planInsert_ok sound.known planned
  obtain ⟨lay', news, encoded, after, stays, -⟩ := sound.returns_insertRows (indexInvariant_true _) (by decide) stored
  have small : ∀ item ∈ news ++ [], item.2.length ≤ 4078 := by
    obtain ⟨new, _, encodes, ⟨⟩, rfl⟩ := forall₂_cons_left_iff.mp encoded
    exact forall_mem_singleton.mpr (short_event encodes)
  have before : (tableScan eventsInfo).Returns db.txn [(⟨4, 0⟩, event 0 ⟨3918, by decide, by decide⟩)] db.txn :=
    ⟨by rw [← made]; decide +kernel, (reads_tableScan _).state _⟩
  have unindexed : db.indexes = [] := length_eq_zero_iff.mp (by rw [← made]; decide +kernel)
  have updates : (execute setA).Returns db [[.int 1]] (execute setA db).state := ⟨by rw [← made]; decide +kernel, rfl⟩
  have meant : replacement eventsInfo [⟨"a", .literal (.int 1)⟩] none (event 0 ⟨3918, by decide, by decide⟩) =
      event 1 ⟨3918, by decide, by decide⟩ := by
    decide +kernel
  obtain ⟨⟨found, scanned, perm⟩, -⟩ := claimed [4] lay' _ eventsInfo db _ setA _ _ (.update _ _)
    (by decide) after.table small after.known (by simp [unindexed]) before
    (forall_mem_singleton.mpr fun record encodes => short_event (meant ▸ encodes)) updates
  have moved : (tableScan eventsInfo).Returns (execute setA db).state.txn
    [(⟨4, 1⟩, event 1 ⟨3917, by decide, by decide⟩)]
      (execute setA db).state.txn := ⟨by rw [← made]; decide +kernel, (reads_tableScan _).state _⟩
  obtain ⟨rfl, -⟩ := scanned.unique moved
  have same : [event 1 ⟨3917, by decide, by decide⟩].Perm [event 1 ⟨3918, by decide, by decide⟩] := meant ▸ perm
  rw [perm_singleton] at same
  exact absurd same (by decide)

end Tinydb.Executor
