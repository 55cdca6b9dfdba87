import Tinydb.Executor.TableRows
import Tinydb.Types.Stored

/-! What INSERT, UPDATE and DELETE do to the records of a table.

UPDATE and DELETE go over the rids that a scan found. A row that UPDATE writes gets a
rid that was never used, so it is not visited again, and the rids still to be visited
keep their records.
-/

namespace Tinydb.Executor

open Lib Program Tinydb.Types Sql Storage Heap Tx Index List

variable {X : Type} {heads : List ℕ} {head : ℕ} {lay lay' : Layout} {db : Database X} {logs : Bool}
  {txn : TransactionManager} {indexes : List (LiveIndex X)} {info : TableMeta}
  {Q : List (Rid × Bytes) → List (LiveIndex X) → Prop} {records records' : List (Rid × Bytes)} {db' : Database X}
  {α : Type} {a : α} {rid : Rid} {row : Row X} {filter : Option (Expr X)} {found : Option (Row X)} {record : Bytes}
  {rest : List (Rid × Bytes)} {changed : Bool} {clauses : List (Assignment X)} {n : ℕ} {body : Rid → DbM X Bool}
  {hit : Bytes → Bool} {becomes : Rid × Bytes → List (Rid × Bytes) → Prop} {values : List (Row X)}

/-- The other heaps have their records, used slots stay used, and nothing but pages and indexes changed. -/
structure Stays (heads : List ℕ) (head : ℕ) (lay : Layout) (db : Database X) (lay' : Layout)
    (db' : Database X) : Prop where
  others : ∀ other ∈ heads, other ≠ head → Heap.rows db'.txn lay' other = Heap.rows db.txn lay other
  used : ∀ rid, Used db.txn lay head rid → Used db'.txn lay' head rid
  catalog : db'.catalog = db.catalog
  registered : db'.registered = db.registered
  heaps : db'.heaps = db.heaps
  logs : db'.logs = db.logs

theorem Stays.refl (heads : List ℕ) (head : ℕ) (lay : Layout) (db : Database X) : Stays heads head lay db lay db :=
  ⟨fun _ _ _ => rfl, fun _ used => used, rfl, rfl, rfl, rfl⟩

theorem Stays.trans {lay'' : Layout} {db' db'' : Database X}
    (first : Stays heads head lay db lay' db') (second : Stays heads head lay' db' lay'' db'') :
    Stays heads head lay db lay'' db'' where
  others := fun other member differs => (second.others other member differs).trans (first.others other member differs)
  used := fun rid used => second.used rid (first.used rid used)
  catalog := second.catalog.trans first.catalog
  registered := second.registered.trans first.registered
  heaps := second.heaps.trans first.heaps
  logs := second.logs.trans first.logs

theorem Stays.of_touches (touches : Touches logs heads db.txn lay head txn lay') :
    Stays heads head lay db lay' { db with txn, indexes } := ⟨touches.others, touches.used, rfl, rfl, rfl, rfl⟩

/-- A table of the database with its records, and what is known about its indexes. -/
structure Sound (heads : List ℕ) (info : TableMeta) (Q : List (Rid × Bytes) → List (LiveIndex X) → Prop) (lay : Layout)
    (records : List (Rid × Bytes)) (db : Database X) : Prop where
  table : TableIn heads db.txn lay info records
  indexes : Q records db.indexes
  known : db.catalog.byName.get? info.name = some info

theorem returns_onTxn {p : TxM α} :
    (onTxn p : DbM X α).Returns db a db' ↔ ∃ txn, p.Returns db.txn a txn ∧ { db with txn } = db' := returns_zoom ..

theorem returns_onIndexes {p : Program Exc (List (LiveIndex X)) α} :
    (onIndexes p).Returns db a db' ↔ ∃ indexes, p.Returns db.indexes a indexes ∧ { db with indexes } = db' :=
  returns_zoom ..

theorem returns_removeFromHeap : (removeFromHeap rid : DbM X Unit).Returns db () db' ↔
    ∃ txn, (Heap.delete db.logs rid).Returns db.txn () txn ∧ { db with txn } = db' := by
  rw [removeFromHeap, returns_read_bind, returns_onTxn]

theorem dmlContext_returned {found : TableMeta} (known : db.catalog.byName.get? info.name = some info)
    (returned : (dmlContext info.name).Returns db found db') :
    found = info ∧ ∃ pid txn, Heap.new.Returns db.txn pid txn ∧ { db with txn } = db' := by
  rw [dmlContext, returns_read_bind] at returned
  obtain ⟨found', mid, looked, returned⟩ := returns_bind.mp returned
  obtain ⟨got, rfl⟩ := returns_ofExcept.mp looked
  rw [Catalog.getTable, known] at got
  cases got
  obtain ⟨pid, mid, bound, ended⟩ := returns_bind.mp returned
  obtain ⟨rfl, rfl⟩ := returns_pure.mp ended
  exact ⟨rfl, pid, returns_onTxn.mp bound⟩

theorem Sound.returns_dmlContext (sound : Sound heads info Q lay records db) {found : TableMeta}
    (returned : (dmlContext info.name).Returns db found db') :
    found = info ∧ ∃ lay', Sound heads info Q lay' records db' ∧ Stays heads info.heapPid lay db lay' db' := by
  obtain ⟨rfl, pid, txn, made, rfl⟩ := dmlContext_returned sound.known returned
  obtain ⟨pager, lay', rfl, took, -⟩ := (wp_new sound.table.laid).returns made
  have kept : Kept false heads db.txn lay found.heapPid { db.txn with pager } lay' :=
    Kept.of_took sound.table.laid sound.table.member took
  exact ⟨rfl, lay', ⟨sound.table.kept kept, sound.indexes, sound.known⟩, .of_touches kept.toTouches⟩

theorem filter_head (nodup : (((rid, record) :: rest).map Prod.fst).Nodup) :
    (((rid, record) :: rest).filter fun item => item.1 ≠ rid) = rest := by
  obtain ⟨alone, -⟩ := nodup_cons.mp nodup
  rw [filter_cons_of_neg (by simp)]
  refine filter_eq_self.mpr fun item among => decide_eq_true fun same => alone ?_
  exact mem_map.mpr ⟨item, among, same⟩

theorem returns_affecting_cons {rids : List Rid} :
    (affecting (rid :: rids) body).Returns db n db' ↔ ∃ changed mid others, (body rid).Returns db changed mid ∧
      (affecting rids body).Returns mid others db' ∧ n = (if changed then 1 else 0) + others := by
  rw [affecting]
  simp only [returns_bind, returns_pure]
  constructor
  · rintro ⟨changed, mid, first, others, _, rest, rfl, rfl⟩
    exact ⟨changed, mid, others, first, rest, rfl⟩
  · rintro ⟨changed, mid, others, first, rest, rfl⟩
    exact ⟨changed, mid, first, others, db', rest, rfl, rfl⟩

variable [Runtime X]

/-- A property of the records of a table and the indexes that survives a record and its entries coming and going
together. The hooks get a new row as the statement has it, an old one as it is read. -/
structure IndexInvariant (info : TableMeta) (Q : List (Rid × Bytes) → List (LiveIndex X) → Prop) : Prop where
  perm : ∀ {records records' indexes}, records.Perm records' → Q records indexes → Q records' indexes
  inserted : ∀ {records indexes indexes' rid row record}, Q records indexes → rid ∉ records.map Prod.fst →
    encodeRowCoerced row info.tags = .ok record →
    Forall₂ (fun index index' => (insertInto info rid row).Returns index () index') indexes indexes' →
    Q ((rid, record) :: records) indexes'
  deleted : ∀ {records indexes indexes' rid row record}, Q records indexes → (records.map Prod.fst).Nodup →
    (rid, record) ∈ records → decodeRow record info.tags = .ok row →
    Forall₂ (fun index index' => (deleteFrom info rid row).Returns index () index') indexes indexes' →
    Q (records.filter fun item => item.1 ≠ rid) indexes'

theorem indexInvariant_true (info : TableMeta) : IndexInvariant (X := X) info fun _ _ => True :=
  ⟨fun _ _ => trivial, fun _ _ _ _ => trivial, fun _ _ _ _ _ => trivial⟩

theorem Sound.perm (inv : IndexInvariant info Q) (sound : Sound heads info Q lay records db)
    (perm : records.Perm records') :
    Sound heads info Q lay records' db := ⟨sound.table.perm perm, inv.perm perm sound.indexes, sound.known⟩

theorem returns_precheck :
    (precheck info row).Returns db () db' ↔ checkUnique info row db.indexes = .ok () ∧ db = db' := by
  rw [precheck, returns_read_bind, returns_ofExcept]

theorem storeRow_returned (returned : (storeRow info row).Returns db () db') : ∃ rid record txn indexes,
    encodeRowCoerced row info.tags = .ok record ∧ (Heap.insert db.logs info.heapPid record).Returns db.txn rid txn ∧
      (onInsert info rid row).Returns db.indexes () indexes ∧ { db with txn, indexes } = db' := by
  rw [storeRow, returns_read_bind] at returned
  obtain ⟨blob, mid, converted, returned⟩ := returns_bind.mp returned
  obtain ⟨encoded, rfl⟩ := returns_ofExcept.mp converted
  obtain ⟨rid, mid, written, followed⟩ := returns_bind.mp returned
  obtain ⟨txn, placed, rfl⟩ := returns_onTxn.mp written
  obtain ⟨indexes, hooked, rfl⟩ := returns_onIndexes.mp followed
  exact ⟨rid, blob, txn, indexes, encoded, placed, hooked, rfl⟩

theorem Sound.returns_storeRow (inv : IndexInvariant info Q) (columns : info.columns ≠ [])
    (sound : Sound heads info Q lay records db) (returned : (storeRow info row).Returns db () db') :
    ∃ rid record lay', encodeRowCoerced row info.tags = .ok record ∧ ¬ Used db.txn lay info.heapPid rid ∧
      Sound heads info Q lay' ((rid, record) :: records) db' ∧ Stays heads info.heapPid lay db lay' db' := by
  obtain ⟨rid, blob, txn, indexes, encoded, placed, hooked, rfl⟩ := storeRow_returned returned
  have tags : info.tags ≠ [] := fun none => columns (map_eq_nil_iff.mp none)
  obtain ⟨lay', inserted⟩ :=
    (wp_insert sound.table.laid sound.table.member (ne_nil_of_encodeRow tags encoded)).returns placed
  have absent : rid ∉ records.map Prod.fst := by
    intro live
    obtain ⟨item, there, rfl⟩ := mem_map.mp live
    exact inserted.fresh (sound.table.used there)
  refine ⟨rid, blob, lay', encoded, inserted.fresh, ⟨sound.table.inserted inserted, ?_, sound.known⟩,
    .of_touches inserted.toTouches⟩
  exact inv.inserted sound.indexes absent encoded ((returns_each ..).mp hooked)

theorem Sound.returns_concerned (sound : Sound heads info Q lay records db) (used : Used db.txn lay info.heapPid rid)
    (returned : (concerned info filter rid).Returns db found db') :
    db' = db ∧ match sound.table.byRid.get? rid with
      | none => found = none
      | some record => ∃ row, decodeRow record info.tags = .ok row ∧ found = if kept info filter row
          then some row else none := by
  obtain ⟨txn, filtered, rfl⟩ := returns_onTxn.mp returned
  have saw : (readRow info rid).Returns db.txn (rowIn (X := X) info db.txn rid) db.txn := by
    obtain ⟨row, mid, reading, -⟩ := returns_bind.mp filtered
    obtain rfl := (reads_readRow info rid).of_returns reading
    rwa [rowIn, valueIn_eq reading]
  obtain ⟨rfl, -, rfl⟩ := (returns_filterRow saw).mp filtered
  have seen := ((sound.table.returns_readRow used).mp saw).2
  refine ⟨rfl, ?_⟩
  cases located : sound.table.byRid.get? rid with
  | none =>
    rw [located] at seen
    simp only [seen]
    rfl
  | some record =>
    rw [located] at seen
    obtain ⟨row, decoded, same⟩ := seen
    refine ⟨row, decoded, ?_⟩
    rw [same]
    rfl

theorem Sound.concerned_live (sound : Sound heads info Q lay ((rid, record) :: rest) db)
    (returned : (concerned info filter rid).Returns db found db') :
    db' = db ∧ ∃ row, decodeRow record info.tags = .ok row ∧ found = if kept info filter row
    then some row else none := by
  have live : (rid, record) ∈ (rid, record) :: rest := mem_cons_self
  have seen := sound.returns_concerned (sound.table.used live) returned
  rwa [Dict.get?_of_mem (d := sound.table.byRid) live] at seen

theorem Sound.concerned_dead (sound : Sound heads info Q lay records db) (used : Used db.txn lay info.heapPid rid)
    (dead : rid ∉ records.map Prod.fst)
    (returned : (concerned info filter rid).Returns db found db') : db' = db ∧ found = none := by
  have absent : sound.table.byRid.get? rid = none := Dict.get?_eq_none.mpr dead
  have seen := sound.returns_concerned used returned
  rwa [absent] at seen

theorem Sound.removed (inv : IndexInvariant info Q) (sound : Sound heads info Q lay ((rid, record) :: rest) db)
    (decoded : decodeRow record info.tags = .ok row) (deleted : (Heap.delete logs rid).Returns db.txn () txn)
    (hooked : (onDelete info rid row).Returns db.indexes () indexes) :
    Sound heads info Q lay rest { db with txn, indexes } ∧
    Stays heads info.heapPid lay db lay { db with txn, indexes } := by
  have effect : Deleted logs heads db.txn lay info.heapPid rid txn lay :=
    (wp_delete sound.table.laid sound.table.member (sound.table.used mem_cons_self).1).returns deleted
  have table := sound.table.deleted effect
  have indexed := inv.deleted sound.indexes sound.table.nodup mem_cons_self decoded ((returns_each ..).mp hooked)
  rw [filter_head sound.table.nodup] at table indexed
  exact ⟨⟨table, indexed, sound.known⟩, .of_touches effect.toTouches⟩

def hits (info : TableMeta) (filter : Option (Expr X)) (record : Bytes) : Bool :=
  (decodeRow record info.tags).toOption.any (kept info filter)

theorem hits_of_decoded (decoded : decodeRow record info.tags = .ok row) :
    hits info filter record = kept info filter row := by
  rw [hits, decoded]
  rfl

/-- What UPDATE makes of a record: the assigned columns are computed from the old row, and the new row is encoded. -/
def Rewritten (info : TableMeta) (clauses : List (Assignment X)) (filter : Option (Expr X))
    (old new : Rid × Bytes) : Prop :=
  ∃ row : Row X, decodeRow old.2 info.tags = .ok row ∧
    if kept info filter row then
      ∃ assigned, updated info info.name clauses row = .ok assigned ∧ encodeRowCoerced assigned info.tags = .ok new.2
    else new = old

def liveItems (items : List (Rid × Option Bytes)) : List (Rid × Bytes) :=
    items.filterMap fun item => item.2.map (item.1, ·)

/-- The rids still to be visited, with the records there at the start: they are used, and those without a record have
none now. -/
structure Pending (head : ℕ) (lay : Layout) (db : Database X) (items : List (Rid × Option Bytes))
    (records : List (Rid × Bytes)) :
    Prop where
  used : ∀ item ∈ items, Used db.txn lay head item.1
  distinct : (items.map Prod.fst).Nodup
  dead : ∀ item ∈ items, item.2 = none → item.1 ∉ records.map Prod.fst

/-- The record `old` was replaced by those of `image`, whose rids are its own or new. -/
def Replaced (heads : List ℕ) (info : TableMeta) (Q : List (Rid × Bytes) → List (LiveIndex X) → Prop)
    (becomes : Rid × Bytes → List (Rid × Bytes) → Prop) (lay : Layout) (db : Database X) (old : Rid × Bytes)
    (rest : List (Rid × Bytes)) (db' : Database X) : Prop :=
  ∃ lay' image, Sound heads info Q lay' (image ++ rest) db' ∧ Stays heads info.heapPid lay db lay' db' ∧
    becomes old image ∧ ∀ new ∈ image, new.1 = old.1 ∨ ¬ Used db.txn lay info.heapPid new.1

/-- A body that changes the record at its rid and leaves an empty slot alone. -/
structure RowBody (heads : List ℕ) (info : TableMeta) (Q : List (Rid × Bytes) → List (LiveIndex X) → Prop)
    (body : Rid → DbM X Bool) (hit : Bytes → Bool) (becomes : Rid × Bytes → List (Rid × Bytes) → Prop) : Prop where
  step : ∀ {lay db rid record rest changed db'}, Sound heads info Q lay ((rid, record) :: rest) db →
    (body rid).Returns db changed db' →
    changed = hit record ∧ Replaced heads info Q becomes lay db (rid, record) rest db'
  skip : ∀ {lay records db rid changed db'}, Sound heads info Q lay records db → Used db.txn lay info.heapPid rid →
    rid ∉ records.map Prod.fst → (body rid).Returns db changed db' → changed = false ∧ db' = db

/-- A row body that looks whether the row is concerned: what is left to show is what it does to such a row. -/
theorem rowBody_of_change {change : Rid → Row X → DbM X Bool}
    (isBody : ∀ rid, body rid = concerned info filter rid >>= fun found => found.elim (return false) (change rid))
    (spared : ∀ {old row}, decodeRow old.2 info.tags = .ok row → kept info filter row = false → becomes old [old])
    (step : ∀ {lay db rid record rest row changed db'}, Sound heads info Q lay ((rid, record) :: rest) db →
      decodeRow record info.tags = .ok row → kept info filter row = true → (change rid row).Returns db changed db' →
      changed = true ∧ Replaced heads info Q becomes lay db (rid, record) rest db') :
    RowBody heads info Q body (hits info filter) becomes where
  step := by
    intro lay db rid record rest changed db' sound returned
    rw [isBody] at returned
    obtain ⟨found, mid, looked, returned⟩ := returns_bind.mp returned
    obtain ⟨rfl, row, decoded, rfl⟩ := sound.concerned_live looked
    rw [hits_of_decoded decoded]
    cases hit : kept info filter row with
    | false =>
      simp only [hit, Bool.false_eq_true, if_false] at returned
      obtain ⟨rfl, rfl⟩ := returns_pure.mp returned
      exact ⟨rfl, lay, [_], sound, .refl .., spared decoded hit, fun new member =>
        .inl (by rw [mem_singleton.mp member])⟩
    | true =>
      simp only [hit, if_true] at returned
      exact step sound decoded hit returned
  skip := by
    intro lay records db rid changed db' sound used dead returned
    rw [isBody] at returned
    obtain ⟨found, mid, looked, returned⟩ := returns_bind.mp returned
    obtain ⟨rfl, rfl⟩ := sound.concerned_dead used dead looked
    exact (returns_pure.mp returned).imp Eq.symm Eq.symm

section

variable (inv : IndexInvariant info Q)
include inv

theorem RowBody.returns_affecting (each : RowBody heads info Q body hit becomes)
    {items : List (Rid × Option Bytes)} {done : List (Rid × Bytes)}
    (sound : Sound heads info Q lay (liveItems items ++ done) db)
    (pending : Pending info.heapPid lay db items (liveItems items ++ done))
    (returned : (affecting (items.map Prod.fst) body).Returns db n db') :
    ∃ lay' images, Forall₂ becomes (liveItems items) images ∧ Sound heads info Q lay' (images.flatten ++ done) db' ∧
      Stays heads info.heapPid lay db lay' db' ∧ n = ((liveItems items).filter fun item => hit item.2).length := by
  induction items generalizing lay db done n with
  | nil =>
    obtain ⟨rfl, rfl⟩ := returns_pure.mp returned
    exact ⟨lay, [], .nil, sound, .refl .., rfl⟩
  | cons item items ih =>
    obtain ⟨rid, content⟩ := item
    obtain ⟨changed, mid, others, first, later, rfl⟩ := returns_affecting_cons.mp returned
    obtain ⟨usedHere, usedLater⟩ := forall_mem_cons.mp pending.used
    obtain ⟨deadHere, deadLater⟩ := forall_mem_cons.mp pending.dead
    obtain ⟨alone, distinct⟩ := nodup_cons.mp pending.distinct
    cases content with
    | none =>
      obtain ⟨rfl, rfl⟩ := each.skip sound usedHere (deadHere rfl) first
      obtain ⟨lay', images, turned, after, stays, rfl⟩ := ih sound ⟨usedLater, distinct, deadLater⟩ later
      exact ⟨lay', images, turned, after, stays, by simp [liveItems]⟩
    | some record =>
      have live : liveItems ((rid, some record) :: items) = (rid, record) :: liveItems items := rfl
      rw [live] at sound deadLater ⊢
      obtain ⟨rfl, mid_lay, image, holds, stays, turned, fresh⟩ := each.step sound first
      have sound' : Sound heads info Q mid_lay (liveItems items ++ (image ++ done)) mid :=
        holds.perm inv (perm_append_comm_assoc ..)
      have pending' : Pending info.heapPid mid_lay mid items (liveItems items ++ (image ++ done)) := by
        refine ⟨fun item among => stays.used _ (usedLater item among), distinct, fun item among empty found => ?_⟩
        obtain ⟨other, there, same⟩ := mem_map.mp found
        -- a rid that was empty is neither that of an old record nor the new one
        have old (older : other ∈ (rid, record) :: liveItems items ++ done) : False :=
          deadLater item among empty (same ▸ mem_map_of_mem older)
        rcases mem_append.mp there with left | right
        · exact old (by simp [left])
        · rcases mem_append.mp right with new | right
          · rcases fresh other new with here | unused
            · exact alone (here ▸ same ▸ mem_map_of_mem among)
            · exact unused (same ▸ usedLater item among)
          · exact old (by simp [right])
      obtain ⟨lay', images, rest, after, stays', rfl⟩ := ih sound' pending' later
      refine ⟨lay', image :: images, .cons turned rest, after.perm inv ?_, stays.trans stays', ?_⟩
      · rw [flatten_cons, append_assoc]
        exact perm_append_comm_assoc ..
      · rw [filter_cons]
        cases hit record <;> simp [Nat.add_comm]

theorem RowBody.returns_walk (each : RowBody heads info Q body hit becomes)
    (sound : Sound heads info Q lay records db)
    (returned : (onTxn (Heap.scan info.heapPid) >>= fun rids => affecting rids body).Returns db n db') :
    ∃ lay' visited images, visited.Perm records ∧ Forall₂ becomes visited images ∧
      Sound heads info Q lay' images.flatten db' ∧ Stays heads info.heapPid lay db lay' db' ∧
      n = (records.filter fun item => hit item.2).length := by
  obtain ⟨rids, mid, looked, looped⟩ := returns_bind.mp returned
  obtain ⟨txn, scans, rfl⟩ := returns_onTxn.mp looked
  obtain ⟨rfl, rfl⟩ := scans.unique (returns_scan sound.table.laid sound.table.member)
  let items := (scanned db.txn lay info.heapPid).map fun rid => (rid, sound.table.byRid.get? rid)
  have live : liveItems items = (scanned db.txn lay info.heapPid).filterMap fun rid =>
    (sound.table.byRid.get? rid).map (rid, ·) :=
    filterMap_map
  have visited : (liveItems items).Perm records := by
    rw [live]
    exact sound.table.scanned_perm
  have rids : items.map Prod.fst = scanned db.txn lay info.heapPid := (map_map ..).trans (map_id _)
  have pending : Pending info.heapPid lay db items (liveItems items ++ []) := by
    refine ⟨fun item among => ?_, ?_, fun item among empty found => ?_⟩
    · obtain ⟨rid, there, rfl⟩ := mem_map.mp among
      exact used_of_mem_scanned there
    · rw [rids]
      exact scanned_nodup sound.table.laid sound.table.member
    · obtain ⟨rid, there, rfl⟩ := mem_map.mp among
      rw [append_nil, (visited.map Prod.fst).mem_iff] at found
      exact Dict.get?_eq_none.mp empty found
  have start : Sound heads info Q lay (liveItems items ++ []) db := sound.perm inv (by simpa using visited.symm)
  have walked : (affecting (items.map Prod.fst) body).Returns db n db' := rids ▸ looped
  obtain ⟨lay', images, turned, after, stays, rfl⟩ := each.returns_affecting inv start pending walked
  rw [append_nil] at after
  exact ⟨lay', liveItems items, images, visited, turned, after, stays, (visited.filter _).length_eq⟩

theorem deleteRow_body (filter : Option (Expr X)) : RowBody heads info Q (deleteRow info filter) (hits info filter)
    fun old image => image = if hits info filter old.2 then [] else [old] := by
  refine rowBody_of_change (fun rid => bind_congr fun found => by cases found <;> rfl)
    (fun decoded hit => by simp [hits_of_decoded decoded, hit]) ?_
  intro lay db rid record rest row changed db' sound decoded hit returned
  obtain ⟨_, mid, removed, returned⟩ := returns_bind.mp returned
  obtain ⟨txn, deleted, rfl⟩ := returns_removeFromHeap.mp removed
  obtain ⟨_, mid, followed, ended⟩ := returns_bind.mp returned
  obtain ⟨indexes, hooked, rfl⟩ := returns_onIndexes.mp followed
  obtain ⟨rfl, rfl⟩ := returns_pure.mp ended
  obtain ⟨gone, stays⟩ := sound.removed inv decoded deleted hooked
  exact ⟨rfl, lay, [], gone, stays, by simp [hits_of_decoded decoded, hit], nofun⟩

theorem updateRow_body (columns : info.columns ≠ []) (clauses : List (Assignment X)) (filter : Option (Expr X)) :
    RowBody heads info Q (updateRow info info.name clauses filter) (hits info filter)
      fun old image => ∃ new, image = [new] ∧ Rewritten info clauses filter old new := by
  refine rowBody_of_change (fun rid => bind_congr fun found => by cases found <;> rfl)
    (fun {old row} decoded hit => ⟨old, rfl, row, decoded, by simp [hit]⟩) ?_
  intro lay db rid record rest row changed db' sound decoded hit returned
  obtain ⟨assigned, mid, computed, returned⟩ := returns_bind.mp returned
  obtain ⟨evaluated, rfl⟩ := returns_ofExcept.mp computed
  obtain ⟨_, mid, followed, returned⟩ := returns_bind.mp returned
  obtain ⟨indexes, hooked, rfl⟩ := returns_onIndexes.mp followed
  obtain ⟨_, mid, checked, returned⟩ := returns_bind.mp returned
  obtain ⟨-, rfl⟩ := returns_precheck.mp checked
  obtain ⟨_, mid, removed, returned⟩ := returns_bind.mp returned
  obtain ⟨txn, deleted, rfl⟩ := returns_removeFromHeap.mp removed
  obtain ⟨gone, stays⟩ := sound.removed inv decoded deleted hooked
  obtain ⟨_, mid, stored, ended⟩ := returns_bind.mp returned
  obtain ⟨rfl, rfl⟩ := returns_pure.mp ended
  obtain ⟨newRid, new, lay', encoded, fresh, holds, stays'⟩ := gone.returns_storeRow inv columns stored
  refine ⟨rfl, lay', [(newRid, new)], holds, stays.trans stays', ⟨_, rfl, row, decoded, ?_⟩, ?_⟩
  · rw [if_pos hit]
    exact ⟨assigned, evaluated, encoded⟩
  · exact forall_mem_singleton.mpr (.inr fun used => fresh (stays.used newRid used))

theorem Sound.returns_deleteRows (sound : Sound heads info Q lay records db)
    (returned : (deleteRows info.name filter).Returns db n db') :
    ∃ lay', Sound heads info Q lay' (records.filter fun item => !hits info filter item.2) db' ∧
      Stays heads info.heapPid lay db lay' db' ∧ n = (records.filter fun item => hits info filter item.2).length := by
  obtain ⟨found, mid, bound, walked⟩ := returns_bind.mp returned
  obtain ⟨rfl, lay₁, sound₁, stays₁⟩ := sound.returns_dmlContext bound
  obtain ⟨lay', visited, images, perm, turned, after, stays, rfl⟩ :=
    (deleteRow_body inv filter).returns_walk inv sound₁ walked
  refine ⟨lay', after.perm inv ?_, stays₁.trans stays, rfl⟩
  have left : images.flatten = visited.filter fun item => !hits found filter item.2 := by
    clear perm after
    induction turned with
    | nil => rfl
    | @cons old image visited images first _ ih =>
      rw [flatten_cons, ih, first, filter_cons]
      cases hits found filter old.2 <;> rfl
  rw [left]
  exact perm.filter _

theorem Sound.returns_updateRows (columns : info.columns ≠ [])
    (sound : Sound heads info Q lay records db) (returned : (updateRows info.name clauses filter).Returns db n db') :
    ∃ lay' visited news, visited.Perm records ∧ Forall₂ (Rewritten info clauses filter) visited news ∧
      Sound heads info Q lay' news db' ∧ Stays heads info.heapPid lay db lay' db' ∧
      n = (records.filter fun item => hits info filter item.2).length := by
  obtain ⟨found, mid, bound, walked⟩ := returns_bind.mp returned
  obtain ⟨rfl, lay₁, sound₁, stays₁⟩ := sound.returns_dmlContext bound
  obtain ⟨lay', visited, images, perm, turned, after, stays, rfl⟩ :=
    (updateRow_body inv columns clauses filter).returns_walk inv sound₁ walked
  have single : Forall₂ (Rewritten found clauses filter) visited images.flatten := by
    clear perm after
    induction turned with
    | nil => exact .nil
    | cons first _ ih =>
      obtain ⟨new, rfl, replaced⟩ := first
      exact .cons replaced ih
  exact ⟨lay', visited, images.flatten, perm, single, after, stays₁.trans stays, rfl⟩

end

theorem Sound.returns_storeRows (inv : IndexInvariant info Q) (columns : info.columns ≠ [])
    (sound : Sound heads info Q lay records db) (returned : (forEach values (storeRow info)).Returns db () db') :
    ∃ lay' news, Forall₂ (fun value new => encodeRowCoerced value info.tags = .ok new.2) values news ∧
      Sound heads info Q lay' (news ++ records) db' ∧ Stays heads info.heapPid lay db lay' db' := by
  induction values generalizing lay records db with
  | nil =>
    obtain rfl := returns_forEach_nil.mp returned
    exact ⟨lay, [], .nil, sound, .refl ..⟩
  | cons value values ih =>
    obtain ⟨mid, first, later⟩ := returns_forEach_cons.mp returned
    obtain ⟨rid, record, lay₁, encoded, -, sound₁, stays₁⟩ := sound.returns_storeRow inv columns first
    obtain ⟨lay', news, rest, after, stays⟩ := ih sound₁ later
    exact ⟨lay', (rid, record) :: news, .cons encoded rest, after.perm inv perm_middle, stays₁.trans stays⟩

theorem insertRows_returned {table : String} (returned : (insertRows table values).Returns db n db') : ∃ info mid,
    (dmlContext table).Returns db info mid ∧ (forEach values (storeRow info)).Returns mid () db' ∧
    n = values.length := by
  obtain ⟨info, mid, bound, checking⟩ := returns_bind.mp returned
  obtain ⟨_, mid', validated, prechecking⟩ := returns_bind.mp checking
  obtain ⟨-, rfl⟩ := returns_ofExcept.mp validated
  obtain ⟨_, mid', checked, storing⟩ := returns_bind.mp prechecking
  have reads : (forEach values (precheck info)).Reads := reads_forEach fun row _ =>
    reads_bind reads_read fun db => reads_ofExcept _
  obtain rfl := reads.of_returns checked
  obtain ⟨_, last, stored, ended⟩ := returns_bind.mp storing
  obtain ⟨rfl, rfl⟩ := returns_pure.mp ended
  exact ⟨info, _, bound, stored, rfl⟩

theorem Sound.returns_insertRows (inv : IndexInvariant info Q) (columns : info.columns ≠ [])
    (sound : Sound heads info Q lay records db) (returned : (insertRows info.name values).Returns db n db') :
    ∃ lay' news, Forall₂ (fun value new => encodeRowCoerced value info.tags = .ok new.2) values news ∧
      Sound heads info Q lay' (news ++ records) db' ∧ Stays heads info.heapPid lay db lay' db' ∧ n = values.length := by
  obtain ⟨found, mid, bound, stored, rfl⟩ := insertRows_returned returned
  obtain ⟨rfl, lay₁, sound₁, stays₁⟩ := sound.returns_dmlContext bound
  obtain ⟨lay', news, encoded, after, stays⟩ := sound₁.returns_storeRows inv columns stored
  exact ⟨lay', news, encoded, after, stays₁.trans stays, rfl⟩

end Tinydb.Executor
