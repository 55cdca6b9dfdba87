import Tinydb.Index.CatalogPage
import Tinydb.Lib.JsonText

/-! The texts of catalog entries (`storage/catalog.py`).

A table and an index are JSON objects on their page. An entry reads back as what was
written.
-/

namespace Tinydb.Index

open Lib Tinydb.Types Storage

/-- `d[key]`. -/
def item (d : JsonValue) (key : String) : Except Exc JsonValue :=
  match d.get? key with
  | some value => .ok value
  | none => .error ⟨.keyError, quoted key⟩

def wrongType : Exc := ⟨.typeError, "value of another type"⟩

def asText : JsonValue → Except Exc String
  | .str s => .ok s
  | _ => .error wrongType

/-- `int(_)`, for the numbers the catalog writes. -/
def asNat : JsonValue → Except Exc ℕ
  | .int (.ofNat n) => .ok n
  | _ => .error wrongType

/-- `tuple(_)`. -/
def asList : JsonValue → Except Exc (List JsonValue)
  | .arr items => .ok items
  | _ => .error wrongType

/-- `bool(d.get(key, False))`. -/
def flag (d : JsonValue) (key : String) : Bool :=
  match d.get? key with
  | none | some .null => false
  | some (.bool b) => b
  | some (.int i) => i ≠ 0
  | some (.str s) => s ≠ ""
  | some (.arr items) => !items.isEmpty
  | some (.obj members) => !members.isEmpty

/-- `TypeTag(_)`. -/
def asTag : JsonValue → Except Exc TypeTag
  | .int i =>
    match TypeTag.all.find? fun tag => (tag.byte.toNat : ℤ) = i with
    | some tag => .ok tag
    | none => .error ⟨.valueError, toString i ++ " is not a valid TypeTag"⟩
  | _ => .error wrongType

def columnToDict (c : Column) : JsonValue :=
  .obj [("name", .str c.name), ("tag", .int c.tag.byte.toNat), ("not_null", .bool c.notNull),
    ("primary_key", .bool c.primaryKey), ("unique", .bool c.unique)]

def columnFromDict (d : JsonValue) : Except Exc Column := do
  return ⟨← asText (← item d "name"), ← asTag (← item d "tag"), flag d "not_null", flag d "primary_key",
    flag d "unique"⟩

def tableToDict (info : TableMeta) : JsonValue :=
  .obj [("table_id", .int info.tableId), ("name", .str info.name), ("heap_pid", .int info.heapPid),
    ("columns", .arr (info.columns.map columnToDict))]

def tableFromDict (d : JsonValue) : Except Exc TableMeta := do
  let tableId ← asNat (← item d "table_id")
  let name ← asText (← item d "name")
  -- `d.get("columns", [])`
  let columns ← match d.get? "columns" with
    | some columns => asList columns
    | none => .ok []
  return ⟨tableId, name, ← columns.mapM columnFromDict, ← asNat (← item d "heap_pid")⟩

def indexToDict (entry : IndexEntry) : JsonValue :=
  .obj [("name", .str entry.name), ("table", .str entry.table), ("columns", .arr (entry.columns.map .str)),
    ("root_pid", .int entry.rootPid), ("unique", .bool entry.unique)]

def indexFromDict (d : JsonValue) : Except Exc IndexEntry := do
  let name ← asText (← item d "name")
  let table ← asText (← item d "table")
  let columns ← (← asList (← item d "columns")).mapM asText
  return ⟨⟨name, table, columns, flag d "unique"⟩, ← asNat (← item d "root_pid")⟩

def jsonBytes (value : JsonValue) : Bytes := utf8 (String.ofList value.dumps)

def ofJsonBytes (blob : Bytes) : Except Exc JsonValue := do
  match JsonValue.loads (← ofUtf8 blob).toList with
  | some value => return value
  | none => throw ⟨.valueError, "not a JSON text"⟩

/-- `_serialize_meta`. -/
def serializeMeta (info : TableMeta) : Bytes := jsonBytes (tableToDict info)

/-- `_deserialize_meta`. -/
def deserializeMeta (blob : Bytes) : Except Exc TableMeta := do tableFromDict (← ofJsonBytes blob)

/-- `_serialize_index_meta`. -/
def serializeIndexMeta (entry : IndexEntry) : Bytes := jsonBytes (indexToDict entry)

/-- `_deserialize_index_meta`. -/
def deserializeIndexMeta (blob : Bytes) : Except Exc IndexEntry := do indexFromDict (← ofJsonBytes blob)

theorem ofJsonBytes_jsonBytes (value : JsonValue) : ofJsonBytes (jsonBytes value) = .ok value := by
  rw [ofJsonBytes, jsonBytes, ofUtf8_utf8]
  show (match JsonValue.loads (String.ofList value.dumps).toList with
    | some value => Except.ok value
    | none => _) = _
  rw [String.toList_ofList, JsonValue.loads_dumps]

theorem jsonBytes_nonempty (value : JsonValue) : jsonBytes value ≠ [] := by
  intro empty
  obtain ⟨c, cs, head, -, -⟩ := JsonValue.dumps_head value
  have text : (Except.ok (String.ofList value.dumps) : Except Exc String) = .ok "" := by
    have blank : utf8 "" = [] := by simp [utf8, ByteArray.toList, byteArray_toList_loop]
    rw [← ofUtf8_utf8, ← ofUtf8_utf8 "", blank]
    exact congrArg ofUtf8 empty
  have none : value.dumps = [] := String.ofList_injective (Except.ok.inj text)
  rw [head] at none
  cases none

theorem asTag_byte (tag : TypeTag) : asTag (.int tag.byte.toNat) = .ok tag := by cases tag <;> rfl

theorem columnFromDict_columnToDict (c : Column) : columnFromDict (columnToDict c) = .ok c := by
  obtain ⟨name, tag, notNull, primaryKey, unique⟩ := c
  have found : item (columnToDict ⟨name, tag, notNull, primaryKey, unique⟩) "tag" = .ok (.int tag.byte.toNat) := rfl
  rw [columnFromDict, found]
  show asTag _ >>= _ = _
  rw [asTag_byte]
  rfl

theorem mapM_map {α β : Type} {write : α → β} {read : β → Except Exc α} (back : ∀ a, read (write a) = .ok a)
    (items : List α) :
    (items.map write).mapM read = .ok items := by
  induction items with
  | nil => rfl
  | cons a items ih =>
    rw [List.map_cons, List.mapM_cons, back, ih]
    rfl

theorem tableFromDict_tableToDict (info : TableMeta) : tableFromDict (tableToDict info) = .ok info := by
  obtain ⟨tableId, name, columns, heapPid⟩ := info
  show (columns.map columnToDict).mapM columnFromDict >>= _ = _
  rw [mapM_map columnFromDict_columnToDict]
  rfl

theorem indexFromDict_indexToDict (entry : IndexEntry) : indexFromDict (indexToDict entry) = .ok entry := by
  obtain ⟨⟨name, table, columns, unique⟩, rootPid⟩ := entry
  show (columns.map JsonValue.str).mapM asText >>= _ = _
  rw [mapM_map (show ∀ s, asText (.str s) = .ok s from fun _ => rfl)]
  rfl

theorem deserializeMeta_serializeMeta (info : TableMeta) : deserializeMeta (serializeMeta info) = .ok info :=
  bind_ok_iff.mpr ⟨_, ofJsonBytes_jsonBytes _, tableFromDict_tableToDict info⟩

theorem deserializeIndexMeta_serializeIndexMeta (entry : IndexEntry) :
    deserializeIndexMeta (serializeIndexMeta entry) = .ok entry :=
  bind_ok_iff.mpr ⟨_, ofJsonBytes_jsonBytes _, indexFromDict_indexToDict entry⟩

theorem length_le_utf8Len (cs : List Char) : cs.length ≤ String.utf8Len cs := by
  induction cs with
  | nil => exact Nat.zero_le _
  | cons c cs ih =>
    have positive := c.utf8Size_pos
    rw [String.utf8Len_cons, List.length_cons]
    omega

theorem length_le_utf8 (cs : List Char) : cs.length ≤ (utf8 (String.ofList cs)).length := by
  have size : (utf8 (String.ofList cs)).length = (String.ofList cs).utf8ByteSize := by
    rw [utf8, ByteArray.toList, byteArray_toList_loop, String.utf8ByteSize]
    simp
  rw [size, String.utf8ByteSize_ofList]
  exact length_le_utf8Len cs

theorem name_le_serializeMeta (info : TableMeta) : info.name.toList.length ≤ (serializeMeta info).length := by
  refine le_trans ?_ (length_le_utf8 _)
  have name := JsonValue.length_le_escaped info.name.toList
  simp only [tableToDict, JsonValue.dumps, JsonValue.dumpsMembers, JsonValue.dumpsStr,
    List.length_append, List.length_cons]
  omega

end Tinydb.Index
