import Tinydb.Storage.Heap
import Tinydb.Types.RoundTrip

/-! Nodes of an index tree and their pages (`index/btree_leaf.py`, `index/btree_internal.py`).

A key is written as the codec writes a value of the index's type, INT or TEXT. Both kinds of
node have a header of twelve bytes and then entries: a key behind its length, and a rid or a
child. The entries are written one after the other, and the first that does not fit ends the
write. A page that holds a node reads back as that node.
-/

namespace Tinydb.Index

open Lib Tinydb.Types Storage Heap List

/-- How the keys of an index are written and read. -/
structure KeyType (K : Type) where
  encode : K → Except Exc Bytes
  decode : Bytes → Except Exc K
  decode_encode : ∀ key bs, encode key = .ok bs → decode bs = .ok key

def Int64 (i : ℤ) : Prop := -(2 ^ 63) ≤ i ∧ i ≤ 2 ^ 63 - 1

instance (i : ℤ) : Decidable (Int64 i) := inferInstanceAs (Decidable (_ ∧ _))

def encodeInt (i : ℤ) : Except Exc Bytes :=
  if Int64 i then do return TypeTag.int.byte :: (← packSigned 8 i)
  else .error ⟨.overflowError, "int " ++ toString i ++ " does not fit in signed 64-bit"⟩

def decodeInt (bs : Bytes) : Except Exc ℤ :=
  match bs[0]? with
  | none => .error ⟨.valueError, "buffer underrun: no tag byte to read"⟩
  | some b =>
    if b = TypeTag.int.byte then do return unpackSigned 8 (← unpackFrom bs 1 8)
    else .error ⟨.typeError, "not an int key"⟩

def intKey : KeyType ℤ where
  encode := encodeInt
  decode := decodeInt
  decode_encode := fun i bs encoded => by
    rw [encodeInt] at encoded
    split at encoded
    case isFalse => cases encoded
    case isTrue =>
      obtain ⟨payload, packed, rfl⟩ := bind_return_iff.mp encoded
      have length := packSigned_length packed
      have whole : unpackFrom (TypeTag.int.byte :: payload) 1 8 = .ok payload := by
        rw [unpackFrom, if_pos (by simp [length]), slice, List.drop_succ_cons, List.drop_zero,
          List.take_of_length_le length.le]
      have first : (TypeTag.int.byte :: payload)[0]? = some TypeTag.int.byte := rfl
      simp only [decodeInt, first, whole, if_true]
      exact congrArg Except.ok (unpackSigned_of_packSigned (by decide) packed)

def encodeText (text : String) : Except Exc Bytes := do return TypeTag.text.byte :: (← lengthPrefixed (utf8 text))

def decodeText (bs : Bytes) : Except Exc String :=
  match bs[0]? with
  | none => .error ⟨.valueError, "buffer underrun: no tag byte to read"⟩
  | some b =>
    if b = TypeTag.text.byte then do
      let (payload, _) ← decodePrefixed bs 1
      ofUtf8 payload
    else .error ⟨.typeError, "not a text key"⟩

def textKey : KeyType String where
  encode := encodeText
  decode := decodeText
  decode_encode := fun text bs encoded => by
    obtain ⟨payload, packed, rfl⟩ := bind_return_iff.mp encoded
    rw [lengthPrefixed] at packed
    split at packed
    case isFalse => cases packed
    case isTrue short =>
      cases packed
      have read : decodePrefixed (TypeTag.text.byte :: (packLE 4 (utf8 text).length ++ utf8 text)) 1 =
          .ok (utf8 text, 1 + 4 + (utf8 text).length) := by
        simpa using decodePrefixed_part short [TypeTag.text.byte] []
      have first : (TypeTag.text.byte :: (packLE 4 (utf8 text).length ++ utf8 text))[0]? = some TypeTag.text.byte := rfl
      simp only [decodeText, first, if_true, read, ok_bind, ofUtf8_utf8]

theorem encodeInt_length {i : ℤ} (range : Int64 i) : ∃ bs, encodeInt i = .ok bs ∧ bs.length = 9 := by
  have packed : packSigned 8 i = .ok (packLE 8 (i % 2 ^ 64).toNat) := by
    rw [packSigned, if_pos ⟨range.1, by have := range.2; norm_num; omega⟩]
  refine ⟨TypeTag.int.byte :: packLE 8 (i % 2 ^ 64).toNat, ?_, by simp⟩
  rw [encodeInt, if_pos range, packed]
  rfl

variable {K T : Type} {kt : KeyType K} {key : K}

def KeyType.size (kt : KeyType K) (key : K) : ℕ :=
  match kt.encode key with
  | .ok bs => bs.length
  | .error _ => 0

def KeyType.Codes (kt : KeyType K) (key : K) : Prop := ∃ bs, kt.encode key = .ok bs ∧ bs.length ≤ 0xFFFF

theorem KeyType.Codes.encode (codes : kt.Codes key) :
    ∃ bs, kt.encode key = .ok bs ∧ bs.length = kt.size key ∧ kt.size key ≤ 0xFFFF := by
  obtain ⟨bs, encoded, small⟩ := codes
  have size : kt.size key = bs.length := by rw [KeyType.size, encoded]
  exact ⟨bs, encoded, size.symm, size ▸ small⟩

/-- A leaf has its entries in the order of their keys, an internal node one key between any two children. -/
inductive Node (K : Type) where
  | leaf (entries : List (K × Rid)) (next : ℕ)
  | internal (keys : List K) (children : List ℕ)

namespace Node

def HEADER_SIZE : ℕ := 12

/-- What stands behind the key of an entry. -/
structure Suffix (T : Type) where
  size : ℕ
  pack : T → Except Exc Bytes
  unpack : Bytes → T
  lawful : ∀ value bs, pack value = .ok bs → bs.length = size ∧ unpack bs = value

def ridSuffix : Suffix Rid where
  size := 6
  pack rid :=
    if U32 rid.pageId ∧ rid.slotId < 2 ^ 16 then .ok (packLE 4 rid.pageId ++ packLE 2 rid.slotId)
    else .error .packRange
  unpack bs := ⟨unpackLE (slice bs 0 4), unpackLE (slice bs 4 2)⟩
  lawful := fun rid bs packed => by
    split at packed
    case isFalse => cases packed
    case isTrue range =>
      cases packed
      refine ⟨by simp, ?_⟩
      rw [slice_front (packLE_length _ _), slice_skip _ 4 (packLE_length _ _) (le_refl _), Nat.sub_self,
        slice_all (packLE_length _ _), unpackLE_packLE range.1, unpackLE_packLE range.2]

def childSuffix : Suffix ℕ where
  size := 4
  pack pid := if U32 pid then .ok (packLE 4 pid) else .error .packRange
  unpack := unpackLE
  lawful := fun pid bs packed => by
    split at packed
    case isFalse => cases packed
    case isTrue range =>
      cases packed
      exact ⟨packLE_length _ _, unpackLE_packLE range⟩

/-- The entries from `offset` on; `overflow` is raised with the position an entry would end at. -/
def packEntries (kt : KeyType K) (suffix : Suffix T) (overflow : ℕ → Exc) : ℕ → List (K × T) → Except Exc Bytes
  | _, [] => .ok []
  | offset, (key, value) :: rest => do
    let encoded ← kt.encode key
    if 0xFFFF < encoded.length then
      .error ⟨.valueError, "encoded key too long: " ++ toString encoded.length ++ " bytes (max 65535)"⟩
    else
      let ends := offset + (2 + encoded.length + suffix.size)
      if PAGE_SIZE < ends then
        .error (overflow ends)
      else
        let behind ← suffix.pack value
        let more ← packEntries kt suffix overflow ends rest
        return packLE 2 encoded.length ++ (encoded ++ (behind ++ more))

def unpackEntries (kt : KeyType K) (suffix : Suffix T) (buf : Bytes) : (count offset : ℕ) → Except Exc (List (K × T))
  | 0, _ => .ok []
  | count + 1, offset => do
    let length := unpackLE (← unpackFrom buf offset 2)
    let key ← kt.decode (slice buf (offset + 2) length)
    let value := suffix.unpack (← unpackFrom buf (offset + 2 + length) suffix.size)
    let more ← unpackEntries kt suffix buf count (offset + 2 + length + suffix.size)
    return (key, value) :: more

def padded (bs : Bytes) : Page := ⟨(bs ++ replicate PAGE_SIZE 0).take PAGE_SIZE, by simp⟩

def overflowText (kind : String) (pid count ends : ℕ) : Exc :=
  ⟨.btreeOverflowError, kind ++ " overflow on page " ++ toString pid ++ ": entry " ++ toString count ++
    " does not fit (" ++ toString ends ++ " > " ++ toString PAGE_SIZE ++ ")"⟩

def leafHeader (next count : ℕ) : Bytes := packLE 4 0x01 ++ (packLE 4 next ++ (packLE 2 count ++ packLE 2 0))

def internalHeader (count first : ℕ) : Bytes := packLE 4 0x02 ++ (packLE 2 count ++ (packLE 2 0 ++ packLE 4 first))

/-- `_write_leaf` and `_write_internal` up to the write. -/
def pack (kt : KeyType K) (pid : ℕ) : Node K → Except Exc Page
  | .leaf entries next =>
    if U32 next ∧ entries.length < 2 ^ 16 then do
      let payload ← packEntries kt ridSuffix (overflowText "leaf" pid entries.length) HEADER_SIZE entries
      return padded (leafHeader next entries.length ++ payload)
    else .error .packRange
  | .internal _ [] => .error ⟨.valueError, "internal node must have at least one child"⟩
  | .internal keys (first :: rest) =>
    if keys.length < 2 ^ 16 ∧ U32 first then do
      let payload ← packEntries kt childSuffix (overflowText "internal" pid keys.length) HEADER_SIZE (keys.zip rest)
      return padded (internalHeader keys.length first ++ payload)
    else .error .packRange

def nodeType (page : Page) : ℕ := unpackLE (slice page.bytes 0 1)

/-- `0x` and two digits. -/
def hexByte (n : ℕ) : String := "0x" ++ (if n < 16 then "0" else "") ++ String.ofList (Nat.toDigits 16 n)

/-- `_read_leaf_from_bytes`; a successor of 0 is none. -/
def unpackLeaf (kt : KeyType K) (pid : ℕ) (page : Page) : Except Exc (List (K × Rid) × ℕ) :=
  if nodeType page = 0 ∨ nodeType page = 1 then do
    let next := unpackLE (slice page.bytes 4 4)
    let count := unpackLE (slice page.bytes 8 2)
    let entries ← unpackEntries kt ridSuffix page.bytes count HEADER_SIZE
    return (entries, if next = 0 then NO_NEXT else next)
  else
    .error ⟨.valueError, "page " ++ toString pid ++ " is not a leaf (node_type=" ++ hexByte (nodeType page) ++ ")"⟩

/-- `_read_internal_from_bytes` of a page with that type. -/
def unpackInternal (kt : KeyType K) (page : Page) : Except Exc (Node K) := do
  let count := unpackLE (slice page.bytes 4 2)
  let first := unpackLE (slice page.bytes 8 4)
  let entries ← unpackEntries kt childSuffix page.bytes count HEADER_SIZE
  return .internal (entries.map Prod.fst) (first :: entries.map Prod.snd)

/-- `_read_node_view`, and `_ensure_loaded` with its own text for an unknown type. -/
def unpack (kt : KeyType K) (unknown : String) (pid : ℕ) (page : Page) : Except Exc (Node K) :=
  if nodeType page = 0 ∨ nodeType page = 1 then do
    let (entries, next) ← unpackLeaf kt pid page
    return .leaf entries next
  else if nodeType page = 2 then unpackInternal kt page
  else .error ⟨.valueError, unknown ++ toString pid ++ " has unknown node_type " ++ hexByte (nodeType page)⟩

def entrySize (kt : KeyType K) (suffix : Suffix T) (key : K) : ℕ := 2 + kt.size key + suffix.size

def entriesSize (kt : KeyType K) (suffix : Suffix T) (entries : List (K × T)) : ℕ :=
  (entries.map fun e => entrySize kt suffix e.1).sum

def Writable (kt : KeyType K) (suffix : Suffix T) (entry : K × T) : Prop :=
  kt.Codes entry.1 ∧ ∃ bs, suffix.pack entry.2 = .ok bs

/-- The entry can be packed, at any size. -/
def Packs (kt : KeyType K) (suffix : Suffix T) (entry : K × T) : Prop :=
  (∃ bs, kt.encode entry.1 = .ok bs) ∧ ∃ bs, suffix.pack entry.2 = .ok bs

/-- The first key from `offset` on whose entry does not fit has a length of two bytes. -/
def ShortOverflow (kt : KeyType K) (suffix : Suffix T) : (offset : ℕ) → List K → Prop
  | _, [] => True
  | offset, key :: rest =>
    if PAGE_SIZE < offset + entrySize kt suffix key then kt.size key ≤ 0xFFFF
    else ShortOverflow kt suffix (offset + entrySize kt suffix key) rest

variable {n : ℕ} {suffix : Suffix T} {overflow : ℕ → Exc} {entries : List (K × T)} {offset : ℕ} {encoded behind : Bytes}
  {value : T} {pre payload : Bytes} {pid : ℕ} {bs : Bytes} {keys : List K} {rest : List ℕ} {node : Node K}

theorem entriesSize_cons (rest : List (K × T)) :
    entriesSize kt suffix ((key, value) :: rest) = entrySize kt suffix key + entriesSize kt suffix rest := by
  rw [entriesSize, map_cons, sum_cons, entriesSize]

theorem packEntries_step (rest : List (K × T)) (encodes : kt.encode key = .ok encoded)
    (packed : suffix.pack value = .ok behind) :
    packEntries kt suffix overflow offset ((key, value) :: rest) =
      if 0xFFFF < kt.size key then
        .error ⟨.valueError, "encoded key too long: " ++ toString encoded.length ++ " bytes (max 65535)"⟩
      else if PAGE_SIZE < offset + entrySize kt suffix key then .error (overflow (offset + entrySize kt suffix key))
      else (packEntries kt suffix overflow (offset + entrySize kt suffix key) rest).map fun more =>
        packLE 2 encoded.length ++ (encoded ++ (behind ++ more)) := by
  have size : kt.size key = encoded.length := by rw [KeyType.size, encodes]
  rw [packEntries, encodes, ok_bind, entrySize, size]
  simp only [packed, ok_bind]
  split_ifs
  · rfl
  · rfl
  · cases packEntries kt suffix overflow (offset + (2 + encoded.length + suffix.size)) rest <;> rfl

theorem packEntries_of_fits (writable : ∀ e ∈ entries, Writable kt suffix e)
    (fits : offset + entriesSize kt suffix entries ≤ PAGE_SIZE) :
    ∃ payload, packEntries kt suffix overflow offset entries = .ok payload ∧
      payload.length = entriesSize kt suffix entries := by
  induction entries generalizing offset with
  | nil => exact ⟨[], rfl, rfl⟩
  | cons entry rest ih =>
    obtain ⟨key, value⟩ := entry
    obtain ⟨⟨codes, behind, packed⟩, writable⟩ := forall_mem_cons.mp writable
    obtain ⟨encoded, encodes, length, small⟩ := (show kt.Codes key from codes).encode
    rw [entriesSize_cons] at fits ⊢
    obtain ⟨more, later, moreLength⟩ := ih writable
      (show offset + entrySize kt suffix key + entriesSize kt suffix rest ≤ PAGE_SIZE by omega)
    refine ⟨packLE 2 encoded.length ++ (encoded ++ (behind ++ more)), ?_, ?_⟩
    · rw [packEntries_step rest encodes packed, if_neg (by omega), if_neg (by omega), later]
      rfl
    · simp only [length_append, packLE_length, moreLength, (suffix.lawful value behind packed).1, entrySize, ← length]
      omega

/-- Entries that do not fit: an overflow is reported if the key that would cross the end has a length of two bytes. -/
theorem packEntries_beyond (packs : ∀ e ∈ entries, Packs kt suffix e) (start : offset ≤ PAGE_SIZE)
    (large : PAGE_SIZE < offset + entriesSize kt suffix entries)
    (cls : ∀ ends, (overflow ends).cls = .btreeOverflowError) :
    ∃ e, packEntries kt suffix overflow offset entries = .error e ∧
      (e.cls = .btreeOverflowError ↔ ShortOverflow kt suffix offset (entries.map Prod.fst)) := by
  induction entries generalizing offset with
  | nil =>
    rw [entriesSize, map_nil, sum_nil] at large
    omega
  | cons entry rest ih =>
    obtain ⟨key, value⟩ := entry
    obtain ⟨⟨⟨encoded, encodes⟩, behind, packed⟩, packs⟩ := forall_mem_cons.mp packs
    rw [entriesSize_cons] at large
    rw [packEntries_step rest encodes packed, map_cons, ShortOverflow]
    have page : PAGE_SIZE < 0xFFFF := by decide
    by_cases beyond : PAGE_SIZE < offset + entrySize kt suffix key
    · rw [if_pos beyond, if_pos beyond]
      split_ifs with long
      · exact ⟨_, rfl, iff_of_false (by simp) (by omega)⟩
      · exact ⟨_, rfl, iff_of_true (cls _) (by omega)⟩
    · have short : ¬ 0xFFFF < kt.size key := by
        rw [entrySize] at beyond
        omega
      obtain ⟨e, later, reported⟩ := ih packs (Nat.not_lt.mp beyond) (by omega)
      rw [if_neg short, if_neg beyond, if_neg beyond, later]
      exact ⟨e, rfl, reported⟩

theorem shortOverflow_of_codes (codes : ∀ key ∈ keys, kt.Codes key) (offset : ℕ) :
    ShortOverflow kt suffix offset keys := by
  induction keys generalizing offset with
  | nil => trivial
  | cons key rest ih =>
    obtain ⟨first, codes⟩ := forall_mem_cons.mp codes
    obtain ⟨-, -, -, small⟩ := first.encode
    rw [ShortOverflow]
    split_ifs
    · exact small
    · exact ih codes _

theorem unpackFrom_part {part post : Bytes} {off : ℕ} (start : pre.length = off) (size : part.length = n) :
    unpackFrom (pre ++ (part ++ post)) off n = .ok part := by
  have inside : off + n ≤ (pre ++ (part ++ post)).length := by
    simp only [length_append, start, size]
    omega
  rw [unpackFrom, if_pos inside, slice_part start size]

theorem packEntries_cons {rest : List (K × T)}
    (packed : packEntries kt suffix overflow offset ((key, value) :: rest) = .ok payload) :
    ∃ encoded behind more, kt.encode key = .ok encoded ∧ encoded.length ≤ 0xFFFF ∧ suffix.pack value = .ok behind ∧
      packEntries kt suffix overflow (offset + (2 + encoded.length + suffix.size)) rest = .ok more ∧
      payload = packLE 2 encoded.length ++ (encoded ++ (behind ++ more)) := by
  obtain ⟨encoded, encodes, packed⟩ := bind_ok_iff.mp packed
  split at packed
  case isTrue => cases packed
  case isFalse small =>
    simp only at packed
    split at packed
    case isTrue => cases packed
    case isFalse =>
      obtain ⟨behind, behinds, packed⟩ := bind_ok_iff.mp packed
      obtain ⟨more, later, packed⟩ := bind_ok_iff.mp packed
      exact ⟨encoded, behind, more, encodes, Nat.not_lt.mp small, behinds, later, (Except.ok.inj packed).symm⟩

theorem unpackEntries_of_packEntries (packed : packEntries kt suffix overflow offset entries = .ok payload)
    (post : Bytes) (start : pre.length = offset) :
    unpackEntries kt suffix (pre ++ (payload ++ post)) entries.length offset = .ok entries := by
  induction entries generalizing offset payload pre with
  | nil => rfl
  | cons entry rest ih =>
    obtain ⟨key, value⟩ := entry
    obtain ⟨encoded, behind, more, encodes, small, behinds, later, rfl⟩ := packEntries_cons packed
    obtain ⟨width, back⟩ := suffix.lawful value behind behinds
    obtain ⟨lengthBytes, number⟩ : ∃ bs, packLE 2 encoded.length = bs := ⟨_, rfl⟩
    have two : lengthBytes.length = 2 := number ▸ packLE_length 2 encoded.length
    have count : unpackLE lengthBytes = encoded.length := by
      rw [← number]
      exact unpackLE_packLE (Nat.lt_succ_of_le small)
    rw [number]
    -- the buffer, cut at each field in turn
    have atLength : unpackFrom (pre ++ ((lengthBytes ++ (encoded ++ (behind ++ more))) ++ post)) offset 2 =
        .ok lengthBytes := by
      rw [append_assoc]
      exact unpackFrom_part start two
    have atKey : slice (pre ++ ((lengthBytes ++ (encoded ++ (behind ++ more))) ++ post)) (offset + 2) encoded.length =
        encoded := by
      have whole : pre ++ ((lengthBytes ++ (encoded ++ (behind ++ more))) ++ post) =
          (pre ++ lengthBytes) ++ (encoded ++ ((behind ++ more) ++ post)) := by simp
      rw [whole]
      exact slice_part (by simp [start, two]) rfl
    have atSuffix : unpackFrom (pre ++ ((lengthBytes ++ (encoded ++ (behind ++ more))) ++ post))
        (offset + 2 + encoded.length) suffix.size = .ok behind := by
      have whole : pre ++ ((lengthBytes ++ (encoded ++ (behind ++ more))) ++ post) =
          (pre ++ (lengthBytes ++ encoded)) ++ (behind ++ (more ++ post)) := by simp
      rw [whole]
      exact unpackFrom_part (by simp [start, two]; omega) width
    have atRest : unpackEntries kt suffix (pre ++ ((lengthBytes ++ (encoded ++ (behind ++ more))) ++ post)) rest.length
        (offset + 2 + encoded.length + suffix.size) = .ok rest := by
      have whole : pre ++ ((lengthBytes ++ (encoded ++ (behind ++ more))) ++ post) =
          (pre ++ (lengthBytes ++ (encoded ++ behind))) ++ (more ++ post) := by simp
      have next : offset + 2 + encoded.length + suffix.size = offset + (2 + encoded.length + suffix.size) := by omega
      rw [whole, next]
      exact ih later (by simp [start, two, width]; omega)
    rw [length_cons, unpackEntries, atLength]
    simp only [bind, Except.bind, pure, Except.pure, count, atKey, kt.decode_encode key encoded encodes,
      atSuffix, back, atRest]

def size (kt : KeyType K) : Node K → ℕ
  | .leaf entries _ => HEADER_SIZE + entriesSize kt ridSuffix entries
  | .internal keys _ => HEADER_SIZE + (keys.map fun key => entrySize kt childSuffix key).sum

def Coded (kt : KeyType K) : Node K → Prop
  | .leaf entries next =>
    (∀ e ∈ entries, Writable kt ridSuffix e) ∧ entries.length < 2 ^ 16 ∧ U32 next ∧ next ≠ 0
  | .internal keys children =>
    (∀ key ∈ keys, kt.Codes key) ∧ keys.length < 2 ^ 16 ∧ (∀ child ∈ children, U32 child) ∧
      children.length = keys.length + 1

/-- One rid for each key of a leaf and one child more than keys of an internal node, with numbers in their ranges. -/
def Shaped (kt : KeyType K) : Node K → Prop
  | .leaf entries next => (∀ e ∈ entries, Packs kt ridSuffix e) ∧ U32 next ∧ next ≠ 0
  | .internal keys children =>
    (∀ key ∈ keys, ∃ bs, kt.encode key = .ok bs) ∧ (∀ child ∈ children, U32 child) ∧ children.length = keys.length + 1

/-- The count of the keys fits its field, and so does the length of the first key that crosses the end of the page. -/
def Overflows (kt : KeyType K) : Node K → Prop
  | .leaf entries _ => entries.length < 2 ^ 16 ∧ ShortOverflow kt ridSuffix HEADER_SIZE (entries.map Prod.fst)
  | .internal keys _ => keys.length < 2 ^ 16 ∧ ShortOverflow kt childSuffix HEADER_SIZE keys

theorem Coded.shaped (coded : node.Coded kt) : node.Shaped kt ∧ node.Overflows kt := by
  cases node with
  | leaf entries next =>
    obtain ⟨writable, count, u32, real⟩ := coded
    refine ⟨⟨fun e among => ?_, u32, real⟩, count, shortOverflow_of_codes (fun key among => ?_) _⟩
    · exact ⟨(writable e among).1.imp fun _ => And.left, (writable e among).2⟩
    · obtain ⟨e, member, rfl⟩ := mem_map.mp among
      exact (writable e member).1
  | internal keys children =>
    obtain ⟨codes, count, u32, length⟩ := coded
    exact ⟨⟨fun key among => (codes key among).imp fun _ => And.left, u32, length⟩, count,
      shortOverflow_of_codes codes _⟩

def Fits (kt : KeyType K) (node : Node K) : Prop := node.size kt ≤ PAGE_SIZE

instance (kt : KeyType K) (node : Node K) : Decidable (node.Fits kt) := inferInstanceAs (Decidable (_ ≤ _))

theorem coded_empty : (Node.leaf [] NO_NEXT : Node K).Coded kt := ⟨by simp, by simp, by decide, by decide⟩

theorem fits_empty : (Node.leaf [] NO_NEXT : Node K).Fits kt := by
  show 12 + 0 ≤ 4096
  omega

theorem padded_zeros (fits : bs.length ≤ PAGE_SIZE) :
    (padded bs).bytes = bs ++ replicate (PAGE_SIZE - bs.length) 0 := by
  show (bs ++ replicate PAGE_SIZE 0).take PAGE_SIZE = _
  rw [take_append, take_of_length_le fits, take_replicate, min_eq_left (Nat.sub_le _ _)]

theorem padded_bytes (fits : bs.length ≤ PAGE_SIZE) : ∃ rest, (padded bs).bytes = bs ++ rest := ⟨_, padded_zeros fits⟩

theorem leafHeader_length (next count : ℕ) : (leafHeader next count).length = HEADER_SIZE := by
  simp [leafHeader, HEADER_SIZE]

theorem internalHeader_length (count first : ℕ) : (internalHeader count first).length = HEADER_SIZE := by
  simp [internalHeader, HEADER_SIZE]

theorem zip_writable (codes : ∀ key ∈ keys, kt.Codes key)
    (u32 : ∀ child ∈ rest, U32 child) : ∀ e ∈ keys.zip rest, Writable kt childSuffix e := by
  intro e among
  obtain ⟨isKey, isChild⟩ := of_mem_zip among
  exact ⟨codes _ isKey, packLE 4 e.2, if_pos (u32 _ isChild)⟩

theorem entriesSize_zip (length : rest.length = keys.length) :
    entriesSize kt childSuffix (keys.zip rest) = (keys.map fun key => entrySize kt childSuffix key).sum := by
  have keysOf : (keys.zip rest).map Prod.fst = keys := map_fst_zip length.ge
  have mapped : (keys.zip rest).map (fun e => entrySize kt childSuffix e.1) =
      ((keys.zip rest).map Prod.fst).map fun key => entrySize kt childSuffix key := by
    rw [map_map]
    rfl
  rw [entriesSize, mapped, keysOf]

theorem nodeType_of_bytes {page : Page} {rest : Bytes} (small : n < 256)
    (bytes : page.bytes = packLE 4 n ++ rest) : nodeType page = n := by
  have byte : packLE 4 n = packLE 1 n ++ packLE 3 (n / 256) := rfl
  rw [nodeType, bytes, byte, append_assoc, slice_front (packLE_length _ _)]
  exact unpackLE_packLE small

theorem pack_of_fits (coded : node.Coded kt) (fits : node.Fits kt) :
    ∃ page, node.pack kt pid = .ok page ∧ ∀ unknown pid', unpack kt unknown pid' page = .ok node := by
  match node, coded, fits with
  | .leaf entries next, ⟨writable, count, u32, real⟩, fits =>
    obtain ⟨payload, packed, length⟩ : ∃ payload, packEntries kt ridSuffix (overflowText "leaf" pid entries.length)
        HEADER_SIZE entries = .ok payload ∧ payload.length = entriesSize kt ridSuffix entries :=
      packEntries_of_fits writable fits
    obtain ⟨rest, bytes⟩ : ∃ rest, (padded (leafHeader next entries.length ++ payload)).bytes =
        leafHeader next entries.length ++ payload ++ rest :=
      padded_bytes (by rw [length_append, leafHeader_length, length]; exact fits)
    obtain ⟨page, same⟩ : ∃ page, page = padded (leafHeader next entries.length ++ payload) := ⟨_, rfl⟩
    rw [← same, append_assoc] at bytes
    refine ⟨page, ?_, fun unknown pid' => ?_⟩
    · rw [pack, if_pos ⟨u32, count⟩, packed, same]
      rfl
    · have kind : nodeType page = 1 := nodeType_of_bytes (by decide) (by rw [bytes, leafHeader, append_assoc])
      have nextBytes : unpackLE (slice page.bytes 4 4) = next := by
        rw [bytes, leafHeader, append_assoc, append_assoc, slice_part (packLE_length _ _) (packLE_length _ _)]
        exact unpackLE_packLE u32
      have countBytes : unpackLE (slice page.bytes 8 2) = entries.length := by
        have whole : page.bytes = (packLE 4 1 ++ packLE 4 next) ++
          (packLE 2 entries.length ++ (packLE 2 0 ++ (payload ++ rest))) := by
          rw [bytes, leafHeader]
          simp
        rw [whole, slice_part (by simp) (packLE_length _ _)]
        exact unpackLE_packLE count
      have entriesBack : unpackEntries kt ridSuffix page.bytes entries.length HEADER_SIZE = .ok entries := by
        rw [bytes]
        exact unpackEntries_of_packEntries packed rest (leafHeader_length _ _)
      rw [unpack, if_pos (.inr kind), unpackLeaf, if_pos (.inr kind)]
      simp only [nextBytes, countBytes, entriesBack, if_neg real]
      rfl
  | .internal keys (first :: children), ⟨codes, count, u32, length⟩, fits =>
    have sameLength : children.length = keys.length := by simpa using length
    obtain ⟨u32First, u32⟩ := forall_mem_cons.mp u32
    rw [Fits, size, ← entriesSize_zip sameLength] at fits
    obtain ⟨payload, packed, payloadLength⟩ : ∃ payload, packEntries kt childSuffix
        (overflowText "internal" pid keys.length) HEADER_SIZE (keys.zip children) = .ok payload ∧
          payload.length = entriesSize kt childSuffix (keys.zip children) :=
      packEntries_of_fits (zip_writable codes u32) fits
    obtain ⟨rest, bytes⟩ : ∃ rest, (padded (internalHeader keys.length first ++ payload)).bytes =
        internalHeader keys.length first ++ payload ++ rest :=
      padded_bytes (by rw [length_append, internalHeader_length, payloadLength]; exact fits)
    obtain ⟨page, same⟩ : ∃ page, page = padded (internalHeader keys.length first ++ payload) := ⟨_, rfl⟩
    rw [← same, append_assoc] at bytes
    refine ⟨page, ?_, fun unknown pid' => ?_⟩
    · rw [pack, if_pos ⟨count, u32First⟩, packed, same]
      rfl
    · have kind : nodeType page = 2 := nodeType_of_bytes (by decide) (by rw [bytes, internalHeader, append_assoc])
      have countBytes : unpackLE (slice page.bytes 4 2) = keys.length := by
        rw [bytes, internalHeader, append_assoc, append_assoc,
          slice_part (packLE_length _ _) (packLE_length _ _)]
        exact unpackLE_packLE count
      have firstBytes : unpackLE (slice page.bytes 8 4) = first := by
        have whole : page.bytes = (packLE 4 2 ++ (packLE 2 keys.length ++ packLE 2 0)) ++
            (packLE 4 first ++ (payload ++ rest)) := by
          rw [bytes, internalHeader]
          simp
        rw [whole, slice_part (by simp) (packLE_length _ _)]
        exact unpackLE_packLE u32First
      have zipLength : (keys.zip children).length = keys.length := by simp [sameLength]
      have entriesBack : unpackEntries kt childSuffix page.bytes keys.length HEADER_SIZE = .ok (keys.zip children) := by
        rw [bytes]
        have back := unpackEntries_of_packEntries packed rest (internalHeader_length keys.length first)
        rwa [zipLength] at back
      rw [unpack, if_neg (by omega), if_pos kind, unpackInternal]
      simp only [countBytes, firstBytes, entriesBack]
      refine (congrArg Except.ok ?_ : Except.ok _ = _)
      rw [map_fst_zip sameLength.ge, map_snd_zip sameLength.le]
  | .internal keys [], ⟨_, _, _, length⟩, _ => simp at length

theorem pack_beyond (shaped : node.Shaped kt) (large : ¬ node.Fits kt) :
    ∃ e, node.pack kt pid = .error e ∧ (e.cls = .btreeOverflowError ↔ node.Overflows kt) := by
  match node, shaped, large with
  | .leaf entries next, ⟨packs, u32, _⟩, large =>
    obtain ⟨e, packed, reported⟩ := packEntries_beyond packs (by decide) (not_le.mp large)
      fun ends => (rfl : (overflowText "leaf" pid entries.length ends).cls = _)
    rw [pack]
    by_cases count : entries.length < 2 ^ 16
    · rw [if_pos ⟨u32, count⟩, packed]
      exact ⟨e, rfl, reported.trans (and_iff_right count).symm⟩
    · exact ⟨_, if_neg fun both => count both.2, iff_of_false (by decide) fun both => count both.1⟩
  | .internal keys (first :: children), ⟨codes, u32, length⟩, large =>
    have sameLength : children.length = keys.length := by simpa using length
    obtain ⟨u32First, u32⟩ := forall_mem_cons.mp u32
    rw [Fits, size, ← entriesSize_zip sameLength] at large
    obtain ⟨e, packed, reported⟩ := packEntries_beyond
      (fun e among => ⟨codes _ (of_mem_zip among).1, packLE 4 e.2, if_pos (u32 _ (of_mem_zip among).2)⟩) (by decide)
      (not_le.mp large) fun ends => (rfl : (overflowText "internal" pid keys.length ends).cls = _)
    rw [map_fst_zip sameLength.ge] at reported
    rw [pack]
    by_cases count : keys.length < 2 ^ 16
    · rw [if_pos ⟨count, u32First⟩, packed]
      exact ⟨e, rfl, reported.trans (and_iff_right count).symm⟩
    · exact ⟨_, if_neg fun both => count both.1, iff_of_false (by decide) fun both => count both.1⟩
  | .internal keys [], ⟨_, _, length⟩, _ => simp at length

theorem pack_of_overflow (coded : node.Coded kt) (large : ¬ node.Fits kt) :
    ∃ e, node.pack kt pid = .error e ∧ e.cls = .btreeOverflowError := by
  obtain ⟨e, packed, reported⟩ := pack_beyond coded.shaped.1 large
  exact ⟨e, packed, reported.mpr coded.shaped.2⟩

end Node

end Tinydb.Index
