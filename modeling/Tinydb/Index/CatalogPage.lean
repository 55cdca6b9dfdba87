import Tinydb.Index.Node
import Tinydb.Storage.Catalog

/-! The catalog page of the indexes (`storage/catalog.py`).

An entry is its JSON text behind its length. Entries are written in the order of
their names until one has no room; that one and all behind it are left out without a
word. A page whose entries all have room reads back as they are.
-/

namespace Tinydb.Index

open Lib Storage List

/-- An index as the catalog has it. -/
structure IndexEntry extends IndexMeta where
  rootPid : ℕ
  deriving DecidableEq

def CATALOG_PAGE : ℕ := 1
def INDEX_CATALOG_PAGE : ℕ := 2
def CATALOG_HEADER_SIZE : ℕ := 12

/-- `b"CATL"`. -/
def CATALOG_MAGIC : Bytes := [0x43, 0x41, 0x54, 0x4C]

def catalogBody : ℕ → List Bytes → Bytes
  | _, [] => []
  | offset, blob :: rest =>
    if PAGE_SIZE < offset + 2 + blob.length then []
    else packLE 2 blob.length ++ (blob ++ catalogBody (offset + (2 + blob.length)) rest)

def catalogPage (blobs : List Bytes) : Except Exc Page :=
  if blobs.length < 2 ^ 16 then
    let body := catalogBody CATALOG_HEADER_SIZE blobs
    .ok (Node.padded (CATALOG_MAGIC ++ (packLE 2 blobs.length ++
      (packLE 2 (CATALOG_HEADER_SIZE + body.length) ++ (packLE 4 0 ++ body)))))
  else .error .packRange

def loadEntries (page : Bytes) : (count offset : ℕ) → List Bytes
  | 0, _ => []
  | count + 1, offset =>
    if PAGE_SIZE < offset + 2 then []
    else
      let length := unpackLE (slice page offset 2)
      if length = 0 ∨ PAGE_SIZE < offset + 2 + length then []
      else slice page (offset + 2) length :: loadEntries page count (offset + (2 + length))

def catalogEntries (page : Page) : List Bytes :=
  if slice page.bytes 0 4 = CATALOG_MAGIC then
    loadEntries page.bytes (unpackLE (slice page.bytes 4 2)) CATALOG_HEADER_SIZE
  else []

variable {blobs : List Bytes} {offset : ℕ}

def blobsSize (blobs : List Bytes) : ℕ := (blobs.map fun blob => 2 + blob.length).sum

def fitting : ℕ → List Bytes → List Bytes
  | _, [] => []
  | offset, blob :: rest =>
    if PAGE_SIZE < offset + 2 + blob.length then [] else blob :: fitting (offset + (2 + blob.length)) rest

theorem fitting_front (offset : ℕ) (blobs : List Bytes) : fitting offset blobs <+: blobs := by
  induction blobs generalizing offset with
  | nil => exact nil_prefix
  | cons blob rest ih =>
    rw [fitting]
    split
    · exact nil_prefix
    · exact (prefix_cons_inj blob).mpr (ih _)

theorem fitting_eq_iff (inside : offset ≤ PAGE_SIZE) :
    fitting offset blobs = blobs ↔ offset + blobsSize blobs ≤ PAGE_SIZE := by
  induction blobs generalizing offset with
  | nil => exact iff_of_true rfl inside
  | cons blob rest ih =>
    have size : blobsSize (blob :: rest) = (2 + blob.length) + blobsSize rest := rfl
    rw [fitting]
    by_cases room : PAGE_SIZE < offset + 2 + blob.length
    · rw [if_pos room]
      exact iff_of_false nofun (by omega)
    · rw [if_neg room, List.cons.injEq, ih (by omega), size, Nat.add_assoc]
      exact and_iff_right rfl

theorem catalogBody_le (inside : offset ≤ PAGE_SIZE) : offset + (catalogBody offset blobs).length ≤ PAGE_SIZE := by
  induction blobs generalizing offset with
  | nil => exact inside
  | cons blob rest ih =>
    rw [catalogBody]
    split
    · exact inside
    · have behind := ih (show offset + (2 + blob.length) ≤ PAGE_SIZE by omega)
      rw [length_append, length_append, packLE_length]
      omega

theorem loadEntries_zeros {pre : Bytes} (zeros count : ℕ) (start : pre.length = offset)
    (whole : offset + zeros = PAGE_SIZE) :
    loadEntries (pre ++ replicate zeros 0) count offset = [] := by
  cases count with
  | zero => rfl
  | succ count =>
    rw [loadEntries]
    split
    · rfl
    · have two : slice (pre ++ replicate zeros 0) offset 2 = replicate 2 0 := by
        rw [slice_skip 2 offset start (le_refl _), Nat.sub_self, slice, drop_zero, take_replicate,
          min_eq_left (by omega)]
      rw [two]
      exact if_pos (.inl rfl)

theorem loadEntries_catalogBody (nonempty : ∀ blob ∈ blobs, blob ≠ []) {pre : Bytes} (zeros : ℕ)
    (start : pre.length = offset) (whole : offset + ((catalogBody offset blobs).length + zeros) = PAGE_SIZE) :
    loadEntries (pre ++ (catalogBody offset blobs ++ replicate zeros 0)) blobs.length offset =
    fitting offset blobs := by
  induction blobs generalizing offset pre with
  | nil => rfl
  | cons blob rest ih =>
    obtain ⟨full, nonempty⟩ := forall_mem_cons.mp nonempty
    have positive := length_pos_of_ne_nil full
    rw [catalogBody, fitting] at *
    by_cases room : PAGE_SIZE < offset + 2 + blob.length
    · rw [if_pos room] at whole ⊢
      rw [if_pos room, nil_append]
      exact loadEntries_zeros zeros _ start (by simpa using whole)
    rw [if_neg room] at whole ⊢
    rw [if_neg room, length_cons, loadEntries, if_neg (by omega)]
    generalize number : packLE 2 blob.length = lengthBytes at whole ⊢
    have two : lengthBytes.length = 2 := number ▸ packLE_length 2 blob.length
    have count : unpackLE lengthBytes = blob.length := by
      rw [← number]
      refine unpackLE_packLE ?_
      unfold PAGE_SIZE at room
      omega
    generalize tail : catalogBody (offset + (2 + blob.length)) rest = body at whole ⊢
    rw [length_append, length_append, two] at whole
    have behind : loadEntries ((pre ++ (lengthBytes ++ blob)) ++ (body ++ replicate zeros 0)) rest.length
        (offset + (2 + blob.length)) = fitting (offset + (2 + blob.length)) rest := by
      rw [← tail]
      exact ih nonempty (by simp [start, two]) (by rw [tail]; omega)
    have atLength : slice (pre ++ ((lengthBytes ++ (blob ++ body)) ++ replicate zeros 0)) offset 2 = lengthBytes := by
      rw [append_assoc]
      exact slice_part start two
    have atBlob : slice (pre ++ ((lengthBytes ++ (blob ++ body)) ++ replicate zeros 0)) (offset + 2) blob.length =
      blob := by
      have parts : pre ++ ((lengthBytes ++ (blob ++ body)) ++ replicate zeros 0) =
          (pre ++ lengthBytes) ++ (blob ++ (body ++ replicate zeros 0)) := by simp
      rw [parts]
      exact slice_part (by simp [start, two]) rfl
    have parts : pre ++ ((lengthBytes ++ (blob ++ body)) ++ replicate zeros 0) =
        (pre ++ (lengthBytes ++ blob)) ++ (body ++ replicate zeros 0) := by simp
    simp only [atLength, count]
    rw [if_neg (by omega), atBlob, parts, behind]

theorem catalogEntries_fitting (nonempty : ∀ blob ∈ blobs, blob ≠ []) {page : Page}
    (packed : catalogPage blobs = .ok page) :
    catalogEntries page = fitting CATALOG_HEADER_SIZE blobs := by
  rw [catalogPage] at packed
  split at packed
  case isFalse => cases packed
  case isTrue few =>
    cases packed
    have body : CATALOG_HEADER_SIZE + (catalogBody CATALOG_HEADER_SIZE blobs).length ≤ PAGE_SIZE :=
      catalogBody_le (by decide)
    generalize number : packLE 2 blobs.length = countBytes
    have two : countBytes.length = 2 := number ▸ packLE_length 2 blobs.length
    have count : unpackLE countBytes = blobs.length := by
      rw [← number]
      exact unpackLE_packLE few
    generalize ends : packLE 2 (CATALOG_HEADER_SIZE + (catalogBody CATALOG_HEADER_SIZE blobs).length) = endBytes
    have two' : endBytes.length = 2 := ends ▸ packLE_length ..
    have four : CATALOG_MAGIC.length = 4 := rfl
    have length : (CATALOG_MAGIC ++ (countBytes ++
      (endBytes ++ (packLE 4 0 ++ catalogBody CATALOG_HEADER_SIZE blobs)))).length =
        CATALOG_HEADER_SIZE + (catalogBody CATALOG_HEADER_SIZE blobs).length := by
      simp only [length_append, four, two, two', packLE_length, CATALOG_HEADER_SIZE]
      omega
    have bytes := Node.padded_zeros (length ▸ body)
    rw [length] at bytes
    generalize zeros : PAGE_SIZE - (CATALOG_HEADER_SIZE + (catalogBody CATALOG_HEADER_SIZE blobs).length) = z at bytes
    have magic : slice (CATALOG_MAGIC ++
      (countBytes ++ (endBytes ++ (packLE 4 0 ++ catalogBody CATALOG_HEADER_SIZE blobs))) ++
        replicate z 0) 0 4 = CATALOG_MAGIC := by
      rw [append_assoc]
      exact slice_front four
    have atCount : slice (CATALOG_MAGIC ++
      (countBytes ++ (endBytes ++ (packLE 4 0 ++ catalogBody CATALOG_HEADER_SIZE blobs))) ++
        replicate z 0) 4 2 = countBytes := by
      rw [append_assoc, append_assoc]
      exact slice_part four two
    have parts : CATALOG_MAGIC ++ (countBytes ++ (endBytes ++ (packLE 4 0 ++ catalogBody CATALOG_HEADER_SIZE blobs))) ++
        replicate z 0 = (CATALOG_MAGIC ++ (countBytes ++ (endBytes ++ packLE 4 0))) ++
          (catalogBody CATALOG_HEADER_SIZE blobs ++ replicate z 0) := by simp
    rw [catalogEntries, bytes, if_pos magic, atCount, count, parts]
    exact loadEntries_catalogBody nonempty z (by simp [four, two, two', CATALOG_HEADER_SIZE]) (by omega)

end Tinydb.Index
