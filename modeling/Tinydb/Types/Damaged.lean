import Tinydb.Types.Stored

/-! Rows with bytes missing or too many.

Where a value ends is in its tag and, for some types, in a length behind the tag. A reader of a cut record either
misses some of these bytes and raises, or comes to the same end as a reader of the whole record, which the
cut record does not have. So the check of the last position finds every cut, although a slice of too few
bytes raises nothing.
-/

namespace Tinydb.Types

open Lib List Option

variable {X : Type} [Runtime X] {value : Value X} {tag : TypeTag} {buf bs : Bytes} {offset next : ℕ}
  {row stored : Row X} {tags : List TypeTag} {blob : Bytes}

/-- The position behind a payload. -/
def TypeTag.extent (tag : TypeTag) (buf : Bytes) (offset : ℕ) : Option ℕ :=
  match tag with
  | .null => some offset
  | .bool => some (offset + 1)
  | .date => some (offset + 4)
  | .int | .float | .time | .datetime => some (offset + 8)
  | .text | .decimal | .blob | .json => (unpackFrom buf offset 4).toOption.map fun length =>
    offset + 4 + unpackLE length

/-- The position behind a value. -/
def extent (buf : Bytes) (offset : ℕ) : Option ℕ :=
  buf[offset]?.bind fun b => (TypeTag.ofByte b).bind fun tag => tag.extent buf (offset + 1)

theorem extent_of_decodePrefixed {payload : Bytes} (read : decodePrefixed buf offset = .ok (payload, next)) :
    (unpackFrom buf offset 4).toOption.map (fun length => offset + 4 + unpackLE length) = some next := by
  obtain ⟨length, found, same⟩ := bind_ok_iff.mp read
  rw [found]
  exact congrArg some (Prod.mk.inj (Except.ok.inj same)).2

theorem extent_of_decodeValue (read : decodeValue buf offset = .ok (value, next)) : extent buf offset = some next := by
  rw [decodeValue] at read
  rw [extent]
  cases here : buf[offset]? with
  | none =>
    rw [here] at read
    cases read
  | some b =>
    rw [here] at read
    dsimp only at read
    rw [bind_some]
    cases known : TypeTag.ofByte b with
    | none =>
      rw [known] at read
      cases read
    | some tag =>
      rw [known] at read
      rw [bind_some]
      cases tag with
      | null =>
        cases read
        rfl
      | bool =>
        dsimp only at read
        cases raw : buf[offset + 1]? <;> rw [raw] at read <;> cases read
        rfl
      | int | float =>
        obtain ⟨raw, -, ⟨⟩⟩ := bind_ok_iff.mp read
        rfl
      | date | time | datetime =>
        obtain ⟨raw, -, read⟩ := bind_ok_iff.mp read
        obtain ⟨x, -, ⟨⟩⟩ := bind_ok_iff.mp read
        rfl
      | blob =>
        obtain ⟨⟨payload, stop⟩, found, ⟨⟩⟩ := bind_ok_iff.mp read
        exact extent_of_decodePrefixed found
      | text =>
        obtain ⟨⟨payload, stop⟩, found, read⟩ := bind_ok_iff.mp read
        obtain ⟨text, -, ⟨⟩⟩ := bind_ok_iff.mp read
        exact extent_of_decodePrefixed found
      | decimal | json =>
        obtain ⟨⟨payload, stop⟩, found, read⟩ := bind_ok_iff.mp read
        obtain ⟨text, -, read⟩ := bind_ok_iff.mp read
        obtain ⟨x, -, ⟨⟩⟩ := bind_ok_iff.mp read
        exact extent_of_decodePrefixed found

theorem unpackFrom_append {size : ℕ} (found : unpackFrom buf offset size = .ok bs) (missing : Bytes) :
    unpackFrom (buf ++ missing) offset size = .ok bs := by
  rw [unpackFrom] at found ⊢
  split_ifs at found with inside
  rw [if_pos (by rw [length_append]; omega), slice_append_left inside, found]

/-- Bytes that are added at the end do not move the end of a value. -/
theorem extent_append (ends : extent buf offset = some next) (missing : Bytes) :
    extent (buf ++ missing) offset = some next := by
  obtain ⟨b, here, ends⟩ := bind_eq_some_iff.mp ends
  obtain ⟨tag, known, ends⟩ := bind_eq_some_iff.mp ends
  rw [extent, List.getElem?_append_left (List.getElem?_eq_some_iff.mp here).1, here, bind_some, known, bind_some]
  cases tag with
  | text | decimal | blob | json =>
    cases found : unpackFrom buf (offset + 1) 4 with
    | error e =>
      rw [TypeTag.extent, found] at ends
      cases ends
    | ok length =>
      rw [TypeTag.extent, found] at ends
      rw [TypeTag.extent, unpackFrom_append found]
      exact ends
  | null | bool | date | int | float | time | datetime => exact ends

theorem extent_of_encodeValue (packs : tag = .float → PacksDoubles X) (encoded : encodeValue value tag = .ok bs)
    (before after : Bytes) :
    extent (before ++ (bs ++ after)) before.length = some (before.length + bs.length) := by
  obtain ⟨payload, packed, rfl⟩ := bind_return_iff.mp encoded
  rw [tagged_part, extent, tag_at, bind_some, TypeTag.ofByte_byte, bind_some, length_cons,
    Nat.add_comm payload.length, ← Nat.add_assoc]
  cases fixed : fixed? (X := X) tag with
  | some shape =>
    rw [length_of_fixed fixed packs packed]
    cases tag <;> cases fixed <;> rfl
  | none =>
    cases pre : prefixed? (X := X) tag with
    | some means =>
      obtain ⟨content, shape⟩ := prefixed_of_encodePayload pre packed
      have short := length_of_lengthPrefixed shape
      rw [lengthPrefixed, if_pos short] at shape
      cases shape
      have read := unpackFrom_part (before ++ [tag.byte]) (packLE 4 content.length) (content ++ after)
      rw [length_append, packLE_length, ← append_assoc (packLE 4 content.length)] at read
      have length : unpackLE (packLE 4 content.length) = content.length := unpackLE_packLE (by simpa using short)
      have ends : (unpackFrom ((before ++ [tag.byte]) ++ (packLE 4 content.length ++ content ++ after))
        (before.length + 1) 4).toOption.map
          (fun length => before.length + 1 + 4 + unpackLE length) = some (before.length + 1 + 4 + content.length) := by
        rw [length_singleton] at read
        rw [read]
        exact congrArg (fun n => some (before.length + 1 + 4 + n)) length
      rw [length_append, packLE_length, ← Nat.add_assoc]
      cases tag <;> cases pre <;> exact ends
    | none =>
      -- BOOL is the only type left
      cases tag <;> cases fixed <;> cases pre
      cases value <;> cases packed
      rfl

theorem extent_of_encodeColumn (packs : tag = .float → PacksDoubles X) (encoded : encodeColumn value tag = .ok bs)
    (before after : Bytes) :
    extent (before ++ (bs ++ after)) before.length = some (before.length + bs.length) := by
  obtain ⟨tag', float, written⟩ := encodeValue_coerced encoded
  exact extent_of_encodeValue (packs ∘ float) written before after

/-- A buffer that has the record, or only the front of it, is read to where the record ends, if it is read at all. -/
theorem EncodedRow.stop (encoded : EncodedRow row tags blob) (packs : .float ∈ tags → PacksDoubles X)
    {before after missing : Bytes} {stop : ℕ} (whole : buf ++ missing = before ++ (blob ++ after))
    (read : decodeColumns buf before.length tags = .ok (stored, stop)) : stop = before.length + blob.length := by
  induction encoded generalizing stored before with
  | nil => exact (Prod.mk.inj (Except.ok.inj read)).2.symm
  | @cons value values tag tags column rest first _ ih =>
    obtain ⟨⟨here, next⟩, head, read⟩ := bind_ok_iff.mp read
    obtain ⟨⟨later, stop'⟩, deeper, ⟨⟩⟩ := bind_ok_iff.mp read
    have found := extent_append (extent_of_decodeValue head) missing
    rw [whole, append_assoc, extent_of_encodeColumn (fun float => packs (by simp [float])) first] at found
    cases found
    rw [← length_append] at deeper
    have behind : buf ++ missing = before ++ column ++ (rest ++ after) := by
      rw [whole]
      simp
    rw [ih (fun float => packs (by simp [float])) behind deeper]
    simp [Nat.add_assoc]

/-- A stored row with bytes missing at the end, or with more of them, is not read as a row. -/
theorem damaged_row_rejected (packs : .float ∈ tags → PacksDoubles X) (encoded : encodeRowCoerced row tags = .ok blob) :
    (∀ cut missing, cut ++ missing = blob → missing ≠ [] → ∃ e, (decodeRow cut tags : Except Exc (Row X)) = .error e) ∧
      ∀ extra, extra ≠ [] → ∃ e, (decodeRow (blob ++ extra) tags : Except Exc (Row X)) = .error e := by
  have rejected (buf missing after : Bytes) (whole : buf ++ missing = blob ++ after)
    (other : buf.length ≠ blob.length) :
      ∃ e, (decodeRow buf tags : Except Exc (Row X)) = .error e := by
    cases read : (decodeRow buf tags : Except Exc (Row X)) with
    | error e => exact ⟨e, rfl⟩
    | ok stored =>
      obtain ⟨⟨values, stop⟩, decoded, checked⟩ := bind_ok_iff.mp read
      dsimp only at checked
      split_ifs at checked with ends
      have stops := (encodedRow encoded).stop packs (show buf ++ missing = [] ++ (blob ++ after) from whole) decoded
      exact absurd (ends.symm.trans (by simpa using stops)) other
  refine ⟨fun cut missing whole some => ?_, fun extra some => ?_⟩
  · refine rejected cut missing [] (by rw [whole, append_nil]) ?_
    have length := congrArg List.length whole
    have := length_pos_of_ne_nil some
    rw [length_append] at length
    omega
  · refine rejected _ [] extra (append_nil _) ?_
    have := length_pos_of_ne_nil some
    rw [length_append]
    omega

theorem damaged_row_rejected_text :
    encodeRowCoerced ([.str "ab", .none] : Row Unit) [.text, .date] =
    .ok [TypeTag.text.byte, 2, 0, 0, 0, 97, 98, TypeTag.null.byte] ∧
      ∃ e, (decodeRow [TypeTag.text.byte, 2, 0, 0, 0, 97] [.text, .date] : Except Exc (Row Unit)) = .error e := by
  have encoded : encodeRowCoerced ([.str "ab", .none] : Row Unit) [.text, .date] =
      .ok [TypeTag.text.byte, 2, 0, 0, 0, 97, 98, TypeTag.null.byte] := by decide +kernel
  exact ⟨encoded, (damaged_row_rejected (by simp) encoded).1 _ [98, TypeTag.null.byte] rfl (by simp)⟩

end Tinydb.Types
